/-
  Evaluation of straight-line code, from left to right and operands before operators. Loads and
  stores act on an environment of variables; every other operation but a constant becomes part
  of a trace, with the values of its operands, and yields a value that depends on the trace.

  `Tree.ops` lists the operations of a tree in the order of their evaluation. The main statement
  is on code that starts with a copy of one variable to another: as long as both keep their
  value, loads of the copy may be loads of the original (`Tree.trace_redirect`).
-/
import CilFold.Proofs.Held

namespace CilFold

open scoped List

/-- The constants, and what an operation yields that has become part of the trace. -/
structure Meaning (V : Type) where
  int : Int32 → V
  null : V
  nop : V
  outcome : List (Op × List V) → V

/-- The values of the variables, and the operations so far with the values of their operands. -/
structure Memory (V : Type) where
  vars : VarId → V
  trace : List (Op × List V) := []

variable {α V : Type} {M : Meaning V}

namespace Meaning

/-- Makes an operation part of the trace. -/
def observe (M : Meaning V) (op : Op) (values : List V) (m : Memory V) : V × Memory V :=
  let trace := m.trace ++ [(op, values)]
  (M.outcome trace, { m with trace })

/-- Carries out an operation whose operands have been evaluated. -/
def perform (M : Meaning V) (op : Op) (values : List V) (m : Memory V) : V × Memory V :=
  match op with
  | .nop => (M.nop, m)
  | .ldc n => (M.int n, m)
  | .ldnull => (M.null, m)
  | .ldloc v => (m.vars v, m)
  | .stloc v =>
    match values with
    | value :: _ => (value, { m with vars := Function.update m.vars v value })
    | [] => M.observe op values m
  | op => M.observe op values m

/-- Only a store changes a variable. -/
theorem perform_frame {v : VarId} {op : Op} (h : op ≠ .stloc v) (values : List V) (m : Memory V) :
    (M.perform op values m).2.vars v = m.vars v := by
  cases op with
  | stloc u =>
    have hne : v ≠ u := fun he => h (he ▸ rfl)
    cases values with
    | nil => rfl
    | cons value _ => exact Function.update_of_ne hne value m.vars
  | _ => rfl

end Meaning

namespace Tree

mutual

/-- Evaluates a tree, its operands first. -/
def eval (M : Meaning V) : Tree α → Memory V → V × Memory V
  | node _ op ts, m => M.perform op (evalAll M ts m).1 (evalAll M ts m).2

/-- Evaluates trees one after the other. -/
def evalAll (M : Meaning V) : List (Tree α) → Memory V → List V × Memory V
  | [], m => ([], m)
  | t :: ts, m =>
    ((eval M t m).1 :: (evalAll M ts (eval M t m).2).1, (evalAll M ts (eval M t m).2).2)

end

mutual

/-- The operations of a tree in the order of their evaluation. -/
def ops : Tree α → List Op
  | node _ op ts => opsOf ts ++ [op]

/-- The operations of several trees. -/
def opsOf : List (Tree α) → List Op
  | [] => []
  | t :: ts => ops t ++ opsOf ts

end

theorem opsOf_eq (ts : List (Tree α)) : opsOf ts = ts.flatMap ops := by
  induction ts with
  | nil => rfl
  | cons t ts ih => rw [opsOf, ih, List.flatMap_cons]

theorem opsOf_append (ts us : List (Tree α)) : opsOf (ts ++ us) = opsOf ts ++ opsOf us := by
  rw [opsOf_eq, opsOf_eq, opsOf_eq, List.flatMap_append]

theorem ops_node (a : α) (op : Op) (ts : List (Tree α)) :
    (node a op ts).ops = ts.flatMap ops ++ [op] := by
  rw [ops, opsOf_eq]

/-- The operations are those of the subtrees. -/
theorem mem_ops {t : Tree α} {op : Op} : op ∈ t.ops ↔ ∃ u ∈ t.subtrees, u.op = op := by
  induction t with
  | node a o ts ih =>
    rw [ops_node, List.mem_append, List.mem_flatMap, List.mem_singleton]
    constructor
    · rintro (⟨t, ht, hop⟩ | rfl)
      · obtain ⟨u, hu, rfl⟩ := (ih t ht).mp hop
        exact ⟨u, mem_subtrees_node.mpr (.inr ⟨t, ht, hu⟩), rfl⟩
      · exact ⟨_, mem_subtrees_self _, rfl⟩
    · rintro ⟨u, hu, rfl⟩
      rcases mem_subtrees_node.mp hu with rfl | ⟨t, ht, hu⟩
      · exact .inr rfl
      · exact .inl ⟨t, ht, (ih t ht).mpr ⟨u, hu, rfl⟩⟩

theorem ops_bare (t : Tree α) : t.bare.ops = t.ops := by
  induction t with
  | node a op ts ih => rw [bare_node, ops_node, ops_node, List.flatMap_map, List.flatMap_congr ih]

theorem opsOf_bare (ts : List (Tree α)) : opsOf (ts.map bare) = opsOf ts := by
  rw [opsOf_eq, opsOf_eq, List.flatMap_map, List.flatMap_congr fun t _ => ops_bare t]

/-! ## What evaluation depends on -/

theorem evalAll_append (ts us : List (Tree α)) (m : Memory V) :
    (evalAll M (ts ++ us) m).2 = (evalAll M us (evalAll M ts m).2).2 := by
  induction ts generalizing m with
  | nil => rfl
  | cons t ts ih => rw [List.cons_append, evalAll, ih, evalAll]

theorem evalAll_map {β : Type} {f : Tree α → Tree β} {ts : List (Tree α)}
    (h : ∀ t ∈ ts, ∀ m, eval M (f t) m = eval M t m) (m : Memory V) :
    evalAll M (ts.map f) m = evalAll M ts m := by
  induction ts generalizing m with
  | nil => rfl
  | cons t ts ih =>
    rw [List.map_cons, evalAll, evalAll, h t List.mem_cons_self,
      ih fun t ht => h t (List.mem_cons_of_mem _ ht)]

/-- Evaluation takes no notice of labels. -/
theorem eval_map {β : Type} (f : α → β) (t : Tree α) (m : Memory V) :
    eval M (t.map f) m = eval M t m := by
  induction t generalizing m with
  | node a op ts ih => rw [map_node, eval, eval, evalAll_map ih]

theorem evalAll_bare (ts : List (Tree α)) (m : Memory V) :
    evalAll M (ts.map bare) m = evalAll M ts m :=
  evalAll_map (fun t _ => eval_map _ t) m

theorem evalAll_frame_of {v : VarId} {ts : List (Tree α)}
    (hts : ∀ t ∈ ts, .stloc v ∉ t.ops → ∀ m, (eval M t m).2.vars v = m.vars v)
    (h : .stloc v ∉ opsOf ts) (m : Memory V) : (evalAll M ts m).2.vars v = m.vars v := by
  induction ts generalizing m with
  | nil => rfl
  | cons t ts ih =>
    rw [opsOf, List.mem_append, not_or] at h
    rw [evalAll, ih (fun t ht => hts t (List.mem_cons_of_mem _ ht)) h.2,
      hts t List.mem_cons_self h.1]

theorem eval_frame {v : VarId} {t : Tree α} (h : .stloc v ∉ t.ops) (m : Memory V) :
    (eval M t m).2.vars v = m.vars v := by
  induction t generalizing m with
  | node a op ts ih =>
    rw [ops, List.mem_append, not_or, List.mem_singleton] at h
    rw [eval, Meaning.perform_frame (Ne.symm h.2), evalAll_frame_of ih h.1]

/-- Trees without a store of a variable leave its value. -/
theorem evalAll_frame {v : VarId} {ts : List (Tree α)} (h : .stloc v ∉ opsOf ts) (m : Memory V) :
    (evalAll M ts m).2.vars v = m.vars v :=
  evalAll_frame_of (fun _ _ ht => eval_frame ht) h m

end Tree

/-! ## Loads of a copy -/

/-- Loads of the first variable become loads of the second one. -/
def Op.redirect (copy original : VarId) : Op → Op
  | .ldloc v => .ldloc (if v = copy then original else v)
  | op => op

mutual

/-- The operations of a tree, with loads of the first variable redirected to the second one. -/
def Tree.redirect (copy original : VarId) : Tree α → Tree Unit
  | .node _ op ts => .node () (op.redirect copy original) (redirectAll copy original ts)

/-- Redirects the loads of several trees. -/
def Tree.redirectAll (copy original : VarId) : List (Tree α) → List (Tree Unit)
  | [] => []
  | t :: ts => redirect copy original t :: redirectAll copy original ts

end

/-- The same trace, and the same values but for one variable. -/
structure Memory.Agree (copy : VarId) (m m' : Memory V) : Prop where
  trace : m'.trace = m.trace
  vars : ∀ v, v ≠ copy → m'.vars v = m.vars v

section Redirect

variable {copy original : VarId} {m m' : Memory V}

theorem Op.redirect_of_ne {op : Op} (h : op ≠ .ldloc copy) : op.redirect copy original = op := by
  cases op with
  | ldloc v =>
    have hne : v ≠ copy := fun he => h (he ▸ rfl)
    rw [redirect, if_neg hne]
  | _ => rfl

theorem Op.isContainer_redirect (op : Op) :
    (op.redirect copy original).isContainer = op.isContainer := by
  cases op <;> rfl

theorem Meaning.perform_redirect {op : Op} (hne : original ≠ copy) (hstore : op ≠ .stloc copy)
    (hm : m.Agree copy m') (hsame : op = .ldloc copy → m.vars copy = m.vars original)
    (values : List V) :
    (M.perform (op.redirect copy original) values m').1 = (M.perform op values m).1 ∧
      (M.perform op values m).2.Agree copy
        (M.perform (op.redirect copy original) values m').2 := by
  by_cases hload : op = .ldloc copy
  · subst hload
    have hvalue : m'.vars original = m.vars copy := (hm.vars original hne).trans (hsame rfl).symm
    rw [Op.redirect, if_pos rfl]
    exact ⟨hvalue, hm⟩
  · rw [Op.redirect_of_ne hload]
    have hobserve : (M.observe op values m').1 = (M.observe op values m).1 ∧
        (M.observe op values m).2.Agree copy (M.observe op values m').2 := by
      unfold observe
      exact ⟨by rw [hm.trace], by rw [hm.trace], hm.vars⟩
    cases op with
    | nop | ldc | ldnull => exact ⟨rfl, hm⟩
    | ldloc v =>
      have hv : v ≠ copy := fun he => hload (he ▸ rfl)
      exact ⟨hm.vars v hv, hm⟩
    | stloc v =>
      cases values with
      | nil => exact hobserve
      | cons value _ =>
        refine ⟨rfl, hm.trace, fun u hu => ?_⟩
        unfold perform
        by_cases huv : u = v
        · subst huv
          simp only [Function.update_self]
        · simp only [Function.update_of_ne huv, hm.vars u hu]
    | _ => exact hobserve

namespace Tree

theorem redirectAll_eq (ts : List (Tree α)) :
    redirectAll copy original ts = ts.map (redirect copy original) := by
  induction ts with
  | nil => rfl
  | cons t ts ih => rw [redirectAll, ih, List.map_cons]

theorem redirect_node (a : α) (op : Op) (ts : List (Tree α)) :
    (node a op ts).redirect copy original =
      node () (op.redirect copy original) (ts.map (redirect copy original)) := by
  rw [redirect, redirectAll_eq]

theorem ops_redirect (t : Tree α) :
    (t.redirect copy original).ops = t.ops.map (Op.redirect copy original) := by
  induction t with
  | node a op ts ih =>
    rw [redirect_node, ops_node, ops_node, List.flatMap_map, List.map_append, List.map_flatMap,
      List.flatMap_congr ih]
    rfl

theorem opsOf_redirect (ts : List (Tree α)) :
    opsOf (ts.map (redirect copy original)) = (opsOf ts).map (Op.redirect copy original) := by
  rw [opsOf_eq, opsOf_eq, List.flatMap_map, List.map_flatMap,
    List.flatMap_congr fun t _ => ops_redirect t]

/-- Where the copy is not loaded, nothing is redirected. -/
theorem redirect_eq_bare {t : Tree α} (h : .ldloc copy ∉ t.ops) :
    t.redirect copy original = t.bare := by
  induction t with
  | node a op ts ih =>
    rw [ops_node, List.mem_append, not_or, List.mem_flatMap, List.mem_singleton] at h
    have hts : ∀ t ∈ ts, t.redirect copy original = t.bare := fun t ht => ih t ht fun hload =>
      h.1 ⟨t, ht, hload⟩
    rw [redirect_node, bare_node, Op.redirect_of_ne (Ne.symm h.2), List.map_congr_left hts]

theorem map_redirect_eq_bare {ts : List (Tree α)} (h : .ldloc copy ∉ opsOf ts) :
    ts.map (redirect copy original) = ts.map bare := by
  refine List.map_congr_left fun t ht => redirect_eq_bare fun hload => h ?_
  rw [opsOf_eq]
  exact List.mem_flatMap.mpr ⟨t, ht, hload⟩

/-- A copy equals its original when it is loaded next, if no store of the original comes
    between. -/
theorem copy_kept {ts : List (Tree α)} {rest : List Op} (hcopy : .stloc copy ∉ opsOf ts)
    (hguard : ¬ [.stloc original, .ldloc copy] <+ opsOf ts ++ rest)
    (hsame : .ldloc copy ∈ opsOf ts ++ rest → m.vars copy = m.vars original)
    (hload : .ldloc copy ∈ rest) :
    (evalAll M ts m).2.vars copy = (evalAll M ts m).2.vars original := by
  have horiginal : .stloc original ∉ opsOf ts := fun h => hguard
    ((List.singleton_sublist.mpr h).append (List.singleton_sublist.mpr hload))
  rw [evalAll_frame hcopy, evalAll_frame horiginal, hsame (List.mem_append_right _ hload)]

/-- Redirecting loads of a copy changes neither the values nor the trace, if all loads of it
    come while it equals its original. -/
theorem evalAll_redirect_of {ts : List (Tree α)}
    (hts : ∀ t ∈ ts, .stloc copy ∉ t.ops → ¬ [.stloc original, .ldloc copy] <+ t.ops →
      ∀ m m' : Memory V, m.Agree copy m' → (.ldloc copy ∈ t.ops → m.vars copy = m.vars original) →
        (eval M (t.redirect copy original) m').1 = (eval M t m).1 ∧
          (eval M t m).2.Agree copy (eval M (t.redirect copy original) m').2)
    (hcopy : .stloc copy ∉ opsOf ts) (hguard : ¬ [.stloc original, .ldloc copy] <+ opsOf ts)
    (hm : m.Agree copy m') (hsame : .ldloc copy ∈ opsOf ts → m.vars copy = m.vars original) :
    (evalAll M (ts.map (redirect copy original)) m').1 = (evalAll M ts m).1 ∧
      (evalAll M ts m).2.Agree copy (evalAll M (ts.map (redirect copy original)) m').2 := by
  induction ts generalizing m m' with
  | nil => exact ⟨rfl, hm⟩
  | cons t ts ih =>
    rw [opsOf, List.mem_append, not_or] at hcopy
    rw [opsOf] at hguard hsame
    obtain ⟨hvalue, hm₁⟩ := hts t List.mem_cons_self hcopy.1
      (fun h => hguard (h.trans (List.sublist_append_left _ _))) m m' hm
      fun h => hsame (List.mem_append_left _ h)
    have hone : opsOf [t] = t.ops := by rw [opsOf, opsOf, List.append_nil]
    have hkept : .ldloc copy ∈ opsOf ts →
        (evalAll M [t] m).2.vars copy = (evalAll M [t] m).2.vars original :=
      copy_kept (hone ▸ hcopy.1) (hone ▸ hguard) (hone ▸ hsame)
    obtain ⟨hvalues, hm₂⟩ := ih (fun t ht => hts t (List.mem_cons_of_mem _ ht)) hcopy.2
      (fun h => hguard (h.trans (List.sublist_append_right _ _))) hm₁ hkept
    rw [List.map_cons, evalAll, evalAll, hvalue, hvalues]
    exact ⟨rfl, hm₂⟩

theorem eval_redirect {t : Tree α} (hne : original ≠ copy) (hcopy : .stloc copy ∉ t.ops)
    (hguard : ¬ [.stloc original, .ldloc copy] <+ t.ops) (m m' : Memory V) (hm : m.Agree copy m')
    (hsame : .ldloc copy ∈ t.ops → m.vars copy = m.vars original) :
    (eval M (t.redirect copy original) m').1 = (eval M t m).1 ∧
      (eval M t m).2.Agree copy (eval M (t.redirect copy original) m').2 := by
  induction t generalizing m m' with
  | node a op ts ih =>
    rw [ops, List.mem_append, not_or, List.mem_singleton] at hcopy
    rw [ops] at hguard hsame
    obtain ⟨hvalues, hm₁⟩ := evalAll_redirect_of ih hcopy.1
      (fun h => hguard (h.trans (List.sublist_append_left _ _))) hm
      fun h => hsame (List.mem_append_left _ h)
    have hkept : op = .ldloc copy → _ := fun h =>
      copy_kept (M := M) hcopy.1 hguard hsame (List.mem_singleton.mpr h.symm)
    rw [redirect_node, eval, eval, hvalues]
    exact Meaning.perform_redirect hne (Ne.symm hcopy.2) hm₁ hkept _

/-- A copy of a variable can be left out, with its loads redirected to the original, if nothing
    loads it earlier, nothing else stores it, and the original is not stored before its last
    load. -/
theorem trace_redirect {a b : α} {pre post : List (Tree α)} (hne : original ≠ copy)
    (hpre : .ldloc copy ∉ opsOf pre) (hstore : .stloc copy ∉ opsOf (pre ++ post))
    (hguard : ¬ [.stloc original, .ldloc copy] <+ opsOf post) (m : Memory V) :
    (evalAll M ((pre ++ post).map (redirect copy original)) m).2.trace =
      (evalAll M (pre ++ node a (.stloc copy) [node b (.ldloc original) []] :: post) m).2.trace := by
  rw [opsOf_append, List.mem_append, not_or] at hstore
  -- nothing is redirected in front of the copy
  rw [List.map_append, map_redirect_eq_bare hpre, evalAll_append, evalAll_append, evalAll_bare]
  generalize (evalAll M pre m).2 = m₀
  -- from the copy on, the two memories differ in it alone
  let m₁ : Memory V := { m₀ with vars := Function.update m₀.vars copy (m₀.vars original) }
  have hm₁ : m₁.Agree copy m₀ := ⟨rfl, fun v hv => (Function.update_of_ne hv _ _).symm⟩
  have hsame : m₁.vars copy = m₁.vars original :=
    (Function.update_self copy _ _).trans (Function.update_of_ne hne _ _).symm
  have hafter := evalAll_redirect_of (M := M) (fun t _ => eval_redirect hne) hstore.2 hguard hm₁
    fun _ => hsame
  exact hafter.2.trace

end Tree

end Redirect

/-! ## Straight-line code -/

namespace Routine

/-- The trees of the instructions, in their order. -/
def code (r : Routine) : List (Tree NodeId) :=
  ((r.blocks r.body).flatMap r.instructions).map r.tree

/-- The operations of the code in the order of their evaluation. -/
def ops (r : Routine) : List Op := Tree.opsOf r.code

/-- The trace of the code. -/
def trace (r : Routine) (M : Meaning V) (vars : VarId → V) : List (Op × List V) :=
  (Tree.evalAll M r.code { vars }).2.trace

/-- The body is one control-flow block, with neither a container nor an address of a variable
    in it. -/
def StraightLine (r : Routine) (block : NodeId) : Prop :=
  r.children r.body = [block] ∧ r.blockKind? block = some .controlFlow ∧
    ∀ op ∈ r.ops, op.isContainer = false ∧ op.use?.map Prod.fst ≠ some .address
deriving Decidable

end Routine

end CilFold
