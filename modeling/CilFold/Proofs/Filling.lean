/-
  Putting a value into the place of a load.

  `Tree.Fills` says that a tree has come into the place of a load before which nothing but pure
  operations is evaluated, so that in the order of evaluation the steps of the tree stand where
  the load stood, behind pure ones (`Fills.steps`). Where the variable is loaded once, this is
  the substitution of the tree for the variable (`Fills.eq_substitute`); `Tree.Absorbs` is a
  number of such substitutions, one for each definition of a list.
-/
import Mathlib.Data.List.Perm.Basic
import CilFold.Proofs.Evaluation

namespace CilFold.Tree

variable {α : Type} {a : α} {op : Op} {v : VarId} {s t t' u x : Tree α} {ts : List (Tree α)}

/-! ## Effects -/

/-- The nodes of those steps that are more than pure. -/
def effectsOf (steps : List (α × Op)) : List α :=
  (steps.filter fun step => !step.2.isPure).map Prod.fst

/-- The nodes that are more than pure, in the order of their evaluation. -/
def effects (t : Tree α) : List α := effectsOf t.steps

theorem map_steps_snd (t : Tree α) : t.steps.map Prod.snd = t.ops := by
  induction t with
  | node a op ts ih =>
    rw [steps_node, ops_node, List.map_append, List.map_flatMap, List.flatMap_congr ih]
    rfl

theorem effectsOf_append (xs ys : List (α × Op)) :
    effectsOf (xs ++ ys) = effectsOf xs ++ effectsOf ys := by
  unfold effectsOf
  rw [List.filter_append, List.map_append]

theorem effectsOf_eq_nil {steps : List (α × Op)} (h : ∀ step ∈ steps, step.2.isPure = true) :
    effectsOf steps = [] := by
  unfold effectsOf
  rw [List.map_eq_nil_iff, List.filter_eq_nil_iff]
  intro step hstep
  rw [h step hstep]
  decide

theorem effectsOf_sublist (steps : List (α × Op)) :
    (effectsOf steps).Sublist (steps.map Prod.fst) :=
  List.filter_sublist.map Prod.fst

/-! ## Filling the place of a load -/

/-- Nothing but pure operations is in the tree. -/
def Pure (t : Tree α) : Prop := ∀ u ∈ t.subtrees, u.op.isPure = true

/-- The second tree is the first one with `x` in the place of a load of `v`, before which
    nothing but pure operations is evaluated. -/
inductive Fills (v : VarId) (x : Tree α) : Tree α → Tree α → Prop where
  | here {a : α} : Fills v x (node a (.ldloc v) []) x
  | under {a : α} {op : Op} {before after : List (Tree α)} {t t' : Tree α} :
      (∀ u ∈ before, u.Pure) → Fills v x t t' →
      Fills v x (node a op (before ++ t :: after)) (node a op (before ++ t' :: after))

/-- The steps of the tree take the place of the load, and what is evaluated before is pure. -/
theorem Fills.steps (h : Fills v x t t') : ∃ first load rest,
    t.steps = first ++ (load, .ldloc v) :: rest ∧ t'.steps = first ++ (x.steps ++ rest) ∧
      ∀ step ∈ first, step.2.isPure = true := by
  induction h with
  | @here a =>
    refine ⟨[], a, [], ?_, ?_, fun _ h => absurd h List.not_mem_nil⟩
    · rw [steps_node]
      rfl
    · rw [List.append_nil, List.nil_append]
  | @under a op before after t t' hpure _ ih =>
    obtain ⟨first, load, rest, ht, ht', hfirst⟩ := ih
    refine ⟨before.flatMap Tree.steps ++ first, load,
      rest ++ (after.flatMap Tree.steps ++ [(a, op)]), ?_, ?_, fun step hstep => ?_⟩
    · rw [steps_node, List.flatMap_append, List.flatMap_cons, ht]
      simp only [List.append_assoc, List.cons_append]
    · rw [steps_node, List.flatMap_append, List.flatMap_cons, ht']
      simp only [List.append_assoc]
    · rcases List.mem_append.mp hstep with hbefore | hstep
      · obtain ⟨u, hu, hmem⟩ := List.mem_flatMap.mp hbefore
        obtain ⟨w, hw, rfl⟩ := exists_subtree_of_step hmem
        exact hpure u hu w hw
      · exact hfirst step hstep

/-- What is in the tree afterwards was in it before or has come with the filling. -/
theorem Fills.mem_labels (h : Fills v x t t') (ha : a ∈ t'.labels) :
    a ∈ t.labels ∨ a ∈ x.labels := by
  obtain ⟨first, load, rest, ht, ht', _⟩ := h.steps
  rw [← t'.steps_perm.mem_iff, ht', List.map_append, List.map_append, List.mem_append,
    List.mem_append] at ha
  rw [← t.steps_perm.mem_iff, ← x.steps_perm.mem_iff, ht, List.map_append, List.mem_append,
    List.map_cons, List.mem_cons]
  tauto

/-! ## Substitution -/

/-- Puts a tree into the place of each load of a variable. -/
def substitute (t : Tree α) (v : VarId) (x : Tree α) : Tree α :=
  t.rewrite fun u => if u.op = .ldloc v then some x else none

/-- Nothing is put into a tree that does not load the variable. -/
theorem substitute_eq_self (h : .ldloc v ∉ t.ops) : t.substitute v x = t := by
  refine rewrite_eq_self fun u hu => if_neg fun hop => h ?_
  exact mem_ops.mpr ⟨u, hu, hop⟩

/-- Filling the place of the only load of a variable is a substitution. -/
theorem Fills.eq_substitute (h : Fills v x t t') (hone : t.ops.count (.ldloc v) = 1) :
    t' = t.substitute v x := by
  induction h with
  | @here a =>
    have htop : (if (node a (.ldloc v) []).op = .ldloc v then some x else none) = some x :=
      if_pos rfl
    exact (rewrite_of_some htop).symm
  | @under a op before after t t' _ hfills ih =>
    obtain ⟨first, load, rest, hsteps, _⟩ := hfills.steps
    -- the load is in the operand that it was found in, and there is no second one
    have hin : 0 < t.ops.count (.ldloc v) := by
      rw [← map_steps_snd, hsteps]
      exact List.count_pos_iff.mpr (by simp)
    rw [ops_node, List.flatMap_append, List.flatMap_cons] at hone
    simp only [List.count_append] at hone
    have hbefore : .ldloc v ∉ before.flatMap ops := List.count_eq_zero.mp (by omega)
    have hafter : .ldloc v ∉ after.flatMap ops := List.count_eq_zero.mp (by omega)
    have hop : op ≠ .ldloc v := by
      have htop : .ldloc v ∉ [op] := List.count_eq_zero.mp (by omega)
      exact fun he => htop (List.mem_singleton.mpr he.symm)
    have hself : ∀ us : List (Tree α), .ldloc v ∉ us.flatMap ops →
        us.map (·.substitute v x) = us := by
      intro us hus
      refine (List.map_congr_left fun u hu => substitute_eq_self ?_).trans (List.map_id' us)
      exact fun hmem => hus (List.mem_flatMap.mpr ⟨u, hu, hmem⟩)
    have hnode : (node a op (before ++ t :: after)).substitute v x =
        node a op ((before ++ t :: after).map (·.substitute v x)) :=
      rewrite_node_of_none (σ := fun u => if u.op = .ldloc v then some x else none) (if_neg hop)
    rw [hnode, List.map_append, List.map_cons, hself _ hbefore, hself _ hafter, ← ih (by omega)]

/-- Definitions fold into a tree, the last one first: each is `stloc v(x)`, and `x` takes the
    place of the one load of `v` in what the tree has become by then. -/
inductive Absorbs : List (Tree α) → Tree α → Tree α → Prop where
  | none {t : Tree α} : Absorbs [] t t
  | last {ds : List (Tree α)} {d : α} {v : VarId} {x t t' : Tree α} :
      t.ops.count (.ldloc v) = 1 → Absorbs ds (t.substitute v x) t' →
      Absorbs (ds ++ [node d (.stloc v) [x]]) t t'

end CilFold.Tree
