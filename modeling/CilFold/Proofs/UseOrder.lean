/-
  The order of the use-lists. Nodes are marked one after the other. Those that leave the tree
  are dropped from the use-lists, and what stays keeps its order (`uses_foldl_mark_false`).
  Those that come into the tree are listed at the end, in the order in which they are marked
  (`uses_foldl_mark_true`); that order is `Tree.backward`.

  Both take that no use-list names a node twice, a node outside the tree, or a node that does
  not use the variable that way (`NoStrayUses`). This is less than `UsesListed`: a node may come
  into the tree with the handle of a variable that is declared later, and is in no use-list then.
-/
import Mathlib.Data.List.Perm.Basic
import CilFold.Proofs.Held
import CilFold.Routine.Validity

namespace CilFold

namespace Tree

variable {α : Type}

mutual

/-- The labels of a tree, each node before its operands, the operands from last to first. -/
def backward : Tree α → List α
  | node a _ ts => a :: backwardOf ts

/-- The labels of several trees, from the last tree to the first. -/
def backwardOf : List (Tree α) → List α
  | [] => []
  | t :: ts => backwardOf ts ++ backward t

end

theorem backwardOf_eq (ts : List (Tree α)) : backwardOf ts = ts.reverse.flatMap backward := by
  induction ts with
  | nil => rfl
  | cons t ts ih =>
    rw [backwardOf, ih, List.reverse_cons, List.flatMap_append, List.flatMap_singleton]

theorem backward_node (a : α) (op : Op) (ts : List (Tree α)) :
    (node a op ts).backward = a :: ts.reverse.flatMap backward := by
  rw [backward, backwardOf_eq]

/-- The two orders list the same labels. -/
theorem backward_perm (t : Tree α) : t.backward.Perm t.labels := by
  induction t with
  | node a op ts ih =>
    rw [backward_node, labels_node]
    refine List.Perm.cons a (((List.reverse_perm ts).flatMap_right backward).trans ?_)
    exact List.Perm.flatMap_left ts ih

end Tree

namespace Routine

variable {r s : Routine} {id k p root : NodeId} {v : VarId} {kind : UseKind} {ids : List NodeId}
  {n : Node} {t : Tree NodeId}

/-- The nodes of a tree are marked in the order `Tree.backward`. -/
theorem Forest.rightFirst_of_holds (F : r.Forest) (h : r.Holds t) :
    r.rightFirst t.label = t.backward := by
  induction h with
  | @node id op ts hop hc hts ih =>
    have halive : r.isAlive id = true := (Holds.node hop hc hts).alive
    rw [Tree.label_node, F.rightFirst_eq halive, hc, Tree.backward_node,
      ← List.map_reverse, List.flatMap_map]
    congr 1
    exact List.flatMap_congr fun t ht => ih t (List.mem_reverse.mp ht)

/-- The nodes that use a variable in a given way, in the order of its use-list. A variable that
    is not declared has no use-lists. -/
def uses (r : Routine) (v : VarId) (kind : UseKind) : List NodeId :=
  match r.var? v with
  | some x => x.uses kind
  | none => []

theorem uses_congr (h : s.var? v = r.var? v) (kind : UseKind) : s.uses v kind = r.uses v kind := by
  rw [uses, h, uses]

theorem uses_of_undeclared (h : ¬ v.index < r.vars.size) (kind : UseKind) : r.uses v kind = [] := by
  rw [uses, var?, Array.getElem?_eq_none (Nat.not_lt.mp h)]

/-- A change of one use-list of one variable. -/
theorem uses_modifyVariable (r : Routine) (w v : VarId) (f : List NodeId → List NodeId)
    (kind kind' : UseKind) (hf : f [] = [] ∨ w.index < r.vars.size) :
    (r.modifyVariable w (Variable.mapUses f kind)).uses v kind' =
      if v = w ∧ kind' = kind then f (r.uses v kind') else r.uses v kind' := by
  rw [uses, var?_modifyVariable, uses]
  by_cases hv : v = w
  · subst hv
    rw [if_pos rfl]
    cases hx : r.var? v with
    | none =>
      rcases hf with hf | hf
      · simp only [Option.map_none, hf, ite_self]
      · rw [var?, Array.getElem?_eq_getElem hf] at hx
        cases hx
    | some x => simp only [Option.map_some, Variable.uses_mapUses, true_and]
  · rw [if_neg hv, if_neg fun h => hv h.1]

/-! ## No stray uses -/

/-- No use-list names a node twice, a node outside the tree, or a node that does not use the
    variable that way. -/
def NoStrayUses (r : Routine) : Prop :=
  ∀ v kind, (r.uses v kind).Nodup ∧ ∀ k ∈ r.uses v kind, r.use? k = some (kind, v)

/-- Use-lists that stay are right as long as no use ends. -/
theorem NoStrayUses.congr (N : r.NoStrayUses) (huses : ∀ v kind, s.uses v kind = r.uses v kind)
    (hkeep : ∀ k u, r.use? k = some u → s.use? k = some u) : s.NoStrayUses := by
  intro v kind
  rw [huses]
  exact ⟨(N v kind).1, fun k hk => hkeep k _ ((N v kind).2 k hk)⟩

/-- A change of a node under which its operation and its mark stay. -/
theorem NoStrayUses.modifyNode (N : r.NoStrayUses) {f : Node → Node}
    (hf : ∀ n, r.node? id = some n → n.connected = true →
      (f n).op = n.op ∧ (f n).connected = true) : (r.modifyNode id f).NoStrayUses := by
  refine N.congr (fun _ _ => rfl) fun k u hu => ?_
  obtain ⟨n, hn, hc, hu⟩ := use?_eq_some hu
  rw [use?, node?_modifyNode_map, hn, Option.map_some, Option.bind_some]
  split_ifs with hk hc'
  · rw [(hf n (hk ▸ hn) hc).1, hu]
  · exact absurd (hf n (hk ▸ hn) hc).2 hc'
  · exact hu

theorem NoStrayUses.mapChildren (N : r.NoStrayUses) (id : NodeId)
    (f : List NodeId → List NodeId) : (r.mapChildren id f).NoStrayUses :=
  N.modifyNode fun _ _ hc => ⟨rfl, hc⟩

theorem NoStrayUses.setParent (N : r.NoStrayUses) (id : NodeId) (parent : Option NodeId) :
    (r.setParent id parent).NoStrayUses :=
  N.modifyNode fun _ _ hc => ⟨rfl, hc⟩

/-! ## Marking one node -/

theorem use?_mark_of_ne (connected : Bool) (r : Routine) (hk : k ≠ id) :
    (mark connected r id).use? k = r.use? k := by
  rw [use?, node?_mark, if_neg hk, use?]

theorem op?_mark (connected : Bool) (r : Routine) (id k : NodeId) :
    (mark connected r id).op? k = r.op? k := by
  rw [op?, node?_mark, op?]
  split_ifs
  · rw [Option.map_map]
    rfl
  · rfl

/-- A node that is marked as outside the tree is dropped from the use-lists. -/
theorem uses_mark_false (N : r.NoStrayUses) (id : NodeId) (v : VarId) (kind : UseKind) :
    (mark false r id).uses v kind = (r.uses v kind).erase id := by
  have hidle : r.use? id ≠ some (kind, v) → (r.uses v kind).erase id = r.uses v kind :=
    fun h => List.erase_of_not_mem fun hmem => h ((N v kind).2 id hmem)
  unfold mark
  split
  · next hn =>
    refine (hidle ?_).symm
    rw [use?, hn, Option.bind_none]
    exact (Option.some_ne_none _).symm
  · next n hn =>
    split
    · next hc =>
      refine (hidle ?_).symm
      rw [use?_of_node? hn, if_neg (ne_true_of_eq_false (beq_iff_eq.mp hc))]
      exact (Option.some_ne_none _).symm
    · next hc =>
      have hconn : n.connected = true := by simpa using hc
      have huse : r.use? id = n.op.use? := by rw [use?_of_node? hn, if_pos hconn]
      unfold register
      split
      · next hu =>
        refine (hidle ?_).symm
        rw [huse, hu]
        exact (Option.some_ne_none _).symm
      · next kind' w hu =>
        rw [if_neg Bool.false_ne_true, Variable.dropUse, uses_modifyVariable _ _ _ _ _ _ (.inl rfl)]
        split_ifs with h
        · rfl
        · refine (hidle ?_).symm
          rw [huse, hu]
          intro he
          cases he
          exact h ⟨rfl, rfl⟩

theorem foundUses_singleton (r : Routine) (id : NodeId) (kind : UseKind) (v : VarId) :
    r.foundUses [id] kind v =
      if (r.op? id).bind Op.use? = some (kind, v) then [id] else [] := by
  unfold foundUses
  split_ifs with h
  · exact List.filter_cons_of_pos (beq_iff_eq.mpr h)
  · exact List.filter_cons_of_neg (mt beq_iff_eq.mp h)

/-- A node that is marked as part of the tree is listed at the end, if it uses the variable. -/
theorem uses_mark_true (N : r.NoStrayUses) (hloose : r.isConnected id = false)
    (hv : v.index < r.vars.size) (kind : UseKind) :
    (mark true r id).uses v kind = r.uses v kind ++ r.foundUses [id] kind v := by
  rw [foundUses_singleton]
  unfold mark
  split
  · next hn =>
    rw [op?, hn, Option.map_none, Option.bind_none, if_neg (Option.some_ne_none _).symm,
      List.append_nil]
  · next n hn =>
    rw [isConnected_of_node? hn] at hloose
    rw [hloose, if_neg (by decide), op?_of_node? hn, Option.bind_some]
    unfold register
    split
    · next hu =>
      rw [hu, if_neg (Option.some_ne_none _).symm, List.append_nil]
      rfl
    · next kind' w hu =>
      rw [hu, if_pos rfl, Variable.addUse]
      by_cases h : v = w ∧ kind = kind'
      · obtain ⟨rfl, rfl⟩ := h
        rw [uses_modifyVariable, if_pos ⟨rfl, rfl⟩, if_pos rfl]
        · refine if_neg fun hmem => ?_
          have huse := (N v kind).2 id (List.contains_iff_mem.mp hmem)
          rw [use?_of_node? hn, hloose] at huse
          cases huse
        · exact .inr hv
      · have hne : some (kind', w) ≠ some (kind, v) := by
          intro he
          cases he
          exact h ⟨rfl, rfl⟩
        rw [if_neg hne, List.append_nil]
        by_cases hw : w.index < r.vars.size
        · rw [uses_modifyVariable, if_neg h]
          · rfl
          · exact .inr hw
        · -- a handle that is not declared: nothing is listed
          have hvw : v ≠ w := fun he => hw (he ▸ hv)
          rw [uses, var?_modifyVariable, if_neg hvw]
          rfl

theorem NoStrayUses.mark_false (N : r.NoStrayUses) (id : NodeId) :
    (mark false r id).NoStrayUses := by
  intro v kind
  obtain ⟨hnd, hmem⟩ := N v kind
  rw [uses_mark_false N]
  refine ⟨hnd.erase id, fun k hk => ?_⟩
  obtain ⟨hne, hk⟩ := hnd.mem_erase_iff.mp hk
  rw [use?_mark_of_ne false r hne]
  exact hmem k hk

theorem NoStrayUses.mark_true (N : r.NoStrayUses) (hloose : r.isConnected id = false) :
    (mark true r id).NoStrayUses := by
  intro v kind
  obtain ⟨hnd, hmem⟩ := N v kind
  by_cases hv : v.index < r.vars.size
  · have hout : id ∉ r.uses v kind := by
      intro h
      have hu := hmem id h
      rw [use?_of_loose hloose] at hu
      cases hu
    rw [uses_mark_true N hloose hv]
    refine ⟨List.nodup_append.mpr ⟨hnd, (List.nodup_singleton id).filter _, ?_⟩, fun k hk => ?_⟩
    · intro a ha b hb hab
      rw [List.mem_singleton.mp (List.mem_of_mem_filter hb)] at hab
      exact hout (hab ▸ ha)
    · rcases List.mem_append.mp hk with hk | hk
      · rw [use?_mark_of_ne true r (ne_of_mem_of_not_mem hk hout)]
        exact hmem k hk
      · obtain ⟨hk, hu⟩ := List.mem_filter.mp hk
        obtain rfl := List.mem_singleton.mp hk
        rw [beq_iff_eq] at hu
        obtain ⟨op, hop, hu⟩ := Option.bind_eq_some_iff.mp hu
        obtain ⟨n, hn, rfl⟩ := Option.map_eq_some_iff.mp hop
        rw [use?, node?_mark, if_pos rfl, hn, Option.map_some, Option.bind_some, if_pos rfl, hu]
  · rw [uses_of_undeclared (by rwa [(sameHead_mark true r id).size_vars])]
    exact ⟨List.nodup_nil, fun k hk => absurd hk List.not_mem_nil⟩

/-! ## Marking a list of nodes -/

theorem NoStrayUses.foldl_mark_false (N : r.NoStrayUses) (ids : List NodeId) :
    (ids.foldl (mark false) r).NoStrayUses := by
  induction ids generalizing r with
  | nil => exact N
  | cons id ids ih => exact ih (N.mark_false id)

/-- The nodes that leave the tree are dropped; the others keep their order. -/
theorem uses_foldl_mark_false (N : r.NoStrayUses) (ids : List NodeId) (v : VarId)
    (kind : UseKind) :
    (ids.foldl (mark false) r).uses v kind = (r.uses v kind).filter (· ∉ ids) := by
  induction ids generalizing r with
  | nil => exact (List.filter_eq_self.mpr fun _ _ => decide_eq_true List.not_mem_nil).symm
  | cons id ids ih =>
    rw [List.foldl_cons, ih (N.mark_false id), uses_mark_false N,
      (N v kind).1.erase_eq_filter, List.filter_filter]
    refine List.filter_congr fun k _ => ?_
    by_cases hk : k = id <;> simp [hk]

theorem isConnected_mark_of_ne (connected : Bool) (r : Routine) (hk : k ≠ id) :
    (mark connected r id).isConnected k = r.isConnected k := by
  rw [isConnected, node?_mark, if_neg hk, isConnected]

/-- The nodes that come into the tree are listed at the end, in the order in which they are
    marked. -/
theorem uses_foldl_mark_true (N : r.NoStrayUses) (hnd : ids.Nodup)
    (hloose : ∀ k ∈ ids, r.isConnected k = false) (hv : v.index < r.vars.size) (kind : UseKind) :
    (ids.foldl (mark true) r).uses v kind = r.uses v kind ++ r.foundUses ids kind v := by
  induction ids generalizing r with
  | nil => exact (List.append_nil _).symm
  | cons id ids ih =>
    obtain ⟨hid, hnd⟩ := List.nodup_cons.mp hnd
    have hfirst := hloose id List.mem_cons_self
    have hrest : ∀ k ∈ ids, (mark true r id).isConnected k = false := fun k hk => by
      rw [isConnected_mark_of_ne true r (ne_of_mem_of_not_mem hk hid)]
      exact hloose k (List.mem_cons_of_mem _ hk)
    have hv' : v.index < (mark true r id).vars.size := by
      rwa [(sameHead_mark true r id).size_vars]
    have hfound : (mark true r id).foundUses ids kind v = r.foundUses ids kind v := by
      unfold foundUses
      simp only [op?_mark]
    have hsplit : r.foundUses (id :: ids) kind v =
        r.foundUses [id] kind v ++ r.foundUses ids kind v :=
      List.filter_append [id] ids
    rw [List.foldl_cons, ih (N.mark_true hfirst) hnd hrest hv', uses_mark_true N hfirst hv, hfound,
      hsplit, List.append_assoc]

end Routine

end CilFold
