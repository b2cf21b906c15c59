/-
  Taking a node out of its slot is undone by putting it back. Between the two a fresh `nop` keeps
  the slot; afterwards every node is as before, its operation, its children, its parent and its
  mark (`node?_reseat`).

  The use-lists lose the nodes of the tree that is taken out and get them back at the end
  (`uses_reseat`), so that they may change their order. Here the routine has to be looked at before
  the node is taken: a node that came into the tree before its variable was declared is in no
  use-list, and is listed when it is put back. So a use-list is a permutation of what it was
  exactly if no node of the tree that is taken out is missing in it (`Edit.replace_undoes_extract`).
-/
import CilFold.Proofs.Splicing
import CilFold.Proofs.Walks
import CilFold.Proofs.Upkeep
import CilFold.Proofs.Declaring
import CilFold.Proofs.Ends

namespace CilFold

/-! ## Lists -/

section Lists

variable {α : Type} [DecidableEq α] {l m ids : List α} {a b : α}

/-- Replacing an element by a new one is undone by replacing it back. -/
theorem replace_replace (h : b ∉ l) : (l.replace a b).replace b a = l := by
  induction l with
  | nil => rfl
  | cons x l ih =>
    have hx : b ≠ x := List.ne_of_not_mem_cons h
    by_cases hxa : x = a
    · subst hxa
      rw [List.replace_cons_self, List.replace_cons_self]
    · rw [List.replace_cons, beq_false_of_ne (Ne.symm hxa), List.replace_cons,
        beq_false_of_ne hx, ih (List.not_mem_of_not_mem_cons h)]

/-- Some elements leave a list and others are added at the end. If all that leave are among those,
    it is a permutation of what it was as long as no new one is. -/
theorem perm_filter_append_iff (hl : l.Nodup) (hm : m.Nodup) (hids : ∀ k ∈ m, k ∈ ids)
    (hback : ∀ k ∈ l, k ∈ ids → k ∈ m) :
    (l.filter (· ∉ ids) ++ m).Perm l ↔ ∀ k ∈ m, k ∈ l := by
  constructor
  · intro h k hk
    exact h.mem_iff.mp (List.mem_append_right _ hk)
  · intro h
    have hnd : (l.filter (· ∉ ids) ++ m).Nodup := by
      refine List.nodup_append.mpr ⟨hl.filter _, hm, ?_⟩
      rintro x hx _ hy rfl
      exact of_decide_eq_true (List.mem_filter.mp hx).2 (hids x hy)
    refine (List.perm_ext_iff_of_nodup hnd hl).mpr fun k => ?_
    rw [List.mem_append, List.mem_filter, decide_eq_true_iff]
    constructor
    · rintro (⟨hk, _⟩ | hk)
      · exact hk
      · exact h k hk
    · intro hk
      by_cases hin : k ∈ ids
      · exact .inr (hback k hk hin)
      · exact .inl ⟨hk, hin⟩

end Lists

namespace Routine

variable {r s : Routine} {id k p : NodeId} {v : VarId}

/-- Takes a node out of its slot and puts it back into the place of the `nop` that is left there. -/
def reseat (r : Routine) (p id : NodeId) : Routine := (r.detach p id).putInSlot p r.nextId id

theorem sameHead_reseat (r : Routine) (p id : NodeId) : SameHead r (r.reseat p id) :=
  (sameHead_detach r p id).trans (sameHead_putInSlot _ p r.nextId id)

@[simp] theorem size_reseat (r : Routine) (p id : NodeId) :
    (r.reseat p id).nodes.size = r.nodes.size + 1 := by
  simp [reseat]

section Forest

variable (F : r.Forest) (hid : r.parent? id = some p)
include F hid

/-! ## The slot while it is empty -/

theorem node?_slot : (r.detach p id).node? r.nextId =
    some { op := .nop, children := [], parent := some p, connected := r.isConnected p } := by
  rw [node?_detach F hid, if_pos rfl]

theorem holds_slot : (r.detach p id).Holds (.node r.nextId .nop []) :=
  .leaf (op?_of_node? (node?_slot F hid)) (children_of_node? (node?_slot F hid))

/-- There is nothing below the `nop`. -/
theorem encloses_slot : (r.detach p id).encloses r.nextId k = (k == r.nextId) := by
  have F' := F.detach hid
  have hleaf := F'.mem_labels (x := k) (holds_slot F hid)
  rw [Bool.eq_iff_iff, F'.encloses_iff, beq_iff_eq]
  exact hleaf.symm.trans (by simp [Tree.mem_labels_node])

/-- The slot is not below the node that was taken out of it. -/
theorem not_above_slot : ¬ (r.detach p id).Above id r.nextId := by
  rw [above_detach F hid]
  intro h
  exact ne_of_dead (node?_nextId r) (h.alive (isAlive_of_parent? hid)) rfl

theorem isConnected_slot_parent : (r.detach p id).isConnected p = r.isConnected p := by
  have hnext := F.parent_ne_nextId hid
  rw [(views_detach F hid p).connected, if_neg hnext,
    F.encloses_false_iff.mpr (F.not_above_parent hid), Bool.not_false, Bool.and_true]

theorem slot_not_listed (N : (r.detach p id).NoStrayUses) (v : VarId) (kind : UseKind) :
    r.nextId ∉ (r.detach p id).uses v kind := by
  intro hmem
  have huse := (N v kind).2 _ hmem
  rw [use?_of_node? (node?_slot F hid)] at huse
  split_ifs at huse
  cases huse

/-- Beside the routine's tree the node has the tree that it had in its slot. -/
theorem tree_detach : (r.detach p id).tree id = r.tree id := by
  have ht := F.holds_tree (isAlive_of_parent? hid)
  have h := (F.detach hid).tree_of_holds (holds_detach F hid ht (label_tree r id))
  rwa [label_tree] at h

/-! ## The node back in its slot -/

theorem views_reseat (k : NodeId) :
    Views (r.reseat p id) k (r.op? k) (r.children k) (r.parent? k) (r.isConnected k) := by
  have hd := detached_detach F hid
  have hslot := parent?_of_node? (node?_slot F hid)
  have v := views_detach F hid k
  have w := views_putInSlot (F.detach hid) hslot hd.alive hd.top (not_above_slot F hid) k
  rw [encloses_slot F hid, isConnected_slot_parent F hid] at w
  by_cases hk : k = r.nextId
  · simp only [beq_iff_eq, if_pos hk] at w
    have u := views_none (node?_nextId r)
    rw [← hk] at u
    rw [u.op, u.children, u.parent, u.connected]
    exact w
  · simp only [beq_iff_eq, if_neg hk] at v w
    rw [v.op, v.children, v.parent, v.connected] at w
    refine ⟨w.op, w.children.trans ?_, w.parent.trans ?_, w.connected.trans ?_⟩
    · split_ifs
      · exact replace_replace (F.not_mem_children (parent?_of_dead (node?_nextId r)) k)
      · rfl
    · split_ifs with hkid
      · rw [hkid, hid]
      · rfl
    · have hbelow : (r.detach p id).encloses id k = r.encloses id k := by
        rw [Bool.eq_iff_iff, (F.detach hid).encloses_iff, F.encloses_iff, above_detach F hid]
      rw [hbelow]
      -- the mark that the nodes below lose on the way out is the one they get on the way in
      cases henc : r.encloses id k with
      | false => simp
      | true =>
        rw [F.isConnected_of_above (F.encloses_iff.mp henc), F.shared hid]
        simp

theorem node?_reseat (k : NodeId) : (r.reseat p id).node? k = r.node? k :=
  (views_reseat F hid k).node?_eq

/-- The arena has one slot more, which is empty. -/
theorem liveCount_reseat : (r.reseat p id).liveCount = r.liveCount := by
  have halive : (r.reseat p id).isAlive = r.isAlive := by
    funext k
    rw [isAlive, node?_reseat F hid, isAlive]
  have hnext : r.isAlive ⟨r.nodes.size⟩ = false := isAlive_eq_false_iff.mpr (node?_nextId r)
  rw [liveCount_eq, liveCount_eq, slots, size_reseat, List.range_succ, List.map_append,
    List.filter_append, halive, List.map_singleton, List.filter_singleton, hnext]
  exact congrArg List.length (List.append_nil _)

/-! ## The use-lists -/

/-- The uses in the tree of the node go from their places to the end. -/
theorem uses_reseat (N : r.NoStrayUses) (hv : v.index < r.vars.size) (kind : UseKind) :
    (r.reseat p id).uses v kind =
      if r.isConnected p = true then
        (r.uses v kind).filter (· ∉ (r.tree id).labels) ++
          r.foundUses (r.tree id).backward kind v
      else r.uses v kind := by
  have F' := F.detach hid
  have hslot := parent?_of_node? (node?_slot F hid)
  have hnop := op?_of_node? (node?_slot F hid)
  have out := spliced_detach F N hid
  have N' := out.noStrayUses N
  have back := spliced_putInSlot F' N' hslot (detached_detach F hid) (not_above_slot F hid)
  have hv' : v.index < (r.detach p id).vars.size := by rwa [out.head.size_vars]
  -- the `nop` of the slot is in no use-list
  have hnone : (r.detach p id).foundUses [r.nextId] kind v = [] := by
    rw [foundUses_singleton, hnop]
    exact if_neg (Option.some_ne_none _).symm
  have hstay : ((r.detach p id).uses v kind).filter
      (· ∉ ((r.detach p id).tree r.nextId).labels) = (r.detach p id).uses v kind := by
    rw [List.filter_eq_self]
    intro k hk
    rw [decide_eq_true_iff, F'.mem_labels_tree (isAlive_of_node? (node?_slot F hid)),
      encloses_slot F hid, beq_iff_eq]
    rintro rfl
    exact slot_not_listed F hid N' v kind hk
  rw [reseat, back.uses v hv' kind, hstay, isConnected_slot_parent F hid,
    tree_detach F hid, out.uses v hv kind, hnone, List.append_nil]
  split_ifs
  · exact congrArg _ (foundUses_congr (fun k _ => (views_reseat F hid k).op) kind v)
  · rfl

/-- A use-list is a permutation of what it was exactly if the uses of its variable in the tree of
    the node were listed. -/
theorem uses_reseat_perm_iff (N : r.NoStrayUses) (v : VarId) (kind : UseKind) :
    ((r.reseat p id).uses v kind).Perm (r.uses v kind) ↔
      (v.index < r.vars.size → ∀ k, r.encloses id k = true → r.use? k = some (kind, v) →
        k ∈ r.uses v kind) := by
  have hlive := isAlive_of_parent? hid
  by_cases hv : v.index < r.vars.size
  · rw [uses_reseat F hid N hv kind]
    by_cases hc : r.isConnected p = true
    · have hfound : ∀ k, k ∈ r.foundUses (r.tree id).backward kind v ↔
          r.encloses id k = true ∧ r.use? k = some (kind, v) := by
        intro k
        rw [mem_foundUses, F.mem_backward hlive, use?_eq]
        refine and_congr_right fun hk => ?_
        rw [F.isConnected_of_above (F.encloses_iff.mp hk), F.shared hid, if_pos hc]
      have hnd : (r.foundUses (r.tree id).backward kind v).Nodup :=
        (F.nodup_backward hlive).filter _
      rw [if_pos hc, perm_filter_append_iff (N v kind).1 hnd]
      · constructor
        · intro h _ k hk hu
          exact h k ((hfound k).mpr ⟨hk, hu⟩)
        · intro h k hk
          obtain ⟨hk, hu⟩ := (hfound k).mp hk
          exact h hv k hk hu
      · intro k hk
        exact (F.mem_labels_tree hlive).mpr ((hfound k).mp hk).1
      · intro k hk hin
        exact (hfound k).mpr ⟨(F.mem_labels_tree hlive).mp hin, (N v kind).2 k hk⟩
    · rw [if_neg hc]
      refine iff_of_true (List.Perm.refl _) fun _ k hk hu => ?_
      -- outside the routine's tree no node uses anything
      rw [use?_eq, F.isConnected_of_above (F.encloses_iff.mp hk), F.shared hid, if_neg hc] at hu
      cases hu
  · have hv' : ¬ v.index < (r.reseat p id).vars.size := by
      rwa [(sameHead_reseat r p id).size_vars]
    rw [uses_of_undeclared hv, uses_of_undeclared hv']
    exact iff_of_true (List.Perm.refl _) fun h => absurd h hv

end Forest

end Routine

namespace Edit

open Routine

variable {r : Routine} {id p : NodeId}

/-- A node that was taken out of its slot can be put back into it, unless it is a block. -/
theorem replace_detach (F : r.Forest) (hid : r.parent? id = some p) (hblock : r.isBlock id = false)
    (hcontainer : r.isContainer p = false) :
    replace r.nextId id (r.detach p id) = .ok () (r.reseat p id) := by
  have F' := F.detach hid
  have hkept : ∀ k, r.isAlive k = true → (r.detach p id).op? k = r.op? k := fun k hk => by
    rw [(views_detach F hid k).op, if_neg (ne_of_dead (node?_nextId r) hk).symm]
  obtain ⟨n, hn⟩ := F.exists_parent_node? hid
  refine replace_ok F' (parent?_of_node? (node?_slot F hid)) (detached_detach F hid)
    (not_above_slot F hid) ?_
  rw [isBlock_congr (hkept id (isAlive_of_parent? hid)),
    isContainer_congr (hkept p (isAlive_of_node? hn)), hblock, hcontainer]

/-- Taking an operand out of its slot and putting it back. Neither is refused. In between a fresh
    `nop` stands in the slot, as connected as its parent; afterwards it is gone, and every other
    node is what it was. A use-list is a permutation of what it was if and only if it had all the
    nodes below the operand that use its variable in the routine's tree; only a node that came into
    the tree before the variable was declared may be missing. -/
theorem replace_undoes_extract (h : Reachable r) (hid : r.parent? id = some p)
    (hblock : r.isBlock id = false) (hp : r.isBlock p = false) (hcontainer : r.isContainer p = false) :
    ∃ s t, extract id r = .ok id s ∧
      (∃ i, (r.children p)[i]? = some id ∧ s.children p = (r.children p).set i r.nextId) ∧
      r.isAlive r.nextId = false ∧
      s.node? r.nextId =
        some { op := .nop, children := [], parent := some p, connected := r.isConnected p } ∧
      s.isConnected p = r.isConnected p ∧
      replace r.nextId id s = .ok () t ∧
      (∀ k, k ≠ r.nextId → t.node? k = r.node? k) ∧
      t.isAlive r.nextId = false ∧
      t.liveCount = r.liveCount ∧
      ∀ v kind, (t.uses v kind).Perm (r.uses v kind) ↔
        (v.index < r.vars.size → ∀ k, r.encloses id k = true → r.use? k = some (kind, v) →
          k ∈ r.uses v kind) := by
  have F := h.forest
  have hdead : r.isAlive r.nextId = false := isAlive_eq_false_iff.mpr (node?_nextId r)
  obtain ⟨i, hi, hset⟩ := exists_position F hid r.nextId
  refine ⟨_, _, extract_ok F hid hp hcontainer, ⟨i, hi, ?_⟩, hdead, node?_slot F hid,
    isConnected_slot_parent F hid, replace_detach F hid hblock hcontainer,
    fun k _ => node?_reseat F hid k, ?_, liveCount_reseat F hid,
    uses_reseat_perm_iff F hid h.noStrayUses⟩
  · rw [(views_detach F hid p).children, if_pos rfl, hset]
  · rw [isAlive, node?_reseat F hid, ← isAlive, hdead]

/-- Of two loads, the one that was listed first is listed last after it was taken out and put
    back. -/
theorem load_relisted_last : Reachable Sample.storing ∧
    Sample.storing.parent? ⟨3⟩ = some ⟨4⟩ ∧ Sample.storing.op? ⟨4⟩ = some (.stobj .void) ∧
    Sample.storing.uses ⟨0⟩ .load = [⟨3⟩, ⟨2⟩] ∧
    ∃ s t, extract ⟨3⟩ Sample.storing = .ok ⟨3⟩ s ∧
      replace Sample.storing.nextId ⟨3⟩ s = .ok () t ∧ t.uses ⟨0⟩ .load = [⟨2⟩, ⟨3⟩] ∧
      (t.uses ⟨0⟩ .load).Perm (Sample.storing.uses ⟨0⟩ .load) := by
  have hreach : Reachable Sample.storing := (Reachable.empty _ _).after _
  have hid : Sample.storing.parent? ⟨3⟩ = some ⟨4⟩ := by decide +kernel
  have hblock : Sample.storing.isBlock ⟨3⟩ = false := by decide +kernel
  have hp : Sample.storing.isBlock ⟨4⟩ = false := by decide +kernel
  have hcontainer : Sample.storing.isContainer ⟨4⟩ = false := by decide +kernel
  have hlisted : ∀ k ∈ Sample.storing.slots, Sample.storing.use? k = some (.load, ⟨0⟩) →
      k ∈ Sample.storing.uses ⟨0⟩ .load := by decide +kernel
  obtain ⟨s, t, hout, _, _, _, _, hback, _, _, _, hperm⟩ :=
    replace_undoes_extract hreach hid hblock hp hcontainer
  have hpermuted := (hperm ⟨0⟩ .load).mpr fun _ k _ hu => by
    obtain ⟨n, hn, _⟩ := use?_eq_some hu
    exact hlisted k (mem_slots_of_node? hn) hu
  cases hout.symm.trans (extract_ok hreach.forest hid hp hcontainer)
  cases hback.symm.trans (replace_detach hreach.forest hid hblock hcontainer)
  exact ⟨hreach, hid, by decide +kernel, by decide +kernel, _, _, hout, hback, by decide +kernel,
    hpermuted⟩

namespace Sample

/-- `ret(ldloc v0)` is built before `v0` is declared. -/
def declaredLate : Routine := Primitive.after (returning ⟨0⟩) (.declare .localSlot 0 "x" .void)

end Sample

/-- A load that came into the tree before its variable was declared is in no use-list; taken out and
    put back, it is in one. -/
theorem load_listed_late : ∃ r s t : Routine, Reachable r ∧ r.parent? ⟨2⟩ = some ⟨3⟩ ∧
    r.op? ⟨2⟩ = some (.ldloc ⟨0⟩) ∧ r.op? ⟨3⟩ = some .ret ∧
    extract ⟨2⟩ r = .ok ⟨2⟩ s ∧ replace r.nextId ⟨2⟩ s = .ok () t ∧
    r.uses ⟨0⟩ .load = [] ∧ t.uses ⟨0⟩ .load = [⟨2⟩] ∧
    ¬ (t.uses ⟨0⟩ .load).Perm (r.uses ⟨0⟩ .load) := by
  have hreach : Reachable Sample.declaredLate :=
    ((Reachable.empty _ _).after _).after [.declare .localSlot 0 "x" .void]
  have hid : Sample.declaredLate.parent? ⟨2⟩ = some ⟨3⟩ := by decide +kernel
  have hblock : Sample.declaredLate.isBlock ⟨2⟩ = false := by decide +kernel
  have hp : Sample.declaredLate.isBlock ⟨3⟩ = false := by decide +kernel
  have hcontainer : Sample.declaredLate.isContainer ⟨3⟩ = false := by decide +kernel
  exact ⟨_, _, _, hreach, hid, by decide +kernel, by decide +kernel,
    extract_ok hreach.forest hid hp hcontainer,
    replace_detach hreach.forest hid hblock hcontainer, by decide +kernel, by decide +kernel,
    by decide +kernel⟩

end Edit

end CilFold
