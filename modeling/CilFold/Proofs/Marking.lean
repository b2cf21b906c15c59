/-
  The loops behind the changes of the arena. A subtree is connected, disconnected or destroyed by
  a loop over a stack of nodes (`sweep`): the topmost node is visited, and its children take its
  place, the last child uppermost. A node that is gone or bears the mark already is passed over,
  with all that lies below it.

  `connect`, `disconnect` and `destroy` visit the nodes of a listing instead, and pass over none.
  The two agree where the nodes of the subtree are distinct and bear one mark (`sweep_eq`), so they
  do on a forest (`Forest.connect_eq_loop`, `Forest.disconnect_eq_loop`, `Forest.destroy_eq_loop`).
  An edit calls the loops while some links are cut and others are not yet made, but there the
  subtree is still what it was in the forest before the edit. So each edit is what it is with the
  loops (`insertAt_eq_loops`, `deleteAt_eq_loops`, `putInSlot_eq_loops`, `detach_eq_loops`).
-/
import CilFold.Proofs.UseOrder
import CilFold.Proofs.Walks

namespace CilFold

namespace Routine

/-- The loop over a stack of nodes. There is no answer when the rounds run out. -/
def sweep (skip : Node → Bool) (visit : Routine → NodeId → Routine) :
    Nat → List NodeId → Routine → Option Routine
  | _, [], r => some r
  | 0, _ :: _, _ => none
  | rounds + 1, id :: stack, r =>
    match r.node? id with
    | none => sweep skip visit rounds stack r
    | some n =>
      if skip n then sweep skip visit rounds stack r
      else sweep skip visit rounds (n.children.reverse ++ stack) (visit r id)

/-- The loop that marks a subtree as connected or not. -/
def markLoop (connected : Bool) (root : NodeId) (r : Routine) : Option Routine :=
  sweep (·.connected == connected) (mark connected) r.nodes.size [root] r

/-- Empties the slot of a node. -/
def clear (r : Routine) (id : NodeId) : Routine :=
  { r with nodes := r.nodes.setIfInBounds id.index none }

/-- The loop that empties the slots of a subtree. -/
def clearLoop (root : NodeId) (r : Routine) : Option Routine :=
  sweep (fun _ => false) clear r.nodes.size [root] r

variable {r s : Routine} {skip : Node → Bool} {visit : Routine → NodeId → Routine}
  {connected : Bool} {rounds index : Nat} {id inst block new p k : NodeId} {n : Node} {op : Op}
  {t : Tree NodeId} {ts us : List (Tree NodeId)}

/-! ## Trees on the stack -/

/-- The operands of a tree take its place on a stack of trees. -/
theorem perm_labels_operands (id : NodeId) (op : Op) (us ts : List (Tree NodeId)) :
    (id :: (us.reverse ++ ts).flatMap Tree.labels).Perm
      ((Tree.node id op us :: ts).flatMap Tree.labels) := by
  rw [List.flatMap_cons, Tree.labels_node, List.flatMap_append, List.cons_append]
  exact ((((List.reverse_perm us).flatMap_right Tree.labels)).append_right _).cons id

theorem length_labels_operands (id : NodeId) (op : Op) (us ts : List (Tree NodeId)) :
    ((us.reverse ++ ts).flatMap Tree.labels).length + 1 =
      ((Tree.node id op us :: ts).flatMap Tree.labels).length :=
  (perm_labels_operands id op us ts).length_eq

/-- What stands on the stack of a loop: trees that have no node in common, each of which is to be
    visited or passed over as a whole. -/
structure Stacked (skip : Node → Bool) (r : Routine) (ts : List (Tree NodeId)) : Prop where
  holds : ∀ t ∈ ts, r.Holds t
  nodup : (ts.flatMap Tree.labels).Nodup
  alike : ∀ t ∈ ts, ∀ k ∈ t.labels, (r.node? k).any skip = (r.node? t.label).any skip

namespace Stacked

variable (h : Stacked skip r (.node id op us :: ts))
include h

theorem exists_node : ∃ n, r.node? id = some n ∧ n.children = us.map Tree.label := by
  have hroot := h.holds _ List.mem_cons_self
  obtain ⟨n, hn⟩ := isAlive_iff.mp hroot.alive
  exact ⟨n, hn, (children_of_node? hn).symm.trans hroot.children⟩

theorem rest : Stacked skip r ts := by
  have hnodup := h.nodup
  rw [List.flatMap_cons] at hnodup
  exact ⟨fun t ht => h.holds t (List.mem_cons_of_mem _ ht), hnodup.of_append_right,
    fun t ht => h.alike t (List.mem_cons_of_mem _ ht)⟩

/-- A tree whose topmost node is passed over may as well be visited: no visit does anything. -/
theorem foldl_eq (hidle : ∀ r id n, r.node? id = some n → skip n = true → visit r id = r)
    (hn : r.node? id = some n) (hskip : skip n = true) :
    (Tree.node id op us).backward.foldl visit r = r := by
  have hall : ∀ k ∈ (Tree.node id op us).backward, ∃ m, r.node? k = some m ∧ skip m = true := by
    intro k hk
    have hk := (Tree.backward_perm _).mem_iff.mp hk
    have hlike := h.alike _ List.mem_cons_self k hk
    rw [Tree.label_node, hn, Option.any_some, hskip, Option.any_eq_true_iff_get] at hlike
    obtain ⟨hsome, hget⟩ := hlike
    exact ⟨_, (Option.some_get hsome).symm, hget⟩
  generalize (Tree.node id op us).backward = ids at hall
  induction ids with
  | nil => rfl
  | cons k ids ih =>
    obtain ⟨m, hm, hskip⟩ := hall k List.mem_cons_self
    rw [List.foldl_cons, hidle r k m hm hskip]
    exact ih fun k hk => hall k (List.mem_cons_of_mem _ hk)

/-- When its topmost node was visited, the operands stand in the place of a tree. -/
theorem operands (hsame : ∀ k, k ≠ id → s.node? k = r.node? k) :
    Stacked skip s (us.reverse ++ ts) := by
  obtain ⟨hid, hnodup⟩ :=
    List.nodup_cons.mp ((perm_labels_operands id op us ts).nodup_iff.mpr h.nodup)
  have hkept : ∀ t ∈ us.reverse ++ ts, ∀ k ∈ t.labels, s.node? k = r.node? k := by
    refine fun t ht k hk => hsame k ?_
    rintro rfl
    exact hid (List.mem_flatMap.mpr ⟨t, ht, hk⟩)
  refine ⟨fun t ht => ?_, hnodup, fun t ht k hk => ?_⟩
  · have hheld : r.Holds t := by
      rcases List.mem_append.mp ht with ht | ht
      · exact (h.holds _ List.mem_cons_self).operand (List.mem_reverse.mp ht)
      · exact h.holds t (List.mem_cons_of_mem _ ht)
    refine hheld.congr fun k hk => ?_
    unfold op? children
    rw [hkept t ht k hk]
    exact ⟨rfl, rfl⟩
  · rw [hkept t ht k hk, hkept t ht _ (Tree.label_mem_labels t)]
    rcases List.mem_append.mp ht with ht | ht
    · have hin : ∀ x ∈ t.labels, x ∈ (Tree.node id op us).labels := fun x hx =>
        Tree.mem_labels_node.mpr (.inr ⟨t, List.mem_reverse.mp ht, hx⟩)
      rw [h.alike _ List.mem_cons_self k (hin k hk),
        h.alike _ List.mem_cons_self _ (hin _ (Tree.label_mem_labels t))]
    · exact h.alike t (List.mem_cons_of_mem _ ht) k hk

end Stacked

/-- The loop visits the trees on its stack in the order `Tree.backward`. -/
theorem sweep_eq (hvisit : ∀ r id k, k ≠ id → (visit r id).node? k = r.node? k)
    (hidle : ∀ r id n, r.node? id = some n → skip n = true → visit r id = r)
    (h : Stacked skip r ts) (hrounds : (ts.flatMap Tree.labels).length ≤ rounds) :
    sweep skip visit rounds (ts.map Tree.label) r =
      some ((ts.flatMap Tree.backward).foldl visit r) := by
  induction rounds generalizing ts r with
  | zero =>
    cases ts with
    | nil => rfl
    | cons t ts =>
      obtain ⟨id, op, us⟩ := t
      have hlength := length_labels_operands id op us ts
      omega
  | succ rounds ih =>
    cases ts with
    | nil => rfl
    | cons t ts =>
      obtain ⟨id, op, us⟩ := t
      have hlength := length_labels_operands id op us ts
      obtain ⟨n, hn, hc⟩ := h.exists_node
      rw [List.map_cons, Tree.label_node, sweep, hn]
      by_cases hskip : skip n = true
      · have hle : (ts.flatMap Tree.labels).length ≤ rounds := by
          rw [List.flatMap_append, List.length_append] at hlength
          omega
        simp only [if_pos hskip]
        rw [ih h.rest hle, List.flatMap_cons, List.foldl_append, h.foldl_eq hidle hn hskip]
      · simp only [if_neg hskip]
        rw [hc, ← List.map_reverse, ← List.map_append, ih (h.operands (hvisit r id)) (by omega),
          List.flatMap_cons, Tree.backward_node, List.flatMap_append]
        rfl

/-! ## The two loops -/

theorem node?_mark_of_ne (connected : Bool) (r : Routine) (id k : NodeId) (hk : k ≠ id) :
    (mark connected r id).node? k = r.node? k := by
  rw [node?_mark, if_neg hk]

theorem mark_of_marked (r : Routine) (id : NodeId) (n : Node) (hn : r.node? id = some n)
    (hc : (n.connected == connected) = true) : mark connected r id = r := by
  unfold mark
  rw [hn]
  exact if_pos hc

theorem node?_clear_of_ne (r : Routine) (id k : NodeId) (hk : k ≠ id) :
    (r.clear id).node? k = r.node? k := by
  have hne : id.index ≠ k.index := fun h => hk (NodeId.ext h.symm)
  rw [node?, clear, Array.getElem?_setIfInBounds_ne hne, node?]

/-- Slots may be emptied in any order. -/
theorem clear_comm (r : Routine) (x y : NodeId) : (r.clear x).clear y = (r.clear y).clear x := by
  by_cases hxy : x.index = y.index
  · rw [NodeId.ext hxy]
  · unfold clear
    rw [Array.setIfInBounds_comm none none hxy]

/-- Destroying a subtree empties its slots one by one. -/
theorem destroy_eq_foldl (r : Routine) (root : NodeId) :
    r.destroy root = (r.preorder root).foldl clear r := by
  have hclear : ∀ (ids : List NodeId) (s : Routine), ids.foldl clear s = { s with
      nodes := ids.foldl (fun nodes id => nodes.setIfInBounds id.index none) s.nodes } := by
    intro ids
    induction ids with
    | nil => exact fun _ => rfl
    | cons id ids ih =>
      intro s
      rw [List.foldl_cons, ih]
      rfl
  rw [hclear, destroy]

/-! ## The subtree of a node -/

/-- Below a node two routines have the same nodes, up to their parents and marks. -/
structure SameBelow (r s : Routine) (root : NodeId) : Prop where
  size : s.nodes.size = r.nodes.size
  same : ∀ x, r.Above root x → s.op? x = r.op? x ∧ s.children x = r.children x

namespace SameBelow

theorem refl (r : Routine) (root : NodeId) : r.SameBelow r root := ⟨rfl, fun _ _ => ⟨rfl, rfl⟩⟩

/-- Marking nodes touches neither operations nor child lists. -/
theorem disconnect (h : r.SameBelow s id) (root : NodeId) : r.SameBelow (s.disconnect root) id := by
  refine ⟨by rw [size_disconnect, h.size], fun x hx => ?_⟩
  obtain ⟨hop, hc⟩ := h.same x hx
  have hkept : (s.disconnect root).op? x = s.op? x ∧
      (s.disconnect root).children x = s.children x := by
    unfold op? children
    rw [node?_disconnect]
    split_ifs
    · cases s.node? x <;> exact ⟨rfl, rfl⟩
    · exact ⟨rfl, rfl⟩
  exact ⟨hkept.1.trans hop, hkept.2.trans hc⟩

variable (h : r.SameBelow s id) (F : r.Forest) (hid : r.isAlive id = true)
include h F hid

theorem holds : s.Holds (r.tree id) := by
  have ht := F.holds_tree hid
  refine ht.congr fun k hk => h.same k ?_
  have hbelow := (F.mem_labels ht).mp hk
  rwa [label_tree] at hbelow

theorem length_labels : ([r.tree id].flatMap Tree.labels).length ≤ s.nodes.size := by
  have hlabels := F.labels_eq_preorder (F.holds_tree hid)
  rw [label_tree] at hlabels
  rw [List.flatMap_singleton, hlabels, h.size]
  exact F.length_preorder_le hid

/-- Marking the nodes of the listing is the loop. -/
theorem markLoop_eq (hmarks : ∀ x, r.Above id x → s.isConnected x = r.isConnected x)
    (connected : Bool) :
    s.markLoop connected id = some ((s.rightFirst id).foldl (mark connected) s) := by
  have hheld := h.holds F hid
  have hlist : s.rightFirst id = (r.tree id).backward := by
    have hback := F.rightFirst_of_holds (F.holds_tree hid)
    rw [label_tree] at hback
    rw [F.rightFirst_congr h.size fun x hx => (h.same x hx).2, hback]
  have hbears : ∀ k ∈ (r.tree id).labels,
      (s.node? k).any (·.connected == connected) = (r.isConnected id == connected) := by
    intro k hk
    obtain ⟨u, hu, rfl⟩ := List.mem_map.mp hk
    obtain ⟨n, hn⟩ := isAlive_iff.mp (hheld.subtree hu).alive
    have hbelow := (F.mem_labels (F.holds_tree hid)).mp hk
    rw [label_tree] at hbelow
    rw [hn, Option.any_some, ← isConnected_of_node? hn, hmarks _ hbelow,
      F.isConnected_of_above hbelow]
  have hstack : Stacked (·.connected == connected) s [r.tree id] := by
    refine ⟨List.forall_mem_singleton.mpr hheld, by simpa using F.nodup_labels (F.holds_tree hid),
      List.forall_mem_singleton.mpr fun k hk => ?_⟩
    rw [hbears k hk, hbears _ (Tree.label_mem_labels _)]
  have hsweep := sweep_eq (node?_mark_of_ne connected) mark_of_marked hstack
    (h.length_labels F hid)
  rw [List.map_singleton, List.flatMap_singleton, label_tree, ← hlist] at hsweep
  exact hsweep

/-- Emptying the slots of the listing is the loop. -/
theorem clearLoop_eq : s.clearLoop id = some (s.destroy id) := by
  have hheld := h.holds F hid
  have halive : s.isAlive id = true := by
    have hroot := hheld.alive
    rwa [label_tree] at hroot
  have hlist : s.preorder id = (r.tree id).labels := by
    have hlabels := F.labels_eq_preorder (F.holds_tree hid)
    rw [label_tree] at hlabels
    rw [F.preorder_congr h.size (halive.trans hid.symm) fun x hx => (h.same x hx).2, hlabels]
  have hstack : Stacked (fun _ => false) s [r.tree id] := by
    refine ⟨List.forall_mem_singleton.mpr hheld, by simpa using F.nodup_labels (F.holds_tree hid),
      List.forall_mem_singleton.mpr fun k _ => ?_⟩
    cases s.node? k <;> cases s.node? (r.tree id).label <;> rfl
  have hsweep := sweep_eq node?_clear_of_ne (fun _ _ _ _ h => absurd h Bool.false_ne_true) hstack
    (h.length_labels F hid)
  rw [List.map_singleton, List.flatMap_singleton, label_tree] at hsweep
  rw [destroy_eq_foldl, hlist, ← (Tree.backward_perm (r.tree id)).foldl_eq'
    fun x _ y _ u => clear_comm u x y]
  exact hsweep

end SameBelow

namespace Forest

variable (F : r.Forest) (hid : r.isAlive id = true)
include F hid

/-- Connecting a subtree is the loop. -/
theorem connect_eq_loop : r.markLoop true id = some (r.connect id) :=
  (SameBelow.refl r id).markLoop_eq F hid (fun _ _ => rfl) true

/-- Disconnecting a subtree is the loop. -/
theorem disconnect_eq_loop : r.markLoop false id = some (r.disconnect id) :=
  (SameBelow.refl r id).markLoop_eq F hid (fun _ _ => rfl) false

/-- Destroying a subtree is the loop. -/
theorem destroy_eq_loop : r.clearLoop id = some (r.destroy id) :=
  (SameBelow.refl r id).clearLoop_eq F hid

end Forest

/-! ## The edits -/

/-- A change of the links at a block leaves the other nodes as they are. -/
theorem relinked (r : Routine) (f : List NodeId → List NodeId) (inst : NodeId)
    (parent : Option NodeId) (hk : k ≠ block) :
    let s := (r.mapChildren block f).setParent inst parent
    s.op? k = r.op? k ∧ s.children k = r.children k := by
  simp only [op?, children, setParent, mapChildren, node?_modifyNode_map]
  cases r.node? k with
  | none => exact ⟨rfl, rfl⟩
  | some n =>
    simp only [Option.map_some, if_neg hk]
    split_ifs <;> exact ⟨rfl, rfl⟩

section Forest

variable (F : r.Forest)
include F

/-- Putting an instruction into a block, with the loop. -/
theorem insertAt_eq_loops (hinst : r.isAlive inst = true) (hblock : ¬ r.Above inst block)
    (index : Nat) :
    (let s := (r.mapChildren block (·.insertIdx index inst)).setParent inst (some block)
     if s.isConnected block then s.markLoop true inst else some s) =
      some (r.insertAt block index inst) := by
  have hsame : r.SameBelow ((r.mapChildren block (·.insertIdx index inst)).setParent inst
      (some block)) inst := by
    refine ⟨by simp [setParent, mapChildren], fun x hx => relinked r _ inst _ ?_⟩
    rintro rfl
    exact hblock hx
  rw [insertAt, connectBelow]
  dsimp only
  split_ifs
  · exact hsame.markLoop_eq F hinst (fun x _ => isConnected_relink r block inst x _ _) true
  · rfl

/-- Deleting an instruction of a block, with the loops. -/
theorem deleteAt_eq_loops (hinst : r.parent? inst = some block) (index : Nat) :
    ((r.mapChildren block (·.eraseIdx index)).markLoop false inst).bind (clearLoop inst) =
      some (r.deleteAt block index inst) := by
  have hlive := isAlive_of_parent? hinst
  have hkept : ∀ x, r.Above inst x →
      (r.mapChildren block (·.eraseIdx index)).node? x = r.node? x := by
    intro x hx
    have hne : x ≠ block := by
      rintro rfl
      exact F.not_above_parent hinst hx
    rw [mapChildren, node?_modifyNode, if_neg hne]
  have hsame : r.SameBelow (r.mapChildren block (·.eraseIdx index)) inst := by
    refine ⟨by simp [mapChildren], fun x hx => ?_⟩
    unfold op? children
    rw [hkept x hx]
    exact ⟨rfl, rfl⟩
  rw [hsame.markLoop_eq F hlive (fun x hx => by rw [isConnected, hkept x hx, isConnected]) false,
    Option.bind_some]
  exact (hsame.disconnect inst).clearLoop_eq F hlive

/-- Destroying a node and putting a detached one into its slot, with the loops. -/
theorem putInSlot_eq_loops (hid : r.parent? id = some p) (hnew : r.isAlive new = true)
    (htop : r.parent? new = none) (hbelow : ¬ r.Above new id) :
    ((r.markLoop false id).bind (clearLoop id)).bind (fun u =>
      let s := (u.mapChildren p (·.replace id new)).setParent new (some p)
      if s.isConnected p then s.markLoop true new else some s) = some (r.putInSlot p id new) := by
  have hlive := isAlive_of_parent? hid
  have hcut : ∀ k, ((r.disconnect id).destroy id).node? k =
      if r.encloses id k then none else r.node? k :=
    node?_disconnect_destroy F rfl hlive hlive fun _ _ => rfl
  have hkept : ∀ x, r.Above new x → ((r.disconnect id).destroy id).node? x = r.node? x := by
    intro x hx
    rw [hcut, if_neg]
    rw [F.encloses_iff]
    intro hin
    rcases hin.total hx with hin | hin
    · -- the detached node would be below the other one
      have heq := hin.eq_of_top htop
      rw [heq, htop] at hid
      cases hid
    · exact hbelow hin
  have hsame : r.SameBelow ((((r.disconnect id).destroy id).mapChildren p
      (·.replace id new)).setParent new (some p)) new := by
    refine ⟨by simp [setParent, mapChildren], fun x hx => ?_⟩
    have hne : x ≠ p := by
      rintro rfl
      exact hbelow (hx.under hid)
    have hlinks := relinked ((r.disconnect id).destroy id) (·.replace id new) new (some p) hne
    unfold op? children at hlinks ⊢
    rwa [hkept x hx] at hlinks
  have hmarks : ∀ x, r.Above new x → ((((r.disconnect id).destroy id).mapChildren p
      (·.replace id new)).setParent new (some p)).isConnected x = r.isConnected x := by
    intro x hx
    rw [isConnected_relink, isConnected, hkept x hx, isConnected]
  rw [F.disconnect_eq_loop hlive, Option.bind_some,
    ((SameBelow.refl r id).disconnect id).clearLoop_eq F hlive, Option.bind_some, putInSlot,
    connectBelow]
  dsimp only
  split_ifs
  · exact hsame.markLoop_eq F hnew hmarks true
  · rfl

/-- Detaching a node and leaving a fresh `nop` in its slot, with the loop. -/
theorem detach_eq_loops (hid : r.parent? id = some p) :
    (r.markLoop false id).map (fun s =>
      (((s.setParent id none).grow .nop []).mapChildren p (·.replace id r.nextId)).modifyNode
        r.nextId fun n => { n with parent := some p, connected := r.isConnected p }) =
      some (r.detach p id) := by
  rw [F.disconnect_eq_loop (isAlive_of_parent? hid)]
  rfl

end Forest

end Routine

end CilFold
