/-
  The use-lists. `UsesListed r` says that each use-list of a declared variable holds the
  connected nodes that use the variable that way, each once. A mark and the listing of its
  node change together, so marking keeps this on any arena; and the other changes of an edit
  touch neither marks nor operations of connected nodes.
-/
import CilFold.Proofs.Ownership

namespace CilFold

theorem Variable.uses_mapUses (f : List NodeId → List NodeId) (kind kind' : UseKind)
    (v : Variable) :
    (Variable.mapUses f kind v).uses kind' =
      if kind' = kind then f (v.uses kind') else v.uses kind' := by
  cases kind <;> cases kind' <;> rfl

namespace Routine

variable {r s : Routine} {block container id inst new k p root : NodeId} {n : Node}

/-- How a connected node uses which variable. -/
def use? (r : Routine) (id : NodeId) : Option (UseKind × VarId) :=
  (r.node? id).bind fun n => if n.connected then n.op.use? else none

/-- Each use-list of a declared variable holds the connected nodes that use the variable that
    way, each once. -/
def UsesListed (r : Routine) : Prop :=
  ∀ v x, r.var? v = some x → ∀ kind,
    (x.uses kind).Nodup ∧ ∀ id, id ∈ x.uses kind ↔ r.use? id = some (kind, v)

theorem use?_of_node? (h : r.node? id = some n) :
    r.use? id = if n.connected then n.op.use? else none := by
  rw [use?, h, Option.bind_some]

theorem use?_eq_some {u : UseKind × VarId} (h : r.use? id = some u) :
    ∃ n, r.node? id = some n ∧ n.connected = true ∧ n.op.use? = some u := by
  obtain ⟨n, hn, hu⟩ := Option.bind_eq_some_iff.mp h
  split_ifs at hu with hc
  exact ⟨n, hn, hc, hu⟩

theorem use?_of_loose (h : r.isConnected id = false) : r.use? id = none := by
  unfold use?
  cases hn : r.node? id with
  | none => rfl
  | some n =>
    rw [isConnected_of_node? hn] at h
    rw [Option.bind_some, h]
    rfl

theorem use?_eq (r : Routine) (id : NodeId) :
    r.use? id = if r.isConnected id = true then (r.op? id).bind Op.use? else none := by
  unfold use? isConnected op?
  cases r.node? id <;> rfl

theorem use?_eq_of_op? {op : Op} (hop : r.op? id = some op) (hc : r.isConnected id = true) :
    r.use? id = op.use? := by
  rw [use?_eq, if_pos hc, hop]
  rfl

/-- A node that is not taken out of the tree keeps its use. -/
theorem Views.use? {gone : Prop} [Decidable gone] {children : List NodeId} {parent : Option NodeId}
    (h : Views s id (if gone then none else r.op? id) children parent
      (if gone then false else r.isConnected id)) :
    s.use? id = if gone then none else r.use? id := by
  rw [use?_eq, h.connected, h.op]
  by_cases hgone : gone
  · simp only [if_pos hgone, if_neg Bool.false_ne_true]
  · simp only [if_neg hgone, use?_eq]

namespace UsesListed

variable (U : r.UsesListed)
include U

/-- Use-lists that stay fit a change under which all uses stay. -/
theorem congr (hvars : ∀ v, s.var? v = r.var? v) (huse : ∀ id, s.use? id = r.use? id) :
    s.UsesListed := by
  intro v x hx kind
  rw [hvars] at hx
  obtain ⟨hnd, hmem⟩ := U v x hx kind
  refine ⟨hnd, fun id => ?_⟩
  rw [hmem, huse]

theorem modifyNode {f : Node → Node}
    (hf : ∀ n, r.node? id = some n →
      (if (f n).connected then (f n).op.use? else none) = if n.connected then n.op.use? else none) :
    (r.modifyNode id f).UsesListed := by
  refine U.congr (fun _ => rfl) fun k => ?_
  unfold use?
  rw [node?_modifyNode]
  split_ifs with hk
  · subst hk
    cases hn : r.node? k with
    | none => rfl
    | some n => exact hf n hn
  · rfl

theorem grow (op : Op) (cs : List NodeId) : (r.grow op cs).UsesListed := by
  refine U.congr (fun v => by rw [var?, vars_grow, var?]) fun k => ?_
  unfold use?
  rw [node?_grow]
  split_ifs with hk hc
  · rw [hk, node?_nextId]
    rfl
  · cases r.node? k <;> rfl
  · rfl

/-- Listing a node that starts to use a variable, or dropping one that ceases to. -/
theorem relist {w : VarId} {kind : UseKind} {connected : Bool}
    (hvar : ∀ v, s.var? v = if v = w then (r.var? v).map
      (if connected then Variable.addUse kind id else Variable.dropUse kind id) else r.var? v)
    (huse : ∀ k, s.use? k =
      if k = id then (if connected then some (kind, w) else none) else r.use? k)
    (hself : r.use? id = if connected then none else some (kind, w)) : s.UsesListed := by
  intro v x hx kind'
  -- only the list of this kind of this variable speaks of the node, before and after
  have hother : ∀ y, r.var? v = some y → (kind', v) ≠ (kind, w) →
      (y.uses kind').Nodup ∧ ∀ k, k ∈ y.uses kind' ↔ s.use? k = some (kind', v) := by
    intro y hy hne
    obtain ⟨hnd, hmem⟩ := U v y hy kind'
    refine ⟨hnd, fun k => ?_⟩
    rw [hmem, huse]
    split_ifs with hk hc
    · subst hk
      rw [hself, if_pos hc]
      exact ⟨fun h => (nomatch h), fun h => absurd (Option.some.inj h).symm hne⟩
    · subst hk
      rw [hself, if_neg hc]
      exact ⟨fun h => absurd (Option.some.inj h).symm hne, fun h => (nomatch h)⟩
    · rfl
  rw [hvar] at hx
  by_cases hv : v = w
  · rw [if_pos hv] at hx
    obtain ⟨y, hy, rfl⟩ := Option.map_eq_some_iff.mp hx
    by_cases hk : kind' = kind
    · subst hv hk
      obtain ⟨hnd, hmem⟩ := U v y hy kind'
      cases connected with
      | true =>
        have hid : id ∉ y.uses kind' := by
          rw [hmem, hself]
          exact fun h => (nomatch h)
        have hnot : ((y.uses kind').contains id) = false := by
          rw [← Bool.not_eq_true, List.contains_iff_mem]
          exact hid
        rw [if_pos rfl, Variable.addUse, Variable.uses_mapUses, if_pos rfl, hnot]
        refine ⟨List.nodup_append.mpr ⟨hnd, List.nodup_singleton _, ?_⟩, fun k => ?_⟩
        · intro a ha b hb hab
          rw [List.mem_singleton.mp hb] at hab
          exact hid (hab ▸ ha)
        · simp only [Bool.false_eq_true, if_false, List.mem_append, List.mem_singleton, hmem, huse]
          by_cases hk : k = id <;> simp [hk]
      | false =>
        rw [if_neg Bool.false_ne_true, Variable.dropUse, Variable.uses_mapUses, if_pos rfl]
        refine ⟨hnd.erase id, fun k => ?_⟩
        rw [hnd.mem_erase_iff, hmem, huse]
        by_cases hk : k = id <;> simp [hk]
    · have hne : (kind', v) ≠ (kind, w) := fun h => hk (congrArg Prod.fst h)
      have huses : (Variable.uses ((if connected then Variable.addUse kind id
          else Variable.dropUse kind id) y) kind') = y.uses kind' := by
        split_ifs
        · rw [Variable.addUse, Variable.uses_mapUses, if_neg hk]
        · rw [Variable.dropUse, Variable.uses_mapUses, if_neg hk]
      rw [huses]
      exact hother y hy hne
  · rw [if_neg hv] at hx
    exact hother x hx fun h => hv (congrArg Prod.snd h)

/-- Marking a node lists or drops its use with the mark. -/
theorem mark (connected : Bool) (id : NodeId) : (mark connected r id).UsesListed := by
  unfold Routine.mark
  split
  · exact U
  · next n hn =>
    split
    · exact U
    · next hc =>
      have hflip : n.connected = !connected := by
        cases hb : n.connected <;> cases connected <;> simp_all
      unfold register
      split
      · next hu =>
        refine U.modifyNode fun m hm => ?_
        rw [hn] at hm
        cases hm
        simp only [hu, ite_self]
      · next kind w hu =>
        have huse : ∀ k, ((r.modifyNode id fun n => { n with connected }).modifyVariable w
            (if connected then Variable.addUse kind id else Variable.dropUse kind id)).use? k =
              if k = id then (if connected then some (kind, w) else none) else r.use? k := by
          intro k
          unfold use?
          rw [node?_modifyVariable, node?_modifyNode]
          split_ifs with hk hb
          · rw [hk, hn]
            simp [hb, hu]
          · rw [hk, hn]
            simp [hb]
          · rfl
        have hself : r.use? id = if connected then none else some (kind, w) := by
          rw [use?_of_node? hn, hflip, hu]
          cases connected <;> rfl
        exact U.relist (var?_modifyVariable _ w · _) huse hself

theorem foldl_mark (connected : Bool) (ids : List NodeId) :
    (ids.foldl (Routine.mark connected) r).UsesListed := by
  induction ids generalizing r with
  | nil => exact U
  | cons id ids ih => exact ih (U.mark connected id)

theorem disconnect (root : NodeId) : (r.disconnect root).UsesListed := U.foldl_mark false _

theorem connectBelow (p root : NodeId) : (r.connectBelow p root).UsesListed := by
  unfold Routine.connectBelow
  split_ifs
  · exact U.foldl_mark true _
  · exact U

theorem destroy (hloose : ∀ k ∈ r.preorder root, r.isConnected k = false) :
    (r.destroy root).UsesListed := by
  refine U.congr (fun _ => rfl) fun k => ?_
  by_cases hk : k ∈ r.preorder root
  · rw [use?_of_loose (hloose k hk), use?, node?_destroy, if_pos hk, Option.bind_none]
  · rw [use?, node?_destroy, if_neg hk, use?]

theorem setParent (id : NodeId) (parent : Option NodeId) : (r.setParent id parent).UsesListed :=
  U.modifyNode fun _ _ => rfl

theorem mapChildren (id : NodeId) (f : List NodeId → List NodeId) :
    (r.mapChildren id f).UsesListed :=
  U.modifyNode fun _ _ => rfl

theorem retype (v : VarId) (type : TypeDecl) :
    (r.modifyVariable v fun x => { x with type }).UsesListed := by
  intro w x hx kind
  rw [var?_modifyVariable] at hx
  split_ifs at hx
  · obtain ⟨y, hy, rfl⟩ := Option.map_eq_some_iff.mp hx
    cases kind with
    | load => exact U w y hy .load
    | store => exact U w y hy .store
    | address => exact U w y hy .address
  · exact U w x hx kind

/-! ## Effects -/

theorem appendBlock (container : NodeId) (kind : BlockKind) :
    (r.appendBlock container kind).UsesListed := by
  refine ((U.grow (.block kind) []).modifyNode fun m hm => ?_).mapChildren _ _
  rw [node?_grow_nextId] at hm
  cases hm
  exact ite_self none

theorem insertAt (block : NodeId) (index : Nat) (inst : NodeId) :
    (r.insertAt block index inst).UsesListed :=
  ((U.mapChildren _ _).setParent _ _).connectBelow _ _

theorem deleteAt (F : r.Forest) (hinst : r.parent? inst = some block) (index : Nat) :
    (r.deleteAt block index inst).UsesListed := by
  obtain ⟨n, hn, _⟩ := exists_node?_of_parent? hinst
  have halive : (r.mapChildren block (·.eraseIdx index)).isAlive inst = true := by
    rw [Routine.mapChildren, isAlive, node?_modifyNode_map, Option.isSome_map]
    exact isAlive_of_node? hn
  refine ((U.mapChildren block (·.eraseIdx index)).disconnect inst).destroy fun k hk => ?_
  exact loose_of_mem_preorder_disconnect F (size_modifyNode r _ _) halive (isAlive_of_node? hn)
    (children_eraseIdx_of_above F hinst index) hk

theorem putInSlot (F : r.Forest) (hid : r.parent? id = some p) (new : NodeId) :
    (r.putInSlot p id new).UsesListed := by
  obtain ⟨n, hn, _⟩ := exists_node?_of_parent? hid
  have hcut : ((r.disconnect id).destroy id).UsesListed :=
    (U.disconnect id).destroy fun k hk =>
      loose_of_mem_preorder_disconnect F rfl (isAlive_of_node? hn) (isAlive_of_node? hn)
        (fun _ _ => rfl) hk
  exact ((hcut.mapChildren p _).setParent new _).connectBelow p new

theorem detach (p id : NodeId) : (r.detach p id).UsesListed := by
  have hgrown := ((U.disconnect id).setParent id none).grow .nop []
  refine (hgrown.mapChildren p (·.replace id r.nextId)).modifyNode fun m hm => ?_
  have hnext : ((r.disconnect id).setParent id none).nextId = r.nextId := by
    simp [nextId, Routine.setParent]
  have hnop : m.op = .nop := by
    rw [Routine.mapChildren, node?_modifyNode_map, ← hnext, node?_grow_nextId] at hm
    obtain ⟨n, hn, rfl⟩ := Option.map_eq_some_iff.mp hm
    cases hn
    split_ifs <;> rfl
  simp only [hnop, Op.use?, ite_self]

end UsesListed

end Routine

end CilFold
