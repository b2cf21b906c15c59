/-
  The walks down and the walks up agree. A walk down keeps the nodes that it still has to visit
  on a stack (`walkDown`); a walk up goes from parent to parent (`walkUp`). Neither of them
  looks out for a cycle. On a forest each ends within as many rounds as the arena has slots,
  with the answer of `preorder` (`Forest.walkDown_eq`) and of `encloses` (`Forest.walkUp_eq`).

  The listings below the nodes without a parent (`tops`) take the live nodes apart
  (`Forest.partition`): the ways up from a node end in one of them, and in no other.
-/
import Mathlib.Algebra.GroupWithZero.Nat
import CilFold.Proofs.Reachable

namespace CilFold

namespace Routine

/-- The walk down as it runs: the topmost node of the stack is visited, and its children take
    its place, the first child uppermost. There is no answer when the rounds run out. -/
def walkDown (r : Routine) : Nat → List NodeId → Option (List NodeId)
  | _, [] => some []
  | 0, _ :: _ => none
  | rounds + 1, id :: stack => (r.walkDown rounds (r.children id ++ stack)).map (id :: ·)

/-- The walk up as it runs: it stops at the ancestor that it looks for, or at a node without a
    parent. There is no answer when the rounds run out. -/
def walkUp (r : Routine) (ancestor : NodeId) : Nat → NodeId → Option Bool
  | 0, _ => none
  | rounds + 1, id =>
    if id = ancestor then some true
    else match r.parent? id with
      | none => some false
      | some parent => r.walkUp ancestor rounds parent

/-- The live nodes without a parent: the body and the tops of the detached trees. -/
def tops (r : Routine) : List NodeId :=
  r.slots.filter fun id => r.isAlive id && (r.parent? id).isNone

variable {r : Routine} {a id root x : NodeId}

theorem mem_tops : root ∈ r.tops ↔ r.isAlive root = true ∧ r.parent? root = none := by
  rw [tops, List.mem_filter, Bool.and_eq_true, Option.isNone_iff_eq_none]
  exact and_iff_right_of_imp fun h => mem_slots_of_isAlive h.1

theorem liveCount_eq (r : Routine) : r.liveCount = (r.slots.filter r.isAlive).length := by
  have hslots :
      (List.range r.nodes.size).map (fun i => r.nodes[i]?.getD none) = r.nodes.toList := by
    refine List.ext_getElem (by simp) fun i hi _ => ?_
    have hi : i < r.nodes.size := by simpa using hi
    simp [hi]
  rw [liveCount, ← Array.countP_toList, ← hslots, ← List.countP_eq_length_filter, slots,
    List.countP_map, List.countP_map]
  rfl

namespace Forest

variable (F : r.Forest)
include F

theorem size_pos : 0 < r.nodes.size := by
  obtain ⟨n, hn, _⟩ := F.root
  have hlt := index_lt_of_node? hn
  omega

/-- The nodes below a node are those that its child lists lead to. -/
theorem above_iff_children :
    r.Above a id ↔ Relation.ReflTransGen (fun p c => c ∈ r.children p) a id := by
  have hlinks : (fun p c => c ∈ r.children p) = fun p c => r.parent? c = some p := by
    funext p c
    exact propext F.mem_children_iff
  rw [hlinks]
  exact Relation.reflTransGen_swap.symm

theorem length_preorder_pos (hroot : r.isAlive root = true) : 0 < (r.preorder root).length := by
  rw [F.preorder_eq hroot]
  exact Nat.succ_pos _

/-- A live node has no more nodes below it than the arena has slots. -/
theorem length_preorder_le (hroot : r.isAlive root = true) :
    (r.preorder root).length ≤ r.nodes.size := by
  have hsub : r.preorder root ⊆ r.slots := by
    intro id hid
    exact mem_slots_of_isAlive (((F.mem_preorder hroot).mp hid).alive hroot)
  have hle := (F.nodup_preorder hroot).length_le_of_subset hsub
  simp only [slots, List.length_map, List.length_range] at hle
  exact hle

/-- The walk down lists what lies below the nodes on its stack, the topmost of them first. -/
theorem walkDown_eq {rounds : Nat} {stack : List NodeId}
    (halive : ∀ id ∈ stack, r.isAlive id = true)
    (hrounds : (stack.flatMap r.preorder).length ≤ rounds) :
    r.walkDown rounds stack = some (stack.flatMap r.preorder) := by
  induction rounds generalizing stack with
  | zero =>
    cases stack with
    | nil => rfl
    | cons id stack =>
      have hpos := F.length_preorder_pos (halive id List.mem_cons_self)
      rw [List.flatMap_cons, List.length_append] at hrounds
      omega
  | succ rounds ih =>
    cases stack with
    | nil => rfl
    | cons id stack =>
      have hlist : (id :: stack).flatMap r.preorder =
          id :: (r.children id ++ stack).flatMap r.preorder := by
        rw [List.flatMap_cons, F.preorder_eq (halive id List.mem_cons_self), List.flatMap_append]
        rfl
      have hnext : ∀ c ∈ r.children id ++ stack, r.isAlive c = true := by
        intro c hc
        rcases List.mem_append.mp hc with hc | hc
        · exact F.alive_of_mem_children hc
        · exact halive c (List.mem_cons_of_mem _ hc)
      rw [hlist, List.length_cons] at hrounds
      rw [walkDown, ih hnext (by omega), hlist]
      rfl

/-- The walk up stops at the ancestor exactly if it lies above the node. -/
theorem walkUp_eq {rounds : Nat} (hrounds : (r.lineage id).length ≤ rounds) :
    r.walkUp a rounds id = some (r.encloses a id) := by
  induction rounds generalizing id with
  | zero =>
    have hpos := length_lineage_pos r id
    omega
  | succ rounds ih =>
    rw [walkUp]
    by_cases hid : id = a
    · rw [if_pos hid, hid, encloses_self]
    · rw [if_neg hid]
      cases hp : r.parent? id with
      | none =>
        have hout : r.encloses a id = false := by
          rw [F.encloses_false_iff]
          exact fun h => hid (h.eq_of_top hp).symm
        rw [hout]
      | some parent =>
        rw [F.lineage_cons hp, List.length_cons] at hrounds
        rw [F.encloses_parent hp hid]
        exact ih (by omega)

/-- The way up from a handle, with a node or without, has at most as many nodes as the arena
    has slots. -/
theorem length_lineage_le_size (id : NodeId) : (r.lineage id).length ≤ r.nodes.size := by
  cases hid : r.isAlive id with
  | true => exact F.length_lineage_le hid
  | false =>
    rw [lineage_of_top (parent?_of_dead (isAlive_eq_false_iff.mp hid))]
    exact F.size_pos

/-- The listings below the nodes without a parent have no node in common, and together they
    have all live nodes. -/
theorem partition :
    (r.tops.flatMap r.preorder).Nodup ∧
      ∀ id, id ∈ r.tops.flatMap r.preorder ↔ r.isAlive id = true := by
  refine ⟨List.nodup_flatMap.mpr ⟨fun root hroot => ?_, ?_⟩, fun id => ?_⟩
  · exact F.nodup_preorder (mem_tops.mp hroot).1
  · have hnodup : r.tops.Nodup := r.nodup_slots.filter _
    refine hnodup.imp_of_mem fun {root other} hroot hother hne => ?_
    intro id hid hid'
    obtain ⟨halive, htop⟩ := mem_tops.mp hroot
    obtain ⟨halive', htop'⟩ := mem_tops.mp hother
    -- the topmost node above a node is one
    have heq := (F.topOf_eq_iff htop).mpr ((F.mem_preorder halive).mp hid)
    have heq' := (F.topOf_eq_iff htop').mpr ((F.mem_preorder halive').mp hid')
    exact hne (heq.symm.trans heq')
  · rw [List.mem_flatMap]
    constructor
    · intro ⟨root, hroot, hid⟩
      have halive := (mem_tops.mp hroot).1
      exact ((F.mem_preorder halive).mp hid).alive halive
    · intro hid
      obtain ⟨habove, htop⟩ := F.topOf_spec id
      have halive := F.alive_of_above habove hid
      exact ⟨r.topOf id, mem_tops.mpr ⟨halive, htop⟩, (F.mem_preorder halive).mpr habove⟩

/-- The lengths of these listings add up to the number of live nodes. -/
theorem sum_length_preorder :
    (r.tops.map fun root => (r.preorder root).length).sum = r.liveCount := by
  obtain ⟨hnodup, hmem⟩ := F.partition
  have hlive : (r.slots.filter r.isAlive).Nodup := r.nodup_slots.filter _
  have hperm : (r.tops.flatMap r.preorder).Perm (r.slots.filter r.isAlive) := by
    refine (List.perm_ext_iff_of_nodup hnodup hlive).mpr fun id => ?_
    rw [hmem, List.mem_filter]
    exact (and_iff_right_of_imp mem_slots_of_isAlive).symm
  rw [liveCount_eq, ← hperm.length_eq, List.length_flatMap]

end Forest

/-- What the walks down and up in a routine have to do with each other, and with the links. -/
structure WalksAgree (r : Routine) : Prop where
  /-- A live node is listed before its children, each with what lies below it, the first
      child first. -/
  ordered : ∀ root, r.isAlive root = true →
    r.preorder root = root :: (r.children root).flatMap r.preorder
  once : ∀ root, r.isAlive root = true → (r.preorder root).Nodup
  below : ∀ root id, r.isAlive root = true →
    (id ∈ r.preorder root ↔ Relation.ReflTransGen (fun p c => c ∈ r.children p) root id)
  down : ∀ root rounds, r.isAlive root = true → r.nodes.size ≤ rounds →
    r.walkDown rounds [root] = some (r.preorder root)
  up : ∀ ancestor id rounds, r.nodes.size ≤ rounds →
    r.walkUp ancestor rounds id = some (r.encloses ancestor id)
  agree : ∀ ancestor id, r.isAlive ancestor = true → r.isAlive id = true →
    (id ∈ r.preorder ancestor ↔ r.encloses ancestor id = true)
  connected : ∀ id, r.isAlive id = true → (r.isConnected id = true ↔ id ∈ r.preorder r.body)
  /-- Every live node is listed once below the nodes without a parent. -/
  counted : ∀ id, r.isAlive id = true → (r.tops.flatMap r.preorder).count id = 1
  live : ∀ id ∈ r.tops.flatMap r.preorder, r.isAlive id = true
  total : (r.tops.map fun root => (r.preorder root).length).sum = r.liveCount

end Routine

namespace Reachable

open Routine

variable {r : Routine}

/-- In every reachable routine, in its tree and in the trees outside it, what a walk down from
    a node lists is what a walk up meets the node from. -/
theorem walks_agree (h : Reachable r) : r.WalksAgree := by
  have F := h.forest
  obtain ⟨hnodup, hmem⟩ := F.partition
  refine ⟨fun root hroot => F.preorder_eq hroot, fun root hroot => F.nodup_preorder hroot,
    fun root id hroot => ?_, fun root rounds hroot hrounds => ?_,
    fun ancestor id rounds hrounds => ?_, fun ancestor id hancestor _ => ?_, fun id _ => ?_,
    fun id hid => ?_, fun id hid => ?_, F.sum_length_preorder⟩
  · rw [F.mem_preorder hroot, F.above_iff_children]
  · have hle := F.length_preorder_le hroot
    have hlist : [root].flatMap r.preorder = r.preorder root := List.flatMap_singleton _ _
    rw [F.walkDown_eq (List.forall_mem_singleton.mpr hroot) (by rw [hlist]; omega), hlist]
  · have hle := F.length_lineage_le_size id
    exact F.walkUp_eq (by omega)
  · rw [F.mem_preorder hancestor, F.encloses_iff]
  · rw [F.isConnected_iff_above, F.mem_preorder (isAlive_of_isConnected F.isConnected_body)]
  · exact List.count_eq_one_of_mem hnodup ((hmem id).mpr hid)
  · exact (hmem id).mp hid

/-- A container that is filled before it is put into the tree is the top of a tree of its own. -/
theorem walks_agree_on_filled_container : ∃ r, Reachable r ∧ r.tops = [⟨0⟩, ⟨2⟩] ∧
    r.preorder ⟨0⟩ = [⟨0⟩, ⟨1⟩] ∧ r.preorder ⟨2⟩ = [⟨2⟩, ⟨3⟩, ⟨5⟩, ⟨4⟩] ∧ r.liveCount = 6 ∧
    r.WalksAgree := by
  have h0 := Reachable.empty ⟨0x06000001⟩ "Draw"
  have h1 := Reachable.called (.newBlock ⟨0⟩ .controlFlow) h0 rfl
  have h2 := Reachable.called (.leaf .container rfl) h1 rfl
  have h3 := Reachable.called (.newBlock ⟨2⟩ .controlFlow) h2 rfl
  have h4 := Reachable.called (.load ⟨0⟩) h3 rfl
  have h5 := Reachable.called (.create .ret [⟨4⟩]) h4 rfl
  have h6 := Reachable.called (.push ⟨3⟩ ⟨5⟩) h5 rfl
  exact ⟨_, h6, by decide +kernel, by decide +kernel, by decide +kernel, by decide +kernel,
    walks_agree h6⟩

end Reachable

end CilFold
