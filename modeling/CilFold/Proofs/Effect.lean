/-
  What an edit leaves. Each effect of an edit is a sequence of small changes: of a child list,
  a parent link, marks, slots. Here each sequence is turned into one equation for the node at
  any handle (`node?_grow`, `node?_appendBlock`, `node?_insertAt`, `node?_deleteAt`,
  `node?_putInSlot`, `node?_detach`), from which later proofs start. No effect touches what
  `SameHead` compares: the token, the name, the body and the declarations of the variables.
-/
import Mathlib.Tactic.SplitIfs
import CilFold.Proofs.Forest

namespace CilFold

/-- A variable without its use-lists. -/
def Variable.bare (v : Variable) : Variable := { v with loads := [], stores := [], addresses := [] }

@[simp] theorem Variable.bare_mapUses (f : List NodeId → List NodeId) (kind : UseKind)
    (v : Variable) : (Variable.mapUses f kind v).bare = v.bare := by
  cases kind <;> rfl

namespace Routine

variable {r s t : Routine} {block container id inst new k p root : NodeId} {n : Node}

/-! ## Effects

What an edit comes to when it finds all the nodes that it looks up. -/

/-- Connects a subtree if its new parent is connected. -/
def connectBelow (r : Routine) (parent root : NodeId) : Routine :=
  if r.isConnected parent then r.connect root else r

/-- Appends an empty block to a container. -/
def appendBlock (r : Routine) (container : NodeId) (kind : BlockKind) : Routine :=
  let connected := r.isConnected container
  ((r.grow (.block kind) []).modifyNode r.nextId fun n =>
    { n with parent := some container, connected }).mapChildren container (· ++ [r.nextId])

/-- Puts a detached instruction into a block. -/
def insertAt (r : Routine) (block : NodeId) (index : Nat) (inst : NodeId) : Routine :=
  ((r.mapChildren block (·.insertIdx index inst)).setParent inst (some block)).connectBelow
    block inst

/-- Deletes a position of a block and destroys the instruction that stood there. -/
def deleteAt (r : Routine) (block : NodeId) (index : Nat) (inst : NodeId) : Routine :=
  ((r.mapChildren block (·.eraseIdx index)).disconnect inst).destroy inst

/-- Destroys a node and puts a detached one into its slot. -/
def putInSlot (r : Routine) (parent id new : NodeId) : Routine :=
  ((((r.disconnect id).destroy id).mapChildren parent (·.replace id new)).setParent new
    (some parent)).connectBelow parent new

/-- Detaches a node and leaves a fresh `nop` in its slot. -/
def detach (r : Routine) (parent id : NodeId) : Routine :=
  let connected := r.isConnected parent
  ((((r.disconnect id).setParent id none).grow .nop []).mapChildren parent
    (·.replace id r.nextId)).modifyNode r.nextId fun n =>
      { n with parent := some parent, connected }

/-! ## The head of a routine -/

/-- Two routines agree in everything but their nodes and use-lists. -/
structure SameHead (r s : Routine) : Prop where
  token : s.token = r.token
  name : s.name = r.name
  body : s.body = r.body
  vars : s.vars.map Variable.bare = r.vars.map Variable.bare

namespace SameHead

theorem refl (r : Routine) : SameHead r r := ⟨rfl, rfl, rfl, rfl⟩

theorem trans (h : SameHead r s) (h' : SameHead s t) : SameHead r t :=
  ⟨h'.token.trans h.token, h'.name.trans h.name, h'.body.trans h.body, h'.vars.trans h.vars⟩

theorem var? (h : SameHead r s) (v : VarId) :
    (s.var? v).map Variable.bare = (r.var? v).map Variable.bare := by
  have hv := congrArg (fun a : Array Variable => a[v.index]?) h.vars
  simpa only [Array.getElem?_map, Routine.var?] using hv

theorem size_vars (h : SameHead r s) : s.vars.size = r.vars.size := by
  simpa only [Array.size_map] using congrArg Array.size h.vars

theorem foldl {α : Type} {f : Routine → α → Routine} (hf : ∀ r a, SameHead r (f r a))
    (as : List α) (r : Routine) : SameHead r (as.foldl f r) := by
  induction as generalizing r with
  | nil => exact refl r
  | cons a as ih => exact (hf r a).trans (ih (f r a))

end SameHead

theorem sameHead_modifyNode (r : Routine) (id : NodeId) (f : Node → Node) :
    SameHead r (r.modifyNode id f) := ⟨rfl, rfl, rfl, rfl⟩

@[simp] theorem vars_setParents (r : Routine) (parent : Option NodeId) (ids : List NodeId) :
    (ids.foldl (fun s id => s.setParent id parent) r).vars = r.vars := by
  induction ids generalizing r with
  | nil => rfl
  | cons id ids ih => rw [List.foldl_cons, ih]; rfl

@[simp] theorem vars_grow (r : Routine) (op : Op) (children : List NodeId) :
    (r.grow op children).vars = r.vars := vars_setParents r _ children

theorem sameHead_grow (r : Routine) (op : Op) (children : List NodeId) :
    SameHead r (r.grow op children) := by
  have h := SameHead.foldl (f := fun s child => s.setParent child (some r.nextId))
    (fun r id => sameHead_modifyNode r id _) children r
  exact ⟨h.token, h.name, h.body, h.vars⟩

theorem sameHead_modifyUses (r : Routine) (v : VarId) (f : List NodeId → List NodeId)
    (kind : UseKind) : SameHead r (r.modifyVariable v (Variable.mapUses f kind)) := by
  refine ⟨rfl, rfl, rfl, ?_⟩
  refine Array.ext_getElem? fun i => ?_
  simp only [modifyVariable, Array.getElem?_map, Array.getElem?_modify]
  split
  · rw [Option.map_map]
    congr 1
    funext w
    exact Variable.bare_mapUses f kind w
  · rfl

theorem sameHead_register (r : Routine) (id : NodeId) (op : Op) (connected : Bool) :
    SameHead r (r.register id op connected) := by
  unfold register
  split
  · exact SameHead.refl r
  · split
    · exact sameHead_modifyUses r _ _ _
    · exact sameHead_modifyUses r _ _ _

theorem sameHead_mark (connected : Bool) (r : Routine) (id : NodeId) :
    SameHead r (mark connected r id) := by
  unfold mark
  split
  · exact SameHead.refl r
  · split
    · exact SameHead.refl r
    · exact (sameHead_modifyNode r id _).trans (sameHead_register _ id _ connected)

theorem sameHead_connect (r : Routine) (root : NodeId) : SameHead r (r.connect root) :=
  SameHead.foldl (sameHead_mark true) _ r

theorem sameHead_disconnect (r : Routine) (root : NodeId) : SameHead r (r.disconnect root) :=
  SameHead.foldl (sameHead_mark false) _ r

theorem sameHead_destroy (r : Routine) (root : NodeId) : SameHead r (r.destroy root) :=
  ⟨rfl, rfl, rfl, rfl⟩

theorem sameHead_connectBelow (r : Routine) (parent root : NodeId) :
    SameHead r (r.connectBelow parent root) := by
  unfold connectBelow
  split
  · exact sameHead_connect r root
  · exact SameHead.refl r

theorem sameHead_appendBlock (r : Routine) (container : NodeId) (kind : BlockKind) :
    SameHead r (r.appendBlock container kind) :=
  ((sameHead_grow r (.block kind) []).trans (sameHead_modifyNode _ _ _)).trans
    (sameHead_modifyNode _ _ _)

theorem sameHead_insertAt (r : Routine) (block : NodeId) (index : Nat) (inst : NodeId) :
    SameHead r (r.insertAt block index inst) :=
  ((sameHead_modifyNode r _ _).trans (sameHead_modifyNode _ _ _)).trans
    (sameHead_connectBelow _ block inst)

theorem sameHead_deleteAt (r : Routine) (block : NodeId) (index : Nat) (inst : NodeId) :
    SameHead r (r.deleteAt block index inst) :=
  ((sameHead_modifyNode r _ _).trans (sameHead_disconnect _ inst)).trans (sameHead_destroy _ inst)

theorem sameHead_putInSlot (r : Routine) (parent id new : NodeId) :
    SameHead r (r.putInSlot parent id new) :=
  ((((sameHead_disconnect r id).trans (sameHead_destroy _ id)).trans
    (sameHead_modifyNode _ _ _)).trans (sameHead_modifyNode _ _ _)).trans
    (sameHead_connectBelow _ parent new)

theorem sameHead_detach (r : Routine) (parent id : NodeId) : SameHead r (r.detach parent id) :=
  ((((sameHead_disconnect r id).trans (sameHead_modifyNode _ _ _)).trans
    (sameHead_grow _ .nop [])).trans (sameHead_modifyNode _ _ _)).trans (sameHead_modifyNode _ _ _)

/-! ## Small changes of the nodes -/

theorem node?_modifyNode_map (r : Routine) (id : NodeId) (f : Node → Node) (k : NodeId) :
    (r.modifyNode id f).node? k = (r.node? k).map fun n => if k = id then f n else n := by
  rw [node?_modifyNode]
  by_cases hk : k = id
  · simp only [if_pos hk]
  · simp only [if_neg hk, Option.map_id']

/-- Changing the nodes of a list one by one, in a way that a second time adds nothing to. -/
theorem node?_foldl {g : Routine → NodeId → Routine} {f : Node → Node}
    (hg : ∀ r id k, (g r id).node? k = if k = id then (r.node? k).map f else r.node? k)
    (hf : ∀ n, f (f n) = f n) (ids : List NodeId) (r : Routine) (k : NodeId) :
    (ids.foldl g r).node? k = if k ∈ ids then (r.node? k).map f else r.node? k := by
  induction ids generalizing r with
  | nil => rfl
  | cons id ids ih =>
    rw [List.foldl_cons, ih, hg]
    by_cases hid : k = id
    · rw [if_pos hid, if_pos (List.mem_cons.mpr (.inl hid)), Option.map_map]
      have hff : f ∘ f = f := funext hf
      rw [hff, ite_self]
    · have hmem : k ∈ id :: ids ↔ k ∈ ids := by simp [hid]
      simp only [if_neg hid, hmem]

theorem node?_setParents (r : Routine) (parent : Option NodeId) (ids : List NodeId) (k : NodeId) :
    (ids.foldl (fun s id => s.setParent id parent) r).node? k =
      if k ∈ ids then (r.node? k).map fun n => { n with parent } else r.node? k :=
  node?_foldl (f := fun n => { n with parent }) (fun r id k => node?_modifyNode r id k _)
    (fun _ => rfl) ids r k

/-- The fresh node comes to the end, and its children point to it. -/
theorem node?_grow (r : Routine) (op : Op) (children : List NodeId) (k : NodeId) :
    (r.grow op children).node? k =
      if k = r.nextId then some { op, children }
      else if k ∈ children then (r.node? k).map fun n => { n with parent := some r.nextId }
      else r.node? k := by
  by_cases hk : k = r.nextId
  · subst hk
    rw [if_pos rfl, node?_grow_nextId]
  · rw [if_neg hk, ← node?_setParents r (some r.nextId) children k]
    have hne : k.index ≠ r.nodes.size := fun h => hk (NodeId.ext h)
    simp only [grow, node?]
    rw [Array.getElem?_push, if_neg (by rw [size_setParents]; exact hne)]

@[simp] theorem node?_nextId (r : Routine) : r.node? r.nextId = none :=
  node?_eq_none_of_size_le (Nat.le_refl r.nodes.size)

theorem ne_nextId (h : r.node? k = some n) : k ≠ r.nextId := by
  rintro rfl
  rw [node?_nextId] at h
  cases h

/-- Only the fresh node is new. -/
theorem alive_of_grow {op : Op} {cs : List NodeId} (h : (r.grow op cs).isAlive k = true) :
    r.isAlive k = true ∨ k = r.nextId := by
  rw [isAlive, node?_grow] at h
  split_ifs at h with hk hc
  · exact .inr hk
  · rw [Option.isSome_map] at h
    exact .inl h
  · exact .inl h

theorem node?_foldl_mark (connected : Bool) (ids : List NodeId) (r : Routine) (k : NodeId) :
    (ids.foldl (mark connected) r).node? k =
      if k ∈ ids then (r.node? k).map fun n => { n with connected } else r.node? k :=
  node?_foldl (node?_mark connected) (fun _ => rfl) ids r k

@[simp] theorem size_foldl_mark (connected : Bool) (ids : List NodeId) (r : Routine) :
    (ids.foldl (mark connected) r).nodes.size = r.nodes.size := by
  induction ids generalizing r with
  | nil => rfl
  | cons id ids ih => rw [List.foldl_cons, ih, size_mark]

theorem node?_connect (r : Routine) (root k : NodeId) :
    (r.connect root).node? k =
      if k ∈ r.rightFirst root then (r.node? k).map fun n => { n with connected := true }
      else r.node? k :=
  node?_foldl_mark true _ r k

theorem node?_disconnect (r : Routine) (root k : NodeId) :
    (r.disconnect root).node? k =
      if k ∈ r.rightFirst root then (r.node? k).map fun n => { n with connected := false }
      else r.node? k :=
  node?_foldl_mark false _ r k

@[simp] theorem size_connect (r : Routine) (root : NodeId) :
    (r.connect root).nodes.size = r.nodes.size := size_foldl_mark true _ r

@[simp] theorem size_disconnect (r : Routine) (root : NodeId) :
    (r.disconnect root).nodes.size = r.nodes.size := size_foldl_mark false _ r

theorem getElem?_clear (ids : List NodeId) (nodes : Array (Option Node)) (i : Nat) :
    ((ids.foldl (fun nodes id => nodes.setIfInBounds id.index none) nodes)[i]?).getD none =
      if (⟨i⟩ : NodeId) ∈ ids then none else (nodes[i]?).getD none := by
  induction ids generalizing nodes with
  | nil => rfl
  | cons id ids ih =>
    rw [List.foldl_cons, ih, Array.getElem?_setIfInBounds]
    by_cases hid : id.index = i
    · have heq : (⟨i⟩ : NodeId) = id := NodeId.ext hid.symm
      rw [if_pos hid, heq, if_pos List.mem_cons_self]
      split
      · rfl
      · split <;> rfl
    · have hne : (⟨i⟩ : NodeId) ≠ id := fun h => hid (congrArg NodeId.index h).symm
      simp only [if_neg hid, List.mem_cons, hne, false_or]

theorem node?_destroy (r : Routine) (root k : NodeId) :
    (r.destroy root).node? k = if k ∈ r.preorder root then none else r.node? k :=
  getElem?_clear (r.preorder root) r.nodes k.index

@[simp] theorem size_destroy (r : Routine) (root : NodeId) :
    (r.destroy root).nodes.size = r.nodes.size := by
  unfold destroy
  generalize r.preorder root = ids
  suffices h : ∀ nodes : Array (Option Node),
      (ids.foldl (fun nodes id => nodes.setIfInBounds id.index none) nodes).size = nodes.size from
    h r.nodes
  intro nodes
  induction ids generalizing nodes with
  | nil => rfl
  | cons id ids ih => rw [List.foldl_cons, ih, Array.size_setIfInBounds]

@[simp] theorem size_connectBelow (r : Routine) (parent root : NodeId) :
    (r.connectBelow parent root).nodes.size = r.nodes.size := by
  unfold connectBelow
  split
  · exact size_connect r root
  · rfl

@[simp] theorem size_deleteAt (r : Routine) (block : NodeId) (index : Nat) (inst : NodeId) :
    (r.deleteAt block index inst).nodes.size = r.nodes.size := by
  simp [deleteAt, mapChildren]

@[simp] theorem size_putInSlot (r : Routine) (parent id new : NodeId) :
    (r.putInSlot parent id new).nodes.size = r.nodes.size := by
  simp [putInSlot, setParent, mapChildren]

@[simp] theorem size_detach (r : Routine) (parent id : NodeId) :
    (r.detach parent id).nodes.size = r.nodes.size + 1 := by
  simp [detach, setParent, mapChildren]

/-! ## Whole effects -/

theorem children_of_map {f : Node → Node} (h : s.node? k = (r.node? k).map f)
    (hf : ∀ n, (f n).children = n.children) : s.children k = r.children k := by
  unfold children
  rw [h]
  cases r.node? k with
  | none => rfl
  | some n => exact hf n

theorem isAlive_of_map {f : Node → Node} (h : s.node? k = (r.node? k).map f) :
    s.isAlive k = r.isAlive k := by
  rw [isAlive, h, Option.isSome_map, isAlive]

theorem node?_appendBlock (hc : r.node? container = some n) (kind : BlockKind) (k : NodeId) :
    (r.appendBlock container kind).node? k =
      if k = r.nextId then
        some { op := .block kind, children := [], parent := some container,
               connected := r.isConnected container }
      else (r.node? k).map fun n =>
        { n with children := if k = container then n.children ++ [r.nextId] else n.children } := by
  have hne := ne_nextId hc
  simp only [appendBlock, mapChildren, node?_modifyNode, node?_grow, List.not_mem_nil, if_false]
  by_cases hk : k = r.nextId
  · subst hk
    simp [Ne.symm hne]
  · by_cases hkc : k = container
    · simp [hkc, hne]
    · simp [hk, hkc]

section Forest

variable (F : r.Forest)
include F

theorem node?_connectBelow_of_congr (hsize : s.nodes.size = r.nodes.size)
    (halive : r.isAlive new = true) (hchild : ∀ x, r.Above new x → s.children x = r.children x)
    (k : NodeId) :
    (s.connectBelow p new).node? k = (s.node? k).map fun n =>
      { n with connected := n.connected || (s.isConnected p && r.encloses new k) } := by
  unfold connectBelow
  cases hp : s.isConnected p with
  | false => simp
  | true =>
    rw [if_pos rfl, node?_connect, F.rightFirst_congr hsize hchild]
    by_cases hk : r.Above new k
    · rw [if_pos ((F.mem_rightFirst halive).mpr hk), F.encloses_iff.mpr hk]
      simp
    · have hk' : r.encloses new k = false := by
        rw [← Bool.not_eq_true, F.encloses_iff]
        exact hk
      rw [if_neg (fun h => hk ((F.mem_rightFirst halive).mp h)), hk']
      simp

theorem node?_insertAt (hinst : r.isAlive inst = true) (hblock : ¬ r.Above inst block) (index : Nat)
    (k : NodeId) :
    (r.insertAt block index inst).node? k = (r.node? k).map fun n =>
      { n with
        children := if k = block then n.children.insertIdx index inst else n.children
        parent := if k = inst then some block else n.parent
        connected := n.connected || (r.isConnected block && r.encloses inst k) } := by
  have hmid : ∀ k, ((r.mapChildren block (·.insertIdx index inst)).setParent inst
      (some block)).node? k = (r.node? k).map fun n =>
        { n with
          children := if k = block then n.children.insertIdx index inst else n.children
          parent := if k = inst then some block else n.parent } := by
    intro k
    simp only [mapChildren, setParent, node?_modifyNode_map, Option.map_map]
    congr 1
    funext n
    simp only [Function.comp_apply]
    split_ifs <;> rfl
  have hconn : ((r.mapChildren block (·.insertIdx index inst)).setParent inst
      (some block)).isConnected block = r.isConnected block := by
    rw [isConnected, hmid, isConnected, Option.any_map]
  have hchild : ∀ x, r.Above inst x →
      ((r.mapChildren block (·.insertIdx index inst)).setParent inst (some block)).children x =
        r.children x := by
    intro x hx
    have hne : x ≠ block := fun h => hblock (h ▸ hx)
    exact children_of_map (hmid x) fun n => if_neg hne
  rw [insertAt, node?_connectBelow_of_congr F (by simp [mapChildren, setParent]) hinst hchild, hmid,
    hconn, Option.map_map]
  rfl

theorem node?_disconnect_of_congr (hsize : s.nodes.size = r.nodes.size) (hr : r.isAlive id = true)
    (hchild : ∀ x, r.Above id x → s.children x = r.children x) (k : NodeId) :
    (s.disconnect id).node? k =
      if r.encloses id k then (s.node? k).map fun n => { n with connected := false }
      else s.node? k := by
  rw [node?_disconnect, F.rightFirst_congr hsize hchild]
  refine if_congr ?_ rfl rfl
  rw [F.mem_rightFirst hr, F.encloses_iff]

/-- Marking a subtree does not change what is listed below its top. -/
theorem preorder_disconnect_of_congr (hsize : s.nodes.size = r.nodes.size)
    (halive : s.isAlive id = true) (hr : r.isAlive id = true)
    (hchild : ∀ x, r.Above id x → s.children x = r.children x) :
    (s.disconnect id).preorder id = r.preorder id := by
  have hmark := node?_disconnect_of_congr F hsize hr hchild
  have hkids : ∀ x, (s.disconnect id).children x = s.children x := by
    intro x
    unfold children
    rw [hmark x]
    split_ifs
    · cases s.node? x <;> rfl
    · rfl
  refine F.preorder_congr (by rw [size_disconnect, hsize]) ?_ fun x hx =>
    (hkids x).trans (hchild x hx)
  rw [isAlive, hmark id, encloses_self, if_pos rfl, Option.isSome_map, hr]
  exact halive

/-- Nothing of a subtree that was marked as outside the tree is connected. -/
theorem loose_of_mem_preorder_disconnect (hsize : s.nodes.size = r.nodes.size)
    (halive : s.isAlive id = true) (hr : r.isAlive id = true)
    (hchild : ∀ x, r.Above id x → s.children x = r.children x)
    (hk : k ∈ (s.disconnect id).preorder id) : (s.disconnect id).isConnected k = false := by
  rw [preorder_disconnect_of_congr F hsize halive hr hchild, F.mem_preorder hr,
    ← F.encloses_iff] at hk
  rw [isConnected, node?_disconnect_of_congr F hsize hr hchild, if_pos hk]
  cases s.node? k <;> rfl

theorem node?_disconnect_destroy (hsize : s.nodes.size = r.nodes.size)
    (halive : s.isAlive id = true) (hr : r.isAlive id = true)
    (hchild : ∀ x, r.Above id x → s.children x = r.children x) (k : NodeId) :
    ((s.disconnect id).destroy id).node? k = if r.encloses id k then none else s.node? k := by
  rw [node?_destroy, preorder_disconnect_of_congr F hsize halive hr hchild,
    node?_disconnect_of_congr F hsize hr hchild]
  by_cases hk : r.encloses id k = true
  · rw [if_pos ((F.mem_preorder hr).mpr (F.encloses_iff.mp hk)), if_pos hk]
  · rw [if_neg fun h => hk (F.encloses_iff.mpr ((F.mem_preorder hr).mp h)), if_neg hk, if_neg hk]

/-- Taking a child out of a block leaves the lists below the child alone. -/
theorem children_eraseIdx_of_above (hinst : r.parent? inst = some block) (index : Nat) (x : NodeId)
    (hx : r.Above inst x) : (r.mapChildren block (·.eraseIdx index)).children x = r.children x := by
  have hne : x ≠ block := fun h => F.not_above_parent hinst (h ▸ hx)
  refine children_of_map (f := id) ?_ fun _ => rfl
  rw [mapChildren, node?_modifyNode, if_neg hne, Option.map_id]
  rfl

theorem node?_deleteAt (hinst : r.parent? inst = some block) (index : Nat) (k : NodeId) :
    (r.deleteAt block index inst).node? k =
      if r.encloses inst k then none
      else (r.node? k).map fun n =>
        { n with children := if k = block then n.children.eraseIdx index else n.children } := by
  obtain ⟨n, hn, _⟩ := exists_node?_of_parent? hinst
  have hmid : ∀ k, (r.mapChildren block (·.eraseIdx index)).node? k = (r.node? k).map fun n =>
      { n with children := if k = block then n.children.eraseIdx index else n.children } := by
    intro k
    rw [mapChildren, node?_modifyNode_map]
    congr 1
    funext n
    split_ifs <;> rfl
  rw [deleteAt, node?_disconnect_destroy F (by simp [mapChildren])
    ((isAlive_of_map (hmid inst)).trans (isAlive_of_node? hn)) (isAlive_of_node? hn)
    (children_eraseIdx_of_above F hinst index), hmid]

theorem node?_putInSlot (hid : r.parent? id = some p) (hnew : r.isAlive new = true)
    (htop : r.parent? new = none) (hne : ¬ r.Above new id) (k : NodeId) :
    (r.putInSlot p id new).node? k =
      if r.encloses id k then none
      else (r.node? k).map fun n =>
        { n with
          children := if k = p then n.children.replace id new else n.children
          parent := if k = new then some p else n.parent
          connected := n.connected || (r.isConnected p && r.encloses new k) } := by
  obtain ⟨n, hn, _⟩ := exists_node?_of_parent? hid
  have hidnew : ¬ r.Above id new := by
    intro h
    rw [← h.eq_of_top htop] at htop
    rw [htop] at hid
    cases hid
  have hnewp : ¬ r.Above new p := fun h => hne (h.under hid)
  have hidp : r.encloses id p = false := by
    rw [← Bool.not_eq_true, F.encloses_iff]
    exact F.not_above_parent hid
  have hcut : ∀ k, ((r.disconnect id).destroy id).node? k =
      if r.encloses id k then none else r.node? k :=
    node?_disconnect_destroy F rfl (isAlive_of_node? hn) (isAlive_of_node? hn) fun _ _ => rfl
  generalize hs : (((r.disconnect id).destroy id).mapChildren p (·.replace id new)).setParent new
    (some p) = s
  have hmid : ∀ k, s.node? k = if r.encloses id k then none else (r.node? k).map fun n =>
      { n with
        children := if k = p then n.children.replace id new else n.children
        parent := if k = new then some p else n.parent } := by
    intro k
    rw [← hs, setParent, mapChildren, node?_modifyNode_map, node?_modifyNode_map, hcut,
      Option.map_map]
    by_cases hk : r.encloses id k = true
    · rw [if_pos hk, if_pos hk, Option.map_none]
    · rw [if_neg hk, if_neg hk]
      congr 1
      funext n
      simp only [Function.comp_apply]
      split_ifs <;> rfl
  have hconn : s.isConnected p = r.isConnected p := by
    rw [isConnected, hmid, isConnected, hidp, if_neg Bool.false_ne_true, Option.any_map]
  have hchild : ∀ x, r.Above new x → s.children x = r.children x := by
    intro x hx
    have hxp : x ≠ p := fun h => hnewp (h ▸ hx)
    have hxid : r.encloses id x = false := by
      rw [← Bool.not_eq_true, F.encloses_iff]
      intro h
      rcases h.total hx with h | h
      · exact hidnew h
      · exact hne h
    have hx' : ¬ r.encloses id x = true := by rw [hxid]; exact Bool.false_ne_true
    exact children_of_map (f := _) ((hmid x).trans (if_neg hx')) fun n => if_neg hxp
  have hsize : s.nodes.size = r.nodes.size := by rw [← hs]; simp [setParent, mapChildren]
  rw [putInSlot, hs, node?_connectBelow_of_congr F hsize hnew hchild, hmid, hconn]
  by_cases hk : r.encloses id k = true
  · rw [if_pos hk, if_pos hk, Option.map_none]
  · rw [if_neg hk, if_neg hk, Option.map_map]
    rfl

theorem node?_detach (hid : r.parent? id = some p) (k : NodeId) :
    (r.detach p id).node? k =
      if k = r.nextId then
        some { op := .nop, children := [], parent := some p, connected := r.isConnected p }
      else (r.node? k).map fun n =>
        { n with
          children := if k = p then n.children.replace id r.nextId else n.children
          parent := if k = id then none else n.parent
          connected := n.connected && !r.encloses id k } := by
  obtain ⟨n, hn, _⟩ := exists_node?_of_parent? hid
  obtain ⟨np, hnp⟩ := F.exists_parent_node? hid
  have hpn := ne_nextId hnp
  have hmark : ∀ k, ((r.disconnect id).setParent id none).node? k = (r.node? k).map fun n =>
      { n with
        parent := if k = id then none else n.parent
        connected := n.connected && !r.encloses id k } := by
    intro k
    rw [setParent, node?_modifyNode_map, node?_disconnect]
    by_cases hk : r.Above id k
    · rw [if_pos ((F.mem_rightFirst (isAlive_of_node? hn)).mpr hk), F.encloses_iff.mpr hk,
        Option.map_map]
      congr 1
      funext n
      simp only [Function.comp_apply, Bool.not_true, Bool.and_false]
      split_ifs <;> rfl
    · have hk' : r.encloses id k = false := by
        rw [← Bool.not_eq_true, F.encloses_iff]
        exact hk
      rw [if_neg fun h => hk ((F.mem_rightFirst (isAlive_of_node? hn)).mp h), hk']
      congr 1
      funext n
      simp only [Bool.not_false, Bool.and_true]
      split_ifs <;> rfl
  have hnext : ((r.disconnect id).setParent id none).nextId = r.nextId := by
    simp [nextId, setParent]
  unfold detach
  rw [node?_modifyNode_map, mapChildren, node?_modifyNode_map, node?_grow, hnext, hmark]
  by_cases hk : k = r.nextId
  · have hkp : k ≠ p := fun h => hpn (h.symm.trans hk)
    simp only [if_pos hk, if_neg hkp, Option.map_some]
  · simp only [if_neg hk, List.not_mem_nil, if_false, Option.map_map]
    congr 1
    funext n
    simp only [Function.comp_apply]
    split_ifs <;> rfl

end Forest

/-! ## The views after an effect -/

/-- What the four views of a routine show at a handle. -/
structure Views (s : Routine) (k : NodeId) (op : Option Op) (children : List NodeId)
    (parent : Option NodeId) (connected : Bool) : Prop where
  op : s.op? k = op
  children : s.children k = children
  parent : s.parent? k = parent
  connected : s.isConnected k = connected

theorem views_none (h : s.node? k = none) : Views s k none [] none false := by
  refine ⟨by rw [op?, h]; rfl, ?_, by rw [parent?, h]; rfl, by rw [isConnected, h]; rfl⟩
  unfold children
  rw [h]

theorem views_some (h : s.node? k = some n) :
    Views s k (some n.op) n.children n.parent n.connected :=
  ⟨op?_of_node? h, children_of_node? h, parent?_of_node? h, isConnected_of_node? h⟩

/-- Where the views agree, the nodes do. -/
theorem Views.node?_eq (h : Views s k (r.op? k) (r.children k) (r.parent? k) (r.isConnected k)) :
    s.node? k = r.node? k := by
  cases hn : r.node? k with
  | none =>
    have hop := h.op
    rw [(views_none hn).op] at hop
    exact Option.map_eq_none_iff.mp hop
  | some n =>
    have v := views_some hn
    rw [v.op, v.children, v.parent, v.connected] at h
    obtain ⟨m, hm, hop⟩ := Option.map_eq_some_iff.mp h.op
    have w := views_some hm
    rw [hm, Option.some.injEq, Node.mk.injEq]
    exact ⟨hop, w.children.symm.trans h.children, w.parent.symm.trans h.parent,
      w.connected.symm.trans h.connected⟩

theorem isConnected_of_dead (h : r.node? k = none) : r.isConnected k = false :=
  (views_none h).connected

/-- A change of a node that its handle's views follow. -/
theorem views_map (fc : List NodeId → List NodeId) (fp : Option NodeId → Option NodeId)
    (fk : Bool → Bool)
    (h : s.node? k = (r.node? k).map fun n =>
      { n with children := fc n.children, parent := fp n.parent, connected := fk n.connected })
    (hdead : r.node? k = none → fc [] = [] ∧ fp none = none ∧ fk false = false) :
    Views s k (r.op? k) (fc (r.children k)) (fp (r.parent? k)) (fk (r.isConnected k)) := by
  cases hn : r.node? k with
  | none =>
    obtain ⟨hc, hp, hk⟩ := hdead hn
    have v := views_none hn
    rw [v.op, v.children, v.parent, v.connected, hc, hp, hk]
    rw [hn] at h
    exact views_none h
  | some n =>
    have v := views_some hn
    rw [v.op, v.children, v.parent, v.connected]
    rw [hn] at h
    exact views_some h

theorem ne_of_dead (hk : r.node? k = none) (hid : r.isAlive id = true) : k ≠ id := by
  rintro rfl
  rw [isAlive, hk] at hid
  cases hid

theorem views_grow (op : Op) {cs : List NodeId} (hcs : ∀ c ∈ cs, r.isAlive c = true) (k : NodeId) :
    Views (r.grow op cs) k (if k = r.nextId then some op else r.op? k)
      (if k = r.nextId then cs else r.children k)
      (if k ∈ cs then some r.nextId else r.parent? k) (r.isConnected k) := by
  have h := node?_grow r op cs k
  by_cases hk : k = r.nextId
  · subst hk
    have hnext : r.nextId ∉ cs := fun hc => ne_of_dead (node?_nextId r) (hcs _ hc) rfl
    have v := views_none (node?_nextId r)
    rw [if_pos rfl] at h
    rw [if_pos rfl, if_pos rfl, if_neg hnext, v.parent, v.connected]
    exact views_some h
  · rw [if_neg hk, if_neg hk]
    refine views_map id (fun q => if k ∈ cs then some r.nextId else q) id ?_ ?_
    · rw [h, if_neg hk]
      split_ifs
      · rfl
      · exact Option.map_id'.symm
    · intro hn
      have hkc : k ∉ cs := fun hc => ne_of_dead hn (hcs k hc) rfl
      exact ⟨rfl, if_neg hkc, rfl⟩

theorem views_appendBlock (hc : r.isAlive container = true) (kind : BlockKind) (k : NodeId) :
    Views (r.appendBlock container kind) k
      (if k = r.nextId then some (.block kind) else r.op? k)
      (if k = container then r.children k ++ [r.nextId] else r.children k)
      (if k = r.nextId then some container else r.parent? k)
      (if k = r.nextId then r.isConnected container else r.isConnected k) := by
  obtain ⟨n, hn⟩ := isAlive_iff.mp hc
  have h := node?_appendBlock hn kind k
  by_cases hk : k = r.nextId
  · have hkc : k ≠ container := ne_of_dead (hk ▸ node?_nextId r) hc
    rw [if_pos hk] at h
    simp only [if_pos hk, if_neg hkc]
    rw [hk, (views_none (node?_nextId r)).children, ← hk]
    exact views_some h
  · rw [if_neg hk] at h
    simp only [if_neg hk]
    refine views_map (fun l => if k = container then l ++ [r.nextId] else l) id
      id h ?_
    intro hd
    exact ⟨if_neg (ne_of_dead hd hc), rfl, rfl⟩

section Forest

variable (F : r.Forest)
include F

theorem encloses_of_dead (hk : r.node? k = none) (hid : r.isAlive id = true) :
    r.encloses id k = false := by
  rw [← Bool.not_eq_true, F.encloses_iff]
  intro h
  exact ne_of_dead hk (h.alive hid) rfl

theorem views_insertAt (hinst : r.isAlive inst = true) (hblock : r.isAlive block = true)
    (hbelow : ¬ r.Above inst block) (index : Nat) (k : NodeId) :
    Views (r.insertAt block index inst) k (r.op? k)
      (if k = block then (r.children k).insertIdx index inst else r.children k)
      (if k = inst then some block else r.parent? k)
      (r.isConnected k || (r.isConnected block && r.encloses inst k)) := by
  refine views_map (fun l => if k = block then l.insertIdx index inst else l)
    (fun q => if k = inst then some block else q)
    (fun b => b || (r.isConnected block && r.encloses inst k))
    (node?_insertAt F hinst hbelow index k) fun hd => ?_
  refine ⟨if_neg (ne_of_dead hd hblock), if_neg (ne_of_dead hd hinst), ?_⟩
  rw [encloses_of_dead F hd hinst, Bool.and_false, Bool.or_false]

theorem views_deleteAt (hinst : r.parent? inst = some block) (index : Nat) (k : NodeId) :
    Views (r.deleteAt block index inst) k (if r.encloses inst k then none else r.op? k)
      (if r.encloses inst k then [] else
        if k = block then (r.children k).eraseIdx index else r.children k)
      (if r.encloses inst k then none else r.parent? k)
      (if r.encloses inst k then false else r.isConnected k) := by
  have h := node?_deleteAt F hinst index k
  by_cases hk : r.encloses inst k = true
  · rw [if_pos hk] at h
    simp only [if_pos hk]
    exact views_none h
  · rw [if_neg hk] at h
    simp only [if_neg hk]
    refine views_map (fun l => if k = block then l.eraseIdx index else l) id
      id h fun hd => ?_
    obtain ⟨n, hn⟩ := F.exists_parent_node? hinst
    exact ⟨if_neg (ne_of_dead hd (isAlive_of_node? hn)), rfl, rfl⟩

theorem views_putInSlot (hid : r.parent? id = some p) (hnew : r.isAlive new = true)
    (htop : r.parent? new = none) (hne : ¬ r.Above new id) (k : NodeId) :
    Views (r.putInSlot p id new) k (if r.encloses id k then none else r.op? k)
      (if r.encloses id k then [] else
        if k = p then (r.children k).replace id new else r.children k)
      (if r.encloses id k then none else if k = new then some p else r.parent? k)
      (if r.encloses id k then false else
        r.isConnected k || (r.isConnected p && r.encloses new k)) := by
  have h := node?_putInSlot F hid hnew htop hne k
  by_cases hk : r.encloses id k = true
  · rw [if_pos hk] at h
    simp only [if_pos hk]
    exact views_none h
  · rw [if_neg hk] at h
    simp only [if_neg hk]
    refine views_map (fun l => if k = p then l.replace id new else l)
      (fun q => if k = new then some p else q)
      (fun b => b || (r.isConnected p && r.encloses new k)) h fun hd => ?_
    obtain ⟨n, hn⟩ := F.exists_parent_node? hid
    refine ⟨if_neg (ne_of_dead hd (isAlive_of_node? hn)), if_neg (ne_of_dead hd hnew), ?_⟩
    rw [encloses_of_dead F hd hnew, Bool.and_false, Bool.or_false]

theorem views_detach (hid : r.parent? id = some p) (k : NodeId) :
    Views (r.detach p id) k (if k = r.nextId then some .nop else r.op? k)
      (if k = p then (r.children k).replace id r.nextId else r.children k)
      (if k = r.nextId then some p else if k = id then none else r.parent? k)
      (if k = r.nextId then r.isConnected p else r.isConnected k && !r.encloses id k) := by
  have h := node?_detach F hid k
  obtain ⟨n, hn⟩ := F.exists_parent_node? hid
  by_cases hk : k = r.nextId
  · have hkp : k ≠ p := ne_of_dead (hk ▸ node?_nextId r) (isAlive_of_node? hn)
    rw [if_pos hk] at h
    simp only [if_pos hk, if_neg hkp]
    rw [hk, (views_none (node?_nextId r)).children, ← hk]
    exact views_some h
  · rw [if_neg hk] at h
    simp only [if_neg hk]
    refine views_map (fun l => if k = p then l.replace id r.nextId else l)
      (fun q => if k = id then none else q)
      (fun b => b && !r.encloses id k) h fun hd => ?_
    exact ⟨if_neg (ne_of_dead hd (isAlive_of_node? hn)), ite_self none, Bool.false_and _⟩

end Forest

end Routine

end CilFold
