/-
  One step of the inliner: the value of a definition moves into the place of the load, and the
  definition goes. In the arena this is three edits, which put a `nop` into the definition and
  take it away again. Together they leave a simple change (`node?_move`): the definition and
  the load are gone, the value hangs in the load's slot, and no mark has changed.
-/
import CilFold.Proofs.Ends
import CilFold.Proofs.Upkeep

namespace CilFold.Routine

variable {r s : Routine} {block d id k load p target value x : NodeId} {index : Nat}
  {t : Tree NodeId}

/-! ## The place of a load -/

/-- A node lies in a target, and there is no block or container between them. -/
inductive Inside (r : Routine) (target : NodeId) : NodeId → Prop where
  | here : Inside r target target
  | under {id p : NodeId} : r.parent? id = some p → r.isBlock p = false → r.isContainer p = false →
      Inside r target p → Inside r target id

theorem Inside.above (h : r.Inside target id) : r.Above target id := by
  induction h with
  | here => exact Above.refl r target
  | under hp _ _ _ ih => exact ih.under hp

theorem inside_of_evaluatedFirst (h : r.evaluatedFirst target id = true) : r.Inside target id := by
  unfold evaluatedFirst at h
  generalize r.nodes.size = height at h
  induction height generalizing id with
  | zero => cases h
  | succ height ih =>
    rw [evaluatedFirstTo, Bool.or_eq_true, beq_iff_eq] at h
    rcases h with rfl | h
    · exact .here
    · split at h
      · cases h
      · next p hp =>
        split at h
        · cases h
        · next n hn =>
          simp only [Bool.and_eq_true, Bool.not_eq_true', Bool.or_eq_false_iff] at h
          obtain ⟨⟨⟨⟨hb, hc⟩, _⟩, _⟩, hrest⟩ := h
          refine .under hp ?_ ?_ (ih hrest)
          · rw [isBlock_of_node? hn, hb]
          · rw [isContainer_of_node? hn, hc]

/-! ## The step -/

/-- The definition at an index of a block has a value that can move into the slot of a load,
    which lies in the instruction behind the definition. -/
structure Movable (r : Routine) (block target : NodeId) (index : Nat) (d value load p : NodeId) :
    Prop where
  isBlock : r.isBlock block = true
  connected : r.isConnected block = true
  definition : (r.children block)[index]? = some d
  store : ∃ v, r.op? d = some (.stloc v)
  only : ∀ v k, r.op? d = some (.stloc v) → r.op? k = some (.stloc v) → r.isConnected k = true →
    k = d
  value : r.children d = [value]
  loads : ∃ v, r.op? load = some (.ldloc v)
  parent : r.parent? load = some p
  inside : r.Inside target load
  first : r.evaluatedFirst target load = true
  /-- The variable of the definition has no use but this store and this load. -/
  single : ∃ v x, r.op? d = some (.stloc v) ∧ r.op? load = some (.ldloc v) ∧
    r.var? v = some x ∧ x.stores = [d] ∧ x.loads = [load] ∧ x.addresses = []
  target : r.isAlive target = true → (r.children block)[index + 1]? = some target

/-- The routine after the value has moved. -/
def move (r : Routine) (block : NodeId) (index : Nat) (d value load p : NodeId) : Routine :=
  ((r.detach d value).putInSlot p load value).deleteAt block index d

namespace Movable

variable (M : r.Movable block target index d value load p) (F : r.Forest)
include M F

theorem parent_definition : r.parent? d = some block :=
  F.parent?_of_mem (List.mem_of_getElem? M.definition)

theorem parent_value : r.parent? value = some d :=
  F.parent?_of_mem (M.value ▸ List.mem_singleton_self value)

omit F in
theorem alive_load : r.isAlive load = true := by
  obtain ⟨n, hn, _⟩ := exists_node?_of_parent? M.parent
  exact isAlive_of_node? hn

theorem target_eq : (r.children block)[index + 1]? = some target :=
  M.target (F.alive_of_above M.inside.above M.alive_load)

theorem parent_target : r.parent? target = some block :=
  F.parent?_of_mem (List.mem_of_getElem? (M.target_eq F))

/-- The load lies behind the definition, not in it. -/
theorem not_above_load : ¬ r.Above d load := by
  have hne : target ≠ d := by
    rintro rfl
    have h := M.definition.trans (M.target_eq F).symm
    obtain ⟨hlt, _⟩ := List.getElem?_eq_some_iff.mp M.definition
    have hidx := (List.getElem?_inj hlt (F.children_nodup block)).mp h
    omega
  exact F.disjoint_children (List.mem_of_getElem? (M.target_eq F))
    (List.mem_of_getElem? M.definition) hne M.inside.above

theorem not_above_value_load : ¬ r.Above value load := fun h =>
  M.not_above_load F ((Above.parent (M.parent_value F)).trans h)

theorem not_above_value_slot : ¬ r.Above value p := fun h =>
  M.not_above_value_load F (h.under M.parent)

/-- The slot of the load is one of the block, or of a node in the target that is neither a
    block nor a container. -/
theorem slot_cases : (p = block ∧ load = target) ∨
    (r.Inside target p ∧ r.isBlock p = false ∧ r.isContainer p = false) := by
  cases M.inside with
  | here => exact .inl ⟨Option.some.inj (M.parent.symm.trans (M.parent_target F)), rfl⟩
  | under hp hb hc hin =>
    cases Option.some.inj (M.parent.symm.trans hp)
    exact .inr ⟨hin, hb, hc⟩

theorem slot_ne_definition : p ≠ d := by
  rintro rfl
  exact M.not_above_load F (Above.parent M.parent)

theorem connected_definition : r.isConnected d = true :=
  (F.shared (M.parent_definition F)).trans M.connected

theorem connected_target : r.isConnected target = true :=
  (F.shared (M.parent_target F)).trans M.connected

theorem connected_load : r.isConnected load = true :=
  (F.isConnected_of_above M.inside.above).trans (M.connected_target F)

theorem connected_slot : r.isConnected p = true :=
  (F.shared M.parent).symm.trans (M.connected_load F)

theorem children_load : r.children load = [] := by
  obtain ⟨v, hv⟩ := M.loads
  exact F.children_of_ldloc hv

omit F in
theorem not_container_definition : r.isContainer d = false := by
  obtain ⟨v, hv⟩ := M.store
  rw [isContainer, hv]
  rfl

omit F in
theorem not_block_definition : r.isBlock d = false := by
  obtain ⟨v, hv⟩ := M.store
  rw [Routine.isBlock, hv]
  rfl

omit F in
theorem block_ne_load : block ≠ load := by
  rintro rfl
  obtain ⟨v, hv⟩ := M.loads
  have hb := M.isBlock
  rw [Routine.isBlock, hv] at hb
  cases hb

theorem definition_ne_load : d ≠ load := by
  rintro rfl
  exact M.not_above_load F (Above.refl r d)

theorem not_container_slot : r.isContainer p = false := by
  rcases M.slot_cases F with ⟨rfl, _⟩ | ⟨_, _, hc⟩
  · exact not_container_of_block M.isBlock
  · exact hc

/-- The value after it was taken out of the definition. -/
theorem detached_value : (r.detach d value).Detached value := detached_detach F (M.parent_value F)

theorem above_value : (r.detach d value).Above value k ↔ r.Above value k :=
  above_detach F (M.parent_value F)

theorem parent_load_detach : (r.detach d value).parent? load = some p := by
  have v := views_detach F (M.parent_value F)
  obtain ⟨n, hn, _⟩ := exists_node?_of_parent? M.parent
  have hne : load ≠ value := by
    rintro rfl
    exact M.not_above_value_load F (Above.refl r load)
  rw [(v load).parent, if_neg (ne_nextId hn), if_neg hne, M.parent]

theorem not_above_load_detach : ¬ (r.detach d value).Above value load := by
  rw [M.above_value F]
  exact M.not_above_value_load F

theorem above_load_detach : (r.detach d value).Above load k ↔ k = load := by
  have v := views_detach F (M.parent_value F)
  have hne : load ≠ d := by
    rintro rfl
    exact M.not_above_load F (Above.refl r load)
  have hc : (r.detach d value).children load = [] := by
    rw [(v load).children, if_neg hne, M.children_load F]
  constructor
  · exact (F.detach (M.parent_value F)).eq_of_above_leaf hc
  · rintro rfl
    exact Above.refl _ k

/-- The routine between the second and the third edit, node by node. -/
theorem node?_putInSlot_detach (k : NodeId) :
    ((r.detach d value).putInSlot p load value).node? k =
      if k = load then none
      else if k = r.nextId then
        some { op := .nop, children := [], parent := some d, connected := true }
      else (r.node? k).map fun n =>
        { n with
          children := if k = d then [r.nextId] else
            if k = p then n.children.replace load value else n.children
          parent := if k = value then some p else n.parent } := by
  have F₁ := F.detach (M.parent_value F)
  have hd := M.detached_value F
  have hload : (r.detach d value).encloses load k = (k == load) := by
    rw [Bool.eq_iff_iff, F₁.encloses_iff, M.above_load_detach F, beq_iff_eq]
  have hval : (r.detach d value).encloses value k = r.encloses value k := by
    rw [Bool.eq_iff_iff, F₁.encloses_iff, F.encloses_iff, M.above_value F]
  obtain ⟨np, hnp⟩ := F.exists_parent_node? M.parent
  have hpn := ne_nextId hnp
  have hslot : (r.detach d value).isConnected p = true := by
    rw [(views_detach F (M.parent_value F) p).connected, if_neg hpn, M.connected_slot F,
      F.encloses_false_iff.mpr (M.not_above_value_slot F)]
    rfl
  rw [node?_putInSlot F₁ (M.parent_load_detach F) hd.alive hd.top (M.not_above_load_detach F) k,
    hload, hval, hslot, node?_detach F (M.parent_value F) k, M.connected_definition F]
  by_cases hk : k = load
  · rw [if_pos (beq_iff_eq.mpr hk), if_pos hk]
  · rw [if_neg (fun h => hk (beq_iff_eq.mp h)), if_neg hk]
    by_cases hkn : k = r.nextId
    · have hkp : k ≠ p := fun h => hpn (h.symm.trans hkn)
      have hkv : k ≠ value := by
        obtain ⟨n, hn, _⟩ := exists_node?_of_parent? (M.parent_value F)
        exact fun h => ne_nextId hn (h.symm.trans hkn)
      simp only [if_pos hkn, Option.map_some, if_neg hkp, if_neg hkv, Bool.true_or]
    · simp only [if_neg hkn, Option.map_map]
      cases hn : r.node? k with
      | none => rfl
      | some n =>
        simp only [Option.map_some, Function.comp_apply]
        rw [Option.some.injEq, Node.mk.injEq]
        refine ⟨rfl, ?_, ?_, ?_⟩
        · have hvd : k = d → n.children.replace value r.nextId = [r.nextId] := by
            rintro rfl
            rw [← children_of_node? hn, M.value, List.replace_cons_self]
          have hpd := M.slot_ne_definition F
          by_cases hkd : k = d
          · have hkp : k ≠ p := fun h => hpd (h.symm.trans hkd)
            rw [if_neg hkp, if_pos hkd, if_pos hkd, hvd hkd]
          · rw [if_neg hkd, if_neg hkd]
        · split_ifs <;> rfl
        · -- the value was connected, and so was all below it
          cases he : r.encloses value k with
          | false => simp
          | true =>
            have hconn := F.isConnected_of_above (F.encloses_iff.mp he)
            rw [F.shared (M.parent_value F), M.connected_definition F,
              isConnected_of_node? hn] at hconn
            simp [hconn]

theorem forest_putInSlot : ((r.detach d value).putInSlot p load value).Forest :=
  (F.detach (M.parent_value F)).putInSlot (M.parent_load_detach F) (M.detached_value F)
    (M.not_above_load_detach F)

/-- What is left of the definition before it goes. -/
theorem holds_definition : ∃ v, ((r.detach d value).putInSlot p load value).Holds
    (.node d (.stloc v) [.node r.nextId .nop []]) := by
  obtain ⟨v, hv⟩ := M.store
  obtain ⟨n, hn, hop⟩ := Option.map_eq_some_iff.mp hv
  obtain ⟨m, hm, _⟩ := exists_node?_of_parent? M.parent
  have hdl := M.definition_ne_load F
  have h := M.node?_putInSlot_detach F d
  rw [if_neg hdl, if_neg (ne_nextId hn), hn, Option.map_some, if_pos rfl] at h
  have hnop := M.node?_putInSlot_detach F r.nextId
  rw [if_neg (ne_nextId hm).symm, if_pos rfl] at hnop
  refine ⟨v, .node ?_ (children_of_node? h) fun t ht => ?_⟩
  · rw [op?_of_node? h, hop]
  · rw [List.mem_singleton.mp ht]
    exact Holds.leaf (op?_of_node? hnop) (children_of_node? hnop)

/-- After the step the definition and the load are gone, the value hangs in the load's slot,
    and everything else is as before. -/
theorem node?_move (k : NodeId) :
    (r.move block index d value load p).node? k =
      if k = d ∨ k = load then none
      else (r.node? k).map fun n =>
        { n with
          children :=
            if k = block then
              (if k = p then n.children.replace load value else n.children).eraseIdx index
            else if k = p then n.children.replace load value else n.children
          parent := if k = value then some p else n.parent } := by
  have F₂ := M.forest_putInSlot F
  obtain ⟨v, hdef⟩ := M.holds_definition F
  have hencl : ((r.detach d value).putInSlot p load value).encloses d k = true ↔
      k = d ∨ k = r.nextId := by
    have h := F₂.mem_labels (x := k) hdef
    rw [F₂.encloses_iff]
    rw [Tree.label_node] at h
    rw [← h]
    simp [Tree.mem_labels_node]
  have hdl := M.definition_ne_load F
  obtain ⟨nd, hnd, hpd⟩ := exists_node?_of_parent? (M.parent_definition F)
  have hdv : d ≠ value := F.ne_parent (M.parent_value F) |>.symm
  have hparent : ((r.detach d value).putInSlot p load value).parent? d = some block := by
    have h := M.node?_putInSlot_detach F d
    rw [if_neg hdl, if_neg (ne_nextId hnd), hnd, Option.map_some] at h
    rw [parent?_of_node? h]
    simp only [if_neg hdv, hpd]
  rw [move, node?_deleteAt F₂ hparent index k, M.node?_putInSlot_detach F k]
  by_cases hkd : k = d
  · rw [if_pos (hencl.mpr (.inl hkd)), if_pos (.inl hkd)]
  · by_cases hkn : k = r.nextId
    · rw [if_pos (hencl.mpr (.inr hkn)), hkn, node?_nextId, Option.map_none, ite_self]
    · have hk : ¬ (k = d ∨ k = r.nextId) := fun h => h.elim hkd hkn
      rw [if_neg fun h => hk (hencl.mp h)]
      by_cases hkl : k = load
      · rw [if_pos hkl, if_pos (.inr hkl), Option.map_none]
      · have hk' : ¬ (k = d ∨ k = load) := fun h => h.elim hkd hkl
        rw [if_neg hkl, if_neg hkn, if_neg hk']
        cases r.node? k with
        | none => rfl
        | some n => simp only [Option.map_some, if_neg hkd]

theorem views_move (k : NodeId) :
    Views (r.move block index d value load p) k (if k = d ∨ k = load then none else r.op? k)
      (if k = d ∨ k = load then [] else
        if k = block then
          (if k = p then (r.children k).replace load value else r.children k).eraseIdx index
        else if k = p then (r.children k).replace load value else r.children k)
      (if k = d ∨ k = load then none else if k = value then some p else r.parent? k)
      (if k = d ∨ k = load then false else r.isConnected k) := by
  have h := M.node?_move F k
  by_cases hk : k = d ∨ k = load
  · rw [if_pos hk] at h
    simp only [if_pos hk]
    exact views_none h
  · rw [if_neg hk] at h
    simp only [if_neg hk]
    refine views_map
      (fun l => if k = block then (if k = p then l.replace load value else l).eraseIdx index
        else if k = p then l.replace load value else l)
      (fun q => if k = value then some p else q) id h fun hdead => ?_
    obtain ⟨nv, hnv, _⟩ := exists_node?_of_parent? (M.parent_value F)
    obtain ⟨np, hnp⟩ := F.exists_parent_node? M.parent
    obtain ⟨nb, hnb, _⟩ := exists_of_isBlock M.isBlock
    refine ⟨?_, if_neg (ne_of_dead hdead (isAlive_of_node? hnv)), rfl⟩
    rw [if_neg (ne_of_dead hdead (isAlive_of_node? hnb)),
      if_neg (ne_of_dead hdead (isAlive_of_node? hnp))]

omit M F in
theorem sameHead_move (r : Routine) (block : NodeId) (index : Nat) (d value load p : NodeId) :
    SameHead r (r.move block index d value load p) :=
  ((sameHead_detach r d value).trans (sameHead_putInSlot _ p load value)).trans
    (sameHead_deleteAt _ block index d)

/-- The definition is still at its index when it is about to go. -/
theorem getElem?_putInSlot_detach :
    (((r.detach d value).putInSlot p load value).children block)[index]? = some d := by
  obtain ⟨nb, hnb, hb⟩ := exists_of_isBlock M.isBlock
  have hbl := M.block_ne_load
  have hbd : block ≠ d := fun h => F.ne_parent (M.parent_definition F) h.symm
  have h := M.node?_putInSlot_detach F block
  rw [if_neg hbl, if_neg (ne_nextId hnb), hnb, Option.map_some, if_neg hbd] at h
  rw [children_of_node? h]
  have hdef : nb.children[index]? = some d := children_of_node? hnb ▸ M.definition
  by_cases hbp : block = p
  · simp only [if_pos hbp, replace_eq_map (F.nodup hnb), List.getElem?_map, hdef, Option.map_some,
      if_neg (M.definition_ne_load F)]
  · simp only [if_neg hbp, hdef]

theorem isBlock_putInSlot_detach :
    ((r.detach d value).putInSlot p load value).isBlock block = true := by
  obtain ⟨nb, hnb, hb⟩ := exists_of_isBlock M.isBlock
  have hbl := M.block_ne_load
  have h := M.node?_putInSlot_detach F block
  rw [if_neg hbl, if_neg (ne_nextId hnb), hnb, Option.map_some] at h
  rw [isBlock_of_node? h]
  exact hb

omit F in
/-- The value is no block, as it stands in a definition. -/
theorem not_block_value (V : r.Valid) : r.isBlock value = false := by
  rw [V.inPlace value d (M.connected_definition V.forest) (M.parent_value V.forest),
    M.not_container_definition]

omit F in
theorem placedBelow_value (V : r.Valid) : (r.detach d value).PlacedBelow value := by
  have F := V.forest
  have v := views_detach F (M.parent_value F)
  have hplaced := V.placedBelow ((F.shared (M.parent_value F)).trans (M.connected_definition F))
  intro c q hq hc
  rw [M.above_value F] at hq
  have hqd : q ≠ d := by
    rintro rfl
    exact F.not_above_parent (M.parent_value F) hq
  rw [(v c).parent] at hc
  split_ifs at hc with hcn hcv
  · exact absurd (Option.some.inj hc).symm hqd
  · obtain ⟨nq, hnq⟩ := F.exists_parent_node? hc
    rw [isBlock_congr ((v c).op.trans (if_neg hcn)),
      isContainer_congr ((v q).op.trans (if_neg (ne_nextId hnq)))]
    exact hplaced c q hq hc

omit F in
/-- The value fits the slot of the load. -/
theorem role_value (V : r.Valid) :
    (r.detach d value).isBlock value = (r.detach d value).isContainer p := by
  have F := V.forest
  have v := views_detach F (M.parent_value F)
  obtain ⟨nv, hnv, _⟩ := exists_node?_of_parent? (M.parent_value F)
  obtain ⟨np, hnp⟩ := F.exists_parent_node? M.parent
  rw [isBlock_congr ((v value).op.trans (if_neg (ne_nextId hnv))),
    isContainer_congr ((v p).op.trans (if_neg (ne_nextId hnp))), M.not_block_value V,
    M.not_container_slot F]

omit F in
theorem valid_move (V : r.Valid) : (r.move block index d value load p).Valid := by
  have F := V.forest
  have V₁ := V.detach (M.parent_value F) M.not_container_definition
  have hrole := M.role_value V
  exact (V₁.putInSlot (M.parent_load_detach F) (M.detached_value F) (M.not_above_load_detach F)
    hrole (M.placedBelow_value V)).deleteAt (M.isBlock_putInSlot_detach F)
    (M.getElem?_putInSlot_detach F)

end Movable

end CilFold.Routine
