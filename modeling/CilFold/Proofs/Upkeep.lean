/-
  Edits of a valid routine leave a valid one. What comes new into the tree has to be in place
  by itself (`PlacedBelow`), since outside the tree a block may stand anywhere.

  `Kept` says what the edits of a pass leave of the nodes that were there before: a node that
  is still alive has its operation, is connected if it was, and if it was an instruction of a
  block it still is one of the same block.
-/
import CilFold.Proofs.Validity

namespace CilFold.Routine

variable {r s : Routine} {a block id inst k new p : NodeId}

/-- From a node down, the children of containers are blocks, and no other children are. -/
def PlacedBelow (r : Routine) (id : NodeId) : Prop :=
  ∀ c p, r.Above id p → r.parent? c = some p → r.isBlock c = r.isContainer p

theorem isBlock_congr (h : s.op? k = r.op? k) : s.isBlock k = r.isBlock k := by
  rw [isBlock, h, isBlock]

theorem isBlock_of_op? {op : Op} (h : r.op? k = some op) : r.isBlock k = op.isBlock := by
  rw [isBlock, h, Option.any_some]

theorem isContainer_of_op? {op : Op} (h : r.op? k = some op) :
    r.isContainer k = op.isContainer := by
  rw [isContainer, h, Option.any_some]

theorem isBlock_of_blockKind? {kind : BlockKind} (h : r.blockKind? k = some kind) :
    r.isBlock k = true := by
  unfold blockKind? at h
  split at h
  · next hop =>
    rw [isBlock, hop]
    rfl
  · cases h

theorem not_container_of_block (hb : r.isBlock k = true) : r.isContainer k = false := by
  obtain ⟨n, hn, hop⟩ := exists_of_isBlock hb
  rw [isContainer_of_node? hn]
  cases hop' : n.op <;> rw [hop'] at hop <;> first | rfl | cases hop

theorem isContainer_congr (h : s.op? k = r.op? k) : s.isContainer k = r.isContainer k := by
  rw [isContainer, h, isContainer]

/-- Below a node without children there is nothing. -/
theorem Forest.eq_of_above_leaf (F : r.Forest) (h : r.children id = []) (hk : r.Above id k) :
    k = id := by
  rcases hk.cases_below with heq | ⟨d, hd, _⟩
  · exact heq.symm
  · have hmem := F.listed hd
    rw [h] at hmem
    exact absurd hmem List.not_mem_nil

/-- A connected node other than a container has a parent, as only the body has none. -/
theorem Forest.exists_parent (F : r.Forest) (hc : r.isConnected id = true)
    (hop : r.isContainer id = false) : ∃ p, r.parent? id = some p := by
  cases hp : r.parent? id with
  | some p => exact ⟨p, rfl⟩
  | none =>
    rw [F.lone' hp hc, isContainer, F.op?_body] at hop
    cases hop

theorem Forest.children_of_ldloc (F : r.Forest) {v : VarId} (h : r.op? id = some (.ldloc v)) :
    r.children id = [] :=
  List.eq_nil_of_length_eq_zero ((F.fits' h rfl rfl).1 0 rfl)

namespace Valid

variable (V : r.Valid)
include V

/-- A node of the tree is in place from there on down. -/
theorem placedBelow (hid : r.isConnected id = true) : r.PlacedBelow id := by
  intro c p hp hc
  exact V.inPlace c p ((V.forest.isConnected_of_above hp).trans hid) hc

/-- The trees of the routine are in place. -/
theorem placed {t : Tree NodeId} (ht : r.Holds t) (hc : r.isConnected t.label = true) :
    t.Placed := by
  intro u hu w hw
  have hu' := ht.subtree hu
  have hp : r.parent? w.label = some u.label :=
    V.forest.parent?_of_mem (hu'.children ▸ List.mem_map_of_mem hw)
  have hplace := V.placedBelow hc w.label u.label
    ((V.forest.mem_labels ht).mp (List.mem_map_of_mem hu)) hp
  rw [isBlock, (hu'.operand hw).op?, isContainer, hu'.op?] at hplace
  exact hplace

theorem retype (v : VarId) (type : TypeDecl) :
    (r.modifyVariable v fun x => { x with type }).Valid := by
  have hchange : Change (fun _ _ => True) r (r.modifyVariable v fun x => { x with type }) :=
    .retype v type
  exact ⟨V.forest.withVars _, hchange.numbered V.numbered, V.inPlace, V.uses.retype v type⟩

theorem extended (F : s.Forest) (h : Extends r s) : s.Valid := by
  refine ⟨F, ?_, ?_, h.usesListed V.uses⟩
  · intro v x hx
    rw [var?, h.vars] at hx
    exact V.numbered v x hx
  · intro c p hp hc
    -- a connected node is an old one, and so are its children
    obtain ⟨n, hn, _⟩ := exists_node?_of_isConnected hp
    have hold : ∀ k, s.isConnected k = true → s.node? k = r.node? k := by
      intro k hk
      rcases Nat.lt_or_ge k.index r.nodes.size with hlt | hge
      · exact h.old k hlt
      · rw [h.loose k hge] at hk
        cases hk
    have hpold := hold p hp
    have hcold := hold c ((F.shared hc).trans hp)
    rw [isBlock_congr (congrArg (Option.map Node.op) hcold),
      isContainer_congr (congrArg (Option.map Node.op) hpold)]
    refine V.inPlace c p ?_ ?_
    · rw [isConnected, ← hpold]
      exact hp
    · rw [parent?, ← hcold]
      exact hc

theorem deleteAt {index : Nat} (hblock : r.isBlock block = true)
    (hinst : (r.children block)[index]? = some inst) : (r.deleteAt block index inst).Valid := by
  have F := V.forest
  have hpi : r.parent? inst = some block := F.parent?_of_mem (List.mem_of_getElem? hinst)
  refine ⟨F.deleteAt hblock hinst, V.numbered.congr (sameHead_deleteAt r block index inst), ?_,
    V.uses.deleteAt F hpi index⟩
  have v := views_deleteAt F hpi index
  intro c p hp hc
  rw [(v p).connected] at hp
  rw [(v c).parent] at hc
  split_ifs at hp hc with hpe hce
  rw [isBlock_congr ((v c).op.trans (if_neg hce)), isContainer_congr ((v p).op.trans (if_neg hpe))]
  exact V.inPlace c p hp hc

theorem detach (hid : r.parent? id = some p) (hp : r.isContainer p = false) :
    (r.detach p id).Valid := by
  have F := V.forest
  refine ⟨F.detach hid, V.numbered.congr (sameHead_detach r p id), ?_, V.uses.detach p id⟩
  have v := views_detach F hid
  obtain ⟨np, hnp⟩ := F.exists_parent_node? hid
  have hpn : p ≠ r.nextId := ne_nextId hnp
  intro c q hq hc
  rw [(v c).parent] at hc
  split_ifs at hc with hcn hcid
  · -- the `nop` in the slot of the detached node
    cases hc
    rw [isContainer_congr ((v p).op.trans (if_neg hpn)), hp, isBlock, (v c).op, if_pos hcn]
    rfl
  · have hqn : q ≠ r.nextId := by
      rintro rfl
      obtain ⟨n, hn⟩ := F.exists_parent_node? hc
      rw [node?_nextId] at hn
      cases hn
    rw [(v q).connected, if_neg hqn, Bool.and_eq_true] at hq
    rw [isBlock_congr ((v c).op.trans (if_neg hcn)),
      isContainer_congr ((v q).op.trans (if_neg hqn))]
    exact V.inPlace c q hq.1 hc

theorem putInSlot (hid : r.parent? id = some p) (hnew : r.Detached new) (hne : ¬ r.Above new id)
    (hrole : r.isBlock new = r.isContainer p) (hplaced : r.PlacedBelow new) :
    (r.putInSlot p id new).Valid := by
  have F := V.forest
  refine ⟨F.putInSlot hid hnew hne, V.numbered.congr (sameHead_putInSlot r p id new), ?_,
    V.uses.putInSlot F hid new⟩
  have v := views_putInSlot F hid hnew.alive hnew.top hne
  intro c q hq hc
  rw [(v q).connected] at hq
  rw [(v c).parent] at hc
  split_ifs at hq hc with hqe hce hcn
  · cases hc
    rw [isBlock_congr ((v c).op.trans (if_neg hce)),
      isContainer_congr ((v p).op.trans (if_neg hqe)),
      hcn, hrole]
  · rw [isBlock_congr ((v c).op.trans (if_neg hce)),
      isContainer_congr ((v q).op.trans (if_neg hqe))]
    rw [Bool.or_eq_true, Bool.and_eq_true, F.encloses_iff] at hq
    rcases hq with hq | ⟨_, hq⟩
    · exact V.inPlace c q hq hc
    · exact hplaced c q hq hc

end Valid

/-! ## What stays -/

/-- What a pass leaves of the nodes that were there before. -/
structure Kept (r s : Routine) : Prop where
  size : r.nodes.size ≤ s.nodes.size
  alive : ∀ k : NodeId, k.index < r.nodes.size → s.isAlive k = true → r.isAlive k = true
  op : ∀ k, r.isAlive k = true → s.isAlive k = true → s.op? k = r.op? k
  connected : ∀ k, r.isConnected k = true → s.isAlive k = true → s.isConnected k = true
  slot : ∀ k q, r.parent? k = some q → r.isBlock q = true → s.isAlive k = true →
    s.parent? k = some q ∧ s.isBlock q = true

theorem isAlive_of_isBlock (h : r.isBlock k = true) : r.isAlive k = true := by
  obtain ⟨n, hn, _⟩ := exists_of_isBlock h
  exact isAlive_of_node? hn

/-- Removing an instruction destroys what it encloses and nothing else. -/
theorem Forest.isAlive_deleteAt (F : r.Forest) {index : Nat}
    (hinst : (r.children block)[index]? = some inst) :
    (r.deleteAt block index inst).isAlive k = true ↔
      r.isAlive k = true ∧ ¬ r.encloses inst k = true := by
  have v := views_deleteAt F (F.parent?_of_mem (List.mem_of_getElem? hinst)) index k
  constructor
  · intro hk
    obtain ⟨op, hop⟩ := exists_op?_of_isAlive hk
    rw [v.op] at hop
    split_ifs at hop with he
    exact ⟨isAlive_of_op? hop, he⟩
  · rintro ⟨hk, he⟩
    obtain ⟨op, hop⟩ := exists_op?_of_isAlive hk
    exact isAlive_of_op? (v.op.trans ((if_neg he).trans hop))

theorem Forest.use?_deleteAt (F : r.Forest) (hinst : r.parent? inst = some block) (index : Nat)
    (k : NodeId) : (r.deleteAt block index inst).use? k =
      if r.encloses inst k = true then none else r.use? k := (views_deleteAt F hinst index k).use?

theorem index_lt_of_use? {use : UseKind × VarId} (h : r.use? k = some use) :
    k.index < r.nodes.size := by
  obtain ⟨n, hn, _⟩ := use?_eq_some h
  exact index_lt_of_isAlive (isAlive_of_node? hn)

namespace Kept

theorem refl (r : Routine) : Kept r r where
  size := Nat.le_refl _
  alive _ _ h := h
  op _ _ _ := rfl
  connected _ h _ := h
  slot _ _ hp hq _ := ⟨hp, hq⟩

theorem trans {t : Routine} (h : Kept r s) (h' : Kept s t) : Kept r t := by
  have hmid : ∀ k, r.isAlive k = true → t.isAlive k = true → s.isAlive k = true := fun k hr ht =>
    h'.alive k (Nat.lt_of_lt_of_le (index_lt_of_isAlive hr) h.size) ht
  refine ⟨Nat.le_trans h.size h'.size, fun k hk ht => ?_, fun k hr ht => ?_, fun k hr ht => ?_,
    fun k q hp hq ht => ?_⟩
  · exact h.alive k hk (h'.alive k (Nat.lt_of_lt_of_le hk h.size) ht)
  · have hs := hmid k hr ht
    exact (h'.op k hs ht).trans (h.op k hr hs)
  · exact h'.connected k (h.connected k hr (hmid k (isAlive_of_isConnected hr) ht)) ht
  · obtain ⟨hps, hqs⟩ := h.slot k q hp hq (hmid k (isAlive_of_parent? hp) ht)
    exact h'.slot k q hps hqs ht

theorem retype (v : VarId) (type : TypeDecl) :
    Kept r (r.modifyVariable v fun x => { x with type }) := ⟨Nat.le_refl _, fun _ _ h => h,
      fun _ _ _ => rfl, fun _ h _ => h, fun _ _ hp hq _ => ⟨hp, hq⟩⟩

theorem extended (h : Extends r s) : Kept r s := by
  have hold : ∀ {k}, r.isAlive k = true → s.node? k = r.node? k := fun hk =>
    h.old _ (index_lt_of_isAlive hk)
  refine ⟨h.size, fun k hk hs => ?_, fun k hr _ => ?_, fun k hr _ => ?_, fun k q hp hq _ => ?_⟩
  · rw [isAlive, ← h.old k hk]
    exact hs
  · rw [op?, hold hr, op?]
  · rw [isConnected, hold (isAlive_of_isConnected hr)]
    exact hr
  · rw [parent?, hold (isAlive_of_parent? hp), isBlock, op?, hold (isAlive_of_isBlock hq)]
    exact ⟨hp, hq⟩

theorem deleteAt (F : r.Forest) {index : Nat} (hinst : (r.children block)[index]? = some inst) :
    Kept r (r.deleteAt block index inst) := by
  have hpi : r.parent? inst = some block := F.parent?_of_mem (List.mem_of_getElem? hinst)
  have v := views_deleteAt F hpi index
  have hstays : ∀ {k}, (r.deleteAt block index inst).isAlive k = true →
      ¬ r.encloses inst k = true := fun hk => ((F.isAlive_deleteAt hinst).mp hk).2
  refine ⟨Nat.le_of_eq (size_deleteAt r block index inst).symm,
    fun k _ hs => ((F.isAlive_deleteAt hinst).mp hs).1, fun k _ hs => ?_, fun k hr hs => ?_,
    fun k q hp hq hs => ?_⟩
  · rw [(v k).op, if_neg (hstays hs)]
  · rw [(v k).connected, if_neg (hstays hs)]
    exact hr
  · have hq' : ¬ r.encloses inst q = true := by
      intro he
      exact hstays hs (F.encloses_iff.mpr ((F.encloses_iff.mp he).under hp))
    rw [(v k).parent, if_neg (hstays hs), isBlock_congr ((v q).op.trans (if_neg hq'))]
    exact ⟨hp, hq⟩

theorem putInSlot (F : r.Forest) (hid : r.parent? id = some p) (hnew : r.Detached new)
    (hne : ¬ r.Above new id) : Kept r (r.putInSlot p id new) := by
  have v := views_putInSlot F hid hnew.alive hnew.top hne
  have hstays : ∀ {k}, (r.putInSlot p id new).isAlive k = true → ¬ r.encloses id k = true := by
    intro k hk he
    obtain ⟨o, ho⟩ := exists_op?_of_isAlive hk
    rw [(v k).op, if_pos he] at ho
    cases ho
  refine ⟨Nat.le_of_eq (size_putInSlot r p id new).symm, fun k _ hs => ?_, fun k _ hs => ?_,
    fun k hr hs => ?_, fun k q hp hq hs => ?_⟩
  · obtain ⟨o, ho⟩ := exists_op?_of_isAlive hs
    rw [(v k).op, if_neg (hstays hs)] at ho
    exact isAlive_of_op? ho
  · rw [(v k).op, if_neg (hstays hs)]
  · rw [(v k).connected, if_neg (hstays hs), hr, Bool.true_or]
  · have hq' : ¬ r.encloses id q = true := by
      intro he
      exact hstays hs (F.encloses_iff.mpr ((F.encloses_iff.mp he).under hp))
    have hkn : k ≠ new := by
      rintro rfl
      rw [hnew.top] at hp
      cases hp
    rw [(v k).parent, if_neg (hstays hs), if_neg hkn, isBlock_congr ((v q).op.trans (if_neg hq'))]
    exact ⟨hp, hq⟩

end Kept

end CilFold.Routine
