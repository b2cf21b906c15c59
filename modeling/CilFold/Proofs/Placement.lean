/-
  Where blocks stand. Containers hold blocks, and nothing else does, in the tree of the routine
  and in those beside it (`Routine.Placed`). Inserting and replacing check this, creating does
  not: a node may be made over a detached block, and only the check of the whole routine finds
  the block once that node has come into the tree.

  This is the one way to misplace a node. A call keeps the blocks in place exactly if it makes
  no node over a block (`Primitive.placed_iff`), and as long as no call does, the check of a
  routine has nothing to say about its children (`Unnested`).
-/
import CilFold.Proofs.Upkeep

namespace CilFold

namespace Routine

variable {r s : Routine} {block container id inst new p : NodeId} {index : Nat}
  {made : Op → List NodeId → Prop}

/-! ## Changes -/

namespace Placed

variable (P : r.Placed)
include P

theorem inPlace : r.InPlace := fun c p _ hp => P c p hp

/-- Links that a later routine has too are in place there if their ends have kept their
    operations. -/
theorem of_views (hlink : ∀ c p, s.parent? c = some p →
    (r.parent? c = some p ∧ s.op? c = r.op? c ∧ s.op? p = r.op? p) ∨
      s.isBlock c = s.isContainer p) : s.Placed := by
  intro c p hp
  rcases hlink c p hp with ⟨hold, hc, hcp⟩ | hnew
  · rw [isBlock, hc, isContainer, hcp]
    exact P c p hold
  · exact hnew

variable (F : r.Forest)
include F

theorem appendBlock (hc : r.op? container = some .container) (kind : BlockKind) :
    (r.appendBlock container kind).Placed := by
  have v := views_appendBlock (isAlive_of_op? hc) kind
  refine P.of_views fun c p hp => ?_
  rw [(v c).parent] at hp
  split_ifs at hp with hcn
  · cases hp
    have hne : container ≠ r.nextId := (ne_of_dead (node?_nextId r) (isAlive_of_op? hc)).symm
    right
    rw [isBlock, (v c).op, if_pos hcn, isContainer, (v container).op, if_neg hne, hc]
    rfl
  · left
    rw [(v c).op, if_neg hcn, (v p).op, if_neg (F.parent_ne_nextId hp)]
    exact ⟨hp, rfl, rfl⟩

theorem insertAt (hblock : r.isBlock block = true) (hinst : r.Detached inst)
    (hrole : r.isBlock inst = false) (hbelow : ¬ r.Above inst block) :
    (r.insertAt block index inst).Placed := by
  obtain ⟨n, hn, _⟩ := exists_of_isBlock hblock
  have v := views_insertAt F hinst.alive (isAlive_of_node? hn) hbelow index
  refine P.of_views fun c p hp => ?_
  rw [(v c).parent] at hp
  split_ifs at hp with hc
  · cases hp
    right
    rw [isBlock_congr (v c).op, hc, hrole, isContainer_congr (v block).op,
      not_container_of_block hblock]
  · exact .inl ⟨hp, (v c).op, (v p).op⟩

theorem deleteAt (hinst : (r.children block)[index]? = some inst) :
    (r.deleteAt block index inst).Placed := by
  have hp := F.parent?_of_mem (List.mem_of_getElem? hinst)
  have v := views_deleteAt F hp index
  refine P.of_views fun c q hq => ?_
  rw [(v c).parent] at hq
  split_ifs at hq with hc
  rw [(v c).op, if_neg hc, (v q).op, if_neg (F.not_encloses_parent hq hc)]
  exact .inl ⟨hq, rfl, rfl⟩

theorem putInSlot (hid : r.parent? id = some p) (hnew : r.Detached new) (hne : ¬ r.Above new id)
    (hrole : r.isBlock new = r.isContainer p) : (r.putInSlot p id new).Placed := by
  have v := views_putInSlot F hid hnew.alive hnew.top hne
  refine P.of_views fun c q hq => ?_
  rw [(v c).parent] at hq
  split_ifs at hq with hc hcn
  · cases hq
    have hout : ¬ r.encloses id p = true := fun h =>
      F.not_above_parent hid (F.encloses_iff.mp h)
    right
    rw [isBlock, (v c).op, if_neg hc, hcn, isContainer, (v p).op, if_neg hout]
    exact hrole
  · left
    rw [(v c).op, if_neg hc, (v q).op, if_neg (F.not_encloses_parent hq hc)]
    exact ⟨hq, rfl, rfl⟩

theorem detach (hid : r.parent? id = some p) (hp : r.isContainer p = false) :
    (r.detach p id).Placed := by
  have v := views_detach F hid
  refine P.of_views fun c q hq => ?_
  rw [(v c).parent] at hq
  split_ifs at hq with hcn hc
  · cases hq
    right
    rw [isBlock, (v c).op, if_pos hcn, isContainer, (v p).op, if_neg (F.parent_ne_nextId hid)]
    exact hp.symm
  · left
    rw [(v c).op, if_neg hcn, (v q).op, if_neg (F.parent_ne_nextId hq)]
    exact ⟨hq, rfl, rfl⟩

end Placed

/-- A change that makes no node over a block keeps the blocks in place. -/
theorem Change.placed (F : r.Forest) (P : r.Placed)
    (hmade : ∀ op cs, made op cs → ∀ c ∈ cs, r.isBlock c = false) (h : Change made r s) :
    s.Placed := by
  cases h with
  | declare => exact P
  | retype => exact P
  | @grow op cs _ hcs harity hop =>
    refine P.grow F fun c hc => ⟨(hcs c hc).alive, ?_⟩
    rw [hmade op cs hop c hc]
    -- a container is made without operands
    cases op with
    | container =>
      have hlen := (checkArity_ok.mp harity).1 0 rfl
      rw [List.eq_nil_of_length_eq_zero hlen] at hc
      cases hc
    | _ => rfl
  | appendBlock kind hc => exact P.appendBlock F hc kind
  | insertAt hblock _ hinst hrole hbelow => exact P.insertAt F hblock hinst hrole hbelow
  | deleteAt _ hinst => exact P.deleteAt F hinst
  | putInSlot hid hnew hne hrole => exact P.putInSlot F hid hnew hne hrole
  | detach hid hp => exact P.detach F hid hp
  | copied _ hc => exact hc.placed P

/-! ## The check -/

/-- If the blocks of the tree are in place, the check can only find fault with use-lists. -/
theorem Forest.flaw_of_inPlace (F : r.Forest) (hplace : r.InPlace) {flaw : Flaw}
    (h : r.validate = .error flaw) :
    ∃ kind v name listed found, flaw = .useList kind v name listed found := by
  obtain ⟨out, hreach⟩ := (reach_body_spec F).1 hplace
  obtain ⟨_, hout, _⟩ := (reach_body_spec F).2 out hreach
  simp only [validate, checkBody_ok F, hreach, checkMarks_ok hout, bind, Except.bind] at h
  obtain ⟨v, _, hv⟩ := exists_of_forM_eq_error h
  obtain ⟨kind, _, hkind⟩ := exists_of_forM_eq_error hv
  simp only [checkUses] at hkind
  split_ifs at hkind
  cases hkind
  exact ⟨_, _, _, _, _, rfl⟩

end Routine

/-! ## Calls -/

namespace Primitive

variable {r s : Routine} {a : Answer}

/-- The call makes a node over a block. -/
def nestsBlock (r : Routine) : Primitive → Bool
  | create _ children => children.any r.isBlock
  | _ => false

theorem not_isBlock_of_makes {p : Primitive} (hno : p.nestsBlock r = false) {op : Op}
    {cs : List NodeId} (h : p.Makes op cs) : ∀ c ∈ cs, r.isBlock c = false := by
  intro c hc
  cases p with
  | leaf =>
    rw [h.2] at hc
    cases hc
  | create op' children =>
    have hall := List.any_eq_false.mp hno
    exact Bool.not_eq_true _ ▸ hall c (h.2 ▸ hc)
  | _ => exact h.elim

/-- A call that is not refused keeps the blocks in place exactly if it makes no node over one. -/
theorem placed_iff (F : r.Forest) (P : r.Placed) (p : Primitive) (h : p.run r = .ok a s) :
    s.Placed ↔ p.nestsBlock r = false := by
  refine ⟨fun P' => ?_, fun hno => (p.change F h).placed F P fun op cs => not_isBlock_of_makes hno⟩
  by_contra hnests
  cases p with
  | create op children =>
    obtain ⟨c, hc, hblock⟩ := List.any_eq_true.mp (Bool.not_eq_false _ ▸ hnests)
    obtain ⟨_, hrun, _⟩ := Edit.map_ok.mp h
    obtain ⟨_, hcheck, _, rfl⟩ := Edit.step_ok.mp hrun
    obtain ⟨_, harity, hcs⟩ := bind_eq_ok.mp hcheck
    obtain ⟨_, hall⟩ := (Routine.checkOperands_ok F).mp hcs
    have v := Routine.views_grow op fun c hc => (hall c hc).2.alive
    have hne : c ≠ r.nextId :=
      (Routine.ne_of_dead (Routine.node?_nextId r) (hall c hc).2.alive).symm
    have hrole := P' c r.nextId (by rw [(v c).parent, if_pos hc])
    rw [Routine.isBlock, (v c).op, if_neg hne, Routine.isContainer, (v r.nextId).op,
      if_pos rfl] at hrole
    -- the new node would have to be a container, which has no operands
    have hop : op.isContainer = true := hrole.symm.trans hblock
    cases op with
    | container =>
      have hlen := (Routine.checkArity_ok.mp harity).1 0 rfl
      rw [List.eq_nil_of_length_eq_zero hlen] at hc
      cases hc
    | _ => cases hop
  | _ => exact hnests rfl

/-- A block below a `ret` is accepted, and found when the routine is checked. -/
theorem block_below_return : ∃ r : Routine, Reachable r ∧ r.isBlock ⟨1⟩ = true ∧
    r.parent? ⟨1⟩ = some ⟨3⟩ ∧ r.isContainer ⟨3⟩ = false ∧
    r.validate = .error (.misplacedChild ⟨3⟩ .ret ⟨1⟩ .block) := by
  have h0 := Reachable.empty ⟨0x06000001⟩ "Draw"
  have h1 := Reachable.called (.leaf (.block .controlFlow) rfl) h0 rfl
  have h2 := Reachable.called (.newBlock ⟨0⟩ .controlFlow) h1 rfl
  have h3 := Reachable.called (.create .ret [⟨1⟩]) h2 rfl
  have h4 := Reachable.called (.push ⟨2⟩ ⟨3⟩) h3 rfl
  exact ⟨_, h4, rfl, rfl, rfl, rfl⟩

end Primitive

/-! ## Runs -/

/-- The routines that some calls make of an empty one, none of which makes a node over a block. -/
inductive Unnested : Routine → Prop where
  | empty (token : Token) (name : String) : Unnested (Routine.empty token name)
  | called {r s : Routine} {a : Answer} (p : Primitive) : Unnested r → p.nestsBlock r = false →
      p.run r = .ok a s → Unnested s
  | refused {r s : Routine} {fault : Fault} (p : Primitive) : Unnested r →
      p.run r = .error fault s → Unnested s

namespace Unnested

variable {r : Routine}

theorem reachable (h : Unnested r) : Reachable r := by
  induction h with
  | empty token name => exact .empty token name
  | called p _ _ hrun ih => exact .called p ih hrun
  | refused p _ hrun ih => exact .refused p ih hrun

theorem placed (h : Unnested r) : r.Placed := by
  induction h with
  | empty token name =>
    intro c p hp
    rw [Routine.parent?, Routine.node?_empty] at hp
    split_ifs at hp <;> cases hp
  | called p hr hno hrun P => exact (p.placed_iff hr.reachable.forest P hrun).mpr hno
  | refused p hr hrun P => exact p.eq_of_refused hr.reachable.forest hrun ▸ P

/-- As long as no node is made over a block, blocks appear only in containers, and the check of
    the routine never finds a child out of place. -/
theorem blocks_in_containers (h : Unnested r) :
    (∀ c p, r.isBlock c = true → r.parent? c = some p → r.isContainer p = true) ∧
    ∀ id outer child inner, r.validate ≠ .error (.misplacedChild id outer child inner) := by
  refine ⟨fun c p hc hp => (h.placed c p hp).symm.trans hc, fun id outer child inner hflaw => ?_⟩
  obtain ⟨_, _, _, _, _, heq⟩ := h.reachable.forest.flaw_of_inPlace h.placed.inPlace hflaw
  cases heq

/-- A block that is a copy stays outside all trees, and the block in a container that was
    inserted stays in it. -/
theorem blocks_of_nested : ∃ r : Routine, Unnested r ∧ r.isBlock ⟨3⟩ = true ∧
    r.parent? ⟨3⟩ = some ⟨2⟩ ∧ r.isContainer ⟨2⟩ = true ∧
    (Primitive.push ⟨1⟩ ⟨4⟩).run r = .error (.wrongRole ⟨4⟩ .instruction) r ∧
    ∀ id outer child inner, r.validate ≠ .error (.misplacedChild id outer child inner) := by
  have h0 := Unnested.empty ⟨0x06000001⟩ "Draw"
  have h1 := Unnested.called (.newBlock ⟨0⟩ .controlFlow) h0 rfl rfl
  have h2 := Unnested.called (.leaf .container rfl) h1 rfl rfl
  have h3 := Unnested.called (.newBlock ⟨2⟩ .controlFlow) h2 rfl rfl
  have h4 := Unnested.called (.clone ⟨3⟩) h3 rfl rfl
  have h5 := Unnested.called (.push ⟨1⟩ ⟨2⟩) h4 rfl rfl
  obtain ⟨hblocks, hflaws⟩ := blocks_in_containers h5
  exact ⟨_, h5, rfl, rfl, hblocks ⟨3⟩ ⟨2⟩ rfl rfl, rfl, hflaws⟩

end Unnested

end CilFold
