/-
  Blocks and containers stay where they are. The edits of the passes take out and put in trees
  without blocks and containers; then the blocks of each container are the same afterwards, and
  a scan over all control-flow blocks, or over all entry blocks, is one loop over a list of
  blocks that is known from the start (`scanControlFlow_each`, `scanEntries_each`).
-/
import CilFold.Proofs.SafePass
import CilFold.Proofs.Trimming

namespace CilFold

open Routine PassM

namespace Routine

variable {r s : Routine} {b block c id inst k p : NodeId} {t u : Tree NodeId} {index : Nat}

/-- Whether a node is a block or a container. -/
def isFrame (r : Routine) (k : NodeId) : Bool := r.isBlock k || r.isContainer k

theorem isFrame_of_isBlock (h : r.isBlock k = true) : r.isFrame k = true := by
  rw [isFrame, h]
  rfl

theorem isFrame_of_isContainer (h : r.isContainer k = true) : r.isFrame k = true := by
  rw [isFrame, h, Bool.or_true]

theorem isFrame_congr (h : s.op? k = r.op? k) : s.isFrame k = r.isFrame k := by
  rw [isFrame, isFrame, isBlock_congr h, isContainer_congr h]

theorem not_isFrame_of_op? {op : Op} (h : r.op? k = some op) (hb : op.isBlock = false)
    (hc : op.isContainer = false) : r.isFrame k = false := by
  rw [isFrame, isBlock, isContainer, h]
  show (op.isBlock || op.isContainer) = false
  rw [hb, hc]
  rfl

theorem not_isFrame_of_plain (ht : r.Holds t) (hplain : t.Plain) (hk : k ∈ t.labels) :
    r.isFrame k = false := by
  obtain ⟨x, hx, rfl⟩ := List.mem_map.mp hk
  obtain ⟨hb, hc⟩ := hplain x hx
  exact not_isFrame_of_op? (ht.subtree hx).op? hb hc

/-- Blocks and containers do not lie below a node whose tree has none. -/
theorem Forest.not_above_of_plain (F : r.Forest) (ht : r.Holds t) (hplain : t.Plain)
    (hf : r.isFrame k = true) : ¬ r.Above t.label k := by
  intro habove
  rw [not_isFrame_of_plain ht hplain ((F.mem_labels ht).mpr habove)] at hf
  cases hf

/-- The blocks and the containers of the tree stay, and none is new. -/
structure Framed (r s : Routine) : Prop extends Kept r s where
  body : s.body = r.body
  stays : ∀ k, r.isConnected k = true → r.isFrame k = true → s.isAlive k = true
  old : ∀ k, s.isConnected k = true → s.isFrame k = true → r.isConnected k = true
  blocks : ∀ c, r.isConnected c = true → r.isContainer c = true → s.children c = r.children c

namespace Framed

theorem refl (r : Routine) : Framed r r :=
  ⟨Kept.refl r, rfl, fun _ h _ => isAlive_of_isConnected h, fun _ h _ => h, fun _ _ _ => rfl⟩

section

variable (h : Framed r s)
include h

theorem op_stays (hk : r.isConnected k = true) (hf : r.isFrame k = true) :
    s.isConnected k = true ∧ s.op? k = r.op? k := by
  have hs := h.stays k hk hf
  exact ⟨h.connected k hk hs, h.op k (isAlive_of_isConnected hk) hs⟩

theorem op_old (hk : s.isConnected k = true) (hf : s.isFrame k = true) :
    r.isConnected k = true ∧ r.op? k = s.op? k := by
  have hr := h.old k hk hf
  exact ⟨hr, (h.op k (isAlive_of_isConnected hr) (isAlive_of_isConnected hk)).symm⟩

theorem trans {q : Routine} (h' : Framed s q) : Framed r q := by
  refine ⟨h.toKept.trans h'.toKept, h'.body.trans h.body, fun k hk hf => ?_, fun k hk hf => ?_,
    fun c hc hcontainer => ?_⟩
  · obtain ⟨hs, hop⟩ := h.op_stays hk hf
    exact h'.stays k hs ((isFrame_congr hop).trans hf)
  · obtain ⟨hs, hop⟩ := h'.op_old hk hf
    exact h.old k hs ((isFrame_congr hop).trans hf)
  · obtain ⟨hs, hop⟩ := h.op_stays hc (isFrame_of_isContainer hcontainer)
    rw [h'.blocks c hs ((isContainer_congr hop).trans hcontainer), h.blocks c hc hcontainer]

theorem isBlock (hk : r.isConnected k = true) (hb : r.isBlock k = true) :
    s.isConnected k = true ∧ s.isBlock k = true := by
  obtain ⟨hs, hop⟩ := h.op_stays hk (isFrame_of_isBlock hb)
  exact ⟨hs, (isBlock_congr hop).trans hb⟩

theorem blockKind? (hk : r.isConnected k = true) (hb : r.isBlock k = true) :
    s.blockKind? k = r.blockKind? k := by
  rw [Routine.blockKind?, Routine.blockKind?, (h.op_stays hk (isFrame_of_isBlock hb)).2]

theorem blocks_eq (hc : r.isConnected c = true) (hcontainer : r.isContainer c = true) :
    s.blocks c = r.blocks c := by
  have hop := (h.op_stays hc (isFrame_of_isContainer hcontainer)).2
  rw [Routine.blocks, Routine.blocks, isContainer_congr hop, if_pos hcontainer, if_pos hcontainer]
  exact h.blocks c hc hcontainer

end

end Framed

/-! ## Edits -/

theorem Framed.retype (v : VarId) (type : TypeDecl) :
    Framed r (r.modifyVariable v fun x => { x with type }) :=
  ⟨Kept.retype v type, rfl, fun _ h _ => isAlive_of_isConnected h, fun _ h _ => h,
    fun _ _ _ => rfl⟩

theorem Grafted.framed (G : Grafted r id p u s) (V : r.Valid) (ht : r.Holds t) (hl : t.label = id)
    (hplain : t.Plain) (hu : u.Plain) : Framed r s := by
  have F := V.forest
  have hout : ∀ k, r.isFrame k = true → ¬ r.encloses id k = true := fun k hf hin =>
    F.not_above_of_plain ht hplain hf (hl ▸ F.encloses_iff.mp hin)
  refine ⟨G.kept, G.head.body, fun k hk hf => ?_, fun k hk hf => ?_, fun c hc hcontainer => ?_⟩
  · exact (G.isAlive_iff F (isAlive_of_isConnected hk)).mpr (F.encloses_iff.not.mp (hout k hf))
  · refine (G.isConnected_cases F hk).resolve_right fun hnew => ?_
    rw [not_isFrame_of_plain G.new hu hnew] at hf
    cases hf
  · have hcp : c ≠ p := by
      rintro rfl
      have hplace := V.inPlace id c hc G.place
      have hid := not_isFrame_of_plain ht hplain (hl ▸ t.label_mem_labels)
      rw [isFrame, hplace, hcontainer] at hid
      cases hid
    rw [(G.views c (isAlive_of_isConnected hc)).children,
      if_neg (hout c (isFrame_of_isContainer hcontainer)), if_neg hcp]

theorem Framed.deleteAt (V : r.Valid) (hb : r.isBlock block = true)
    (hi : (r.children block)[index]? = some inst) (ht : r.Holds t) (hl : t.label = inst)
    (hplain : t.Plain) : Framed r (r.deleteAt block index inst) := by
  have F := V.forest
  have v := views_deleteAt F (F.parent?_of_mem (List.mem_of_getElem? hi)) index
  have htrimmed := Trimmed.deleteAt F hi
  have hout : ∀ k, r.isFrame k = true → ¬ r.encloses inst k = true := fun k hf hin =>
    F.not_above_of_plain ht hplain hf (hl ▸ F.encloses_iff.mp hin)
  refine ⟨htrimmed.toKept, (sameHead_deleteAt r block index inst).body, fun k hk hf => ?_,
    fun k hk _ => htrimmed.joined k hk, fun c hc hcontainer => ?_⟩
  · exact (F.isAlive_deleteAt hi).mpr ⟨isAlive_of_isConnected hk, hout k hf⟩
  · have hne : c ≠ block := by
      rintro rfl
      rw [not_container_of_block hb] at hcontainer
      cases hcontainer
    rw [(v c).children, if_neg (hout c (isFrame_of_isContainer hcontainer)), if_neg hne]

theorem Movable.framed {d load target value : NodeId}
    (M : r.Movable block target index d value load p) (V : r.Valid) :
    Framed r (r.move block index d value load p) := by
  have F := V.forest
  have v := M.views_move F
  have htrimmed := Trimmed.move V M
  obtain ⟨x, hload⟩ := M.loads
  obtain ⟨y, hstore⟩ := M.store
  have hout : ∀ k, r.isFrame k = true → ¬ (k = d ∨ k = load) := by
    rintro k hf (rfl | rfl)
    · rw [not_isFrame_of_op? hstore rfl rfl] at hf
      cases hf
    · rw [not_isFrame_of_op? hload rfl rfl] at hf
      cases hf
  refine ⟨htrimmed.toKept, (Movable.sameHead_move r block index d value load p).body,
    fun k hk hf => ?_, fun k hk _ => htrimmed.joined k hk, fun c hc hcontainer => ?_⟩
  · obtain ⟨op, hop⟩ := exists_op?_of_isAlive (isAlive_of_isConnected hk)
    exact isAlive_of_op? ((v k).op.trans ((if_neg (hout k hf)).trans hop))
  · have hne : c ≠ block := by
      rintro rfl
      rw [not_container_of_block M.isBlock] at hcontainer
      cases hcontainer
    have hcp : c ≠ p := by
      rintro rfl
      rw [M.not_container_slot F] at hcontainer
      cases hcontainer
    rw [(v c).children, if_neg (hout c (isFrame_of_isContainer hcontainer)), if_neg hne, if_neg hcp]

theorem Moves.framed {target : NodeId} {count : Nat} (h : Moves block target index count r s)
    (V : r.Valid) : Framed r s := by
  induction h with
  | done => exact Framed.refl _
  | step M _ ih => exact (M.framed V).trans (ih (M.valid_move V))

/-! ## Instructions -/

theorem Forest.parent?_of_mem_instructions (F : r.Forest) (hi : inst ∈ r.instructions b) :
    r.parent? inst = some b ∧ r.isBlock b = true := by
  unfold instructions at hi
  split_ifs at hi with hb
  · exact ⟨F.parent?_of_mem hi, hb⟩
  · cases hi

/-- A graft changes an instruction of a block only if it is the place. -/
theorem Grafted.instructions_eq_map (G : Grafted r id p u s) (F : r.Forest)
    (hb : r.isBlock b = true) (hout : ¬ r.Above id b) :
    s.instructions b = (r.instructions b).map fun i => if i = id then u.label else i := by
  have v := G.views b (isAlive_of_isBlock hb)
  have hstays := F.encloses_iff.not.mpr hout
  have hb' : s.isBlock b = true := (isBlock_congr (v.op.trans (if_neg hstays))).trans hb
  rw [Routine.instructions, if_pos hb', Routine.instructions, if_pos hb, v.children, if_neg hstays]
  split_ifs with hbp
  · exact replace_eq_map (F.children_nodup b) id u.label
  · refine ((List.map_congr_left fun i hi => if_neg ?_).trans (List.map_id _)).symm
    rintro rfl
    exact hbp (Option.some.inj ((F.parent?_of_mem hi).symm.trans G.place))

theorem Grafted.flatMap_instructions (G : Grafted r id p u s) (F : r.Forest) {blocks : List NodeId}
    (h : ∀ b ∈ blocks, r.isBlock b = true ∧ ¬ r.Above id b) : blocks.flatMap s.instructions =
      (blocks.flatMap r.instructions).map fun i => if i = id then u.label else i := by
  rw [List.map_flatMap]
  exact List.flatMap_congr fun b hb => G.instructions_eq_map F (h b hb).1 (h b hb).2

/-- What a scan has passed when it is at an index of a block: the instructions of the blocks in
    front and those in front of the index. -/
def passed (r : Routine) (front : List NodeId) (block : NodeId) (index : Nat) : List NodeId :=
  front.flatMap r.instructions ++ (r.instructions block).take index

theorem passed_succ {front : List NodeId} (hi : (r.instructions block)[index]? = some inst) :
    r.passed front block (index + 1) = r.passed front block index ++ [inst] := by
  rw [passed, passed, List.take_add_one, hi, List.append_assoc]
  rfl

theorem Grafted.passed_eq_map (G : Grafted r id p u s) (F : r.Forest) {front : List NodeId}
    (h : ∀ b ∈ block :: front, r.isBlock b = true ∧ ¬ r.Above id b) :
    s.passed front block index =
      (r.passed front block index).map fun i => if i = id then u.label else i := by
  obtain ⟨hblock, hfront⟩ := List.forall_mem_cons.mp h
  rw [passed, passed, List.map_append, List.map_take, G.flatMap_instructions F hfront,
    G.instructions_eq_map F hblock.1 hblock.2]

/-- What a scan has still to go through. -/
def ahead (r : Routine) (block : NodeId) (rest : List NodeId) (index : Nat) : List NodeId :=
  (r.instructions block).drop index ++ rest.flatMap r.instructions

theorem passed_append_ahead {front rest : List NodeId} :
    r.passed front block index ++ r.ahead block rest index =
      (front ++ block :: rest).flatMap r.instructions := by
  rw [passed, ahead, List.append_assoc, ← List.append_assoc (List.take _ _), List.take_append_drop,
    List.flatMap_append, List.flatMap_cons]

theorem Grafted.ahead_eq_map (G : Grafted r id p u s) (F : r.Forest) {rest : List NodeId}
    (h : ∀ b ∈ block :: rest, r.isBlock b = true ∧ ¬ r.Above id b) :
    s.ahead block rest index =
      (r.ahead block rest index).map fun i => if i = id then u.label else i := by
  obtain ⟨hblock, hrest⟩ := List.forall_mem_cons.mp h
  rw [ahead, ahead, List.map_append, List.map_drop, G.flatMap_instructions F hrest,
    G.instructions_eq_map F hblock.1 hblock.2]

theorem ahead_eq_cons {rest : List NodeId} (hi : (r.instructions block)[index]? = some inst) :
    r.ahead block rest index = inst :: r.ahead block rest (index + 1) := by
  rw [ahead, ahead, List.drop_eq_getElem?_toList_append, hi]
  rfl

/-! ## The blocks of a scan -/

/-- The control-flow blocks of the tree in the order in which they are scanned. -/
def flowBlocks (r : Routine) : List NodeId :=
  (r.containers.flatMap r.blocks).filter fun b => r.blockKind? b == some .controlFlow

theorem Forest.connected_of_mem_containers (F : r.Forest) {c : NodeId} (hc : c ∈ r.containers) :
    r.isConnected c = true ∧ r.isContainer c = true := by
  obtain ⟨hmem, hcontainer⟩ := List.mem_filter.mp hc
  have habove := (F.mem_preorder (isAlive_of_isConnected F.isConnected_body)).mp hmem
  exact ⟨F.isConnected_iff_above.mpr habove, hcontainer⟩

theorem Valid.block_of_mem_blocks (V : r.Valid) {c : NodeId} (hc : r.isConnected c = true)
    (hb : b ∈ r.blocks c) : r.parent? b = some c ∧ r.isConnected b = true ∧ r.isBlock b = true := by
  unfold blocks at hb
  split_ifs at hb with hcontainer
  · have hp := V.forest.parent?_of_mem hb
    exact ⟨hp, (V.forest.shared hp).trans hc, (V.inPlace b c hc hp).trans hcontainer⟩
  · cases hb

theorem Valid.mem_flowBlocks (V : r.Valid) : b ∈ r.flowBlocks ↔
    r.isConnected b = true ∧ r.blockKind? b = some .controlFlow := by
  rw [flowBlocks, List.mem_filter, List.mem_flatMap, beq_iff_eq]
  constructor
  · rintro ⟨⟨c, hc, hb⟩, hkind⟩
    exact ⟨(V.block_of_mem_blocks (V.forest.connected_of_mem_containers hc).1 hb).2.1, hkind⟩
  · rintro ⟨hconn, hkind⟩
    obtain ⟨c, hc, _, hb⟩ := V.exists_container hconn (isBlock_of_blockKind? hkind)
    exact ⟨⟨c, hc, hb⟩, hkind⟩

theorem Valid.nodup_flowBlocks (V : r.Valid) : r.flowBlocks.Nodup := by
  have F := V.forest
  have hconn := fun c (hc : c ∈ r.containers) => (F.connected_of_mem_containers hc).1
  refine List.Nodup.filter _ (List.nodup_flatMap.mpr ⟨fun c _ => ?_, ?_⟩)
  · unfold blocks
    split_ifs
    · exact F.children_nodup c
    · exact List.nodup_nil
  · have hnodup : r.containers.Nodup :=
      (F.nodup_preorder (isAlive_of_isConnected F.isConnected_body)).filter _
    refine List.Pairwise.imp_of_mem (fun {c c'} hc hc' hne b hb hb' => hne ?_) hnodup
    exact Option.some.inj ((V.block_of_mem_blocks (hconn c hc) hb).1.symm.trans
      (V.block_of_mem_blocks (hconn c' hc') hb').1)

/-- The entry blocks of the tree in the order in which they are scanned. -/
def entryBlocks (r : Routine) : List NodeId := r.containers.filterMap r.entry?

theorem mem_blocks_of_entry (h : r.entry? c = some b) : b ∈ r.blocks c := List.mem_of_mem_head? h

theorem Valid.mem_entryBlocks (V : r.Valid) : b ∈ r.entryBlocks ↔
    ∃ c, r.isConnected c = true ∧ r.isContainer c = true ∧ r.entry? c = some b := by
  rw [entryBlocks, List.mem_filterMap]
  constructor
  · rintro ⟨c, hc, hb⟩
    obtain ⟨hconn, hcontainer⟩ := V.forest.connected_of_mem_containers hc
    exact ⟨c, hconn, hcontainer, hb⟩
  · rintro ⟨c, hconn, hcontainer, hb⟩
    refine ⟨c, List.mem_filter.mpr ⟨?_, hcontainer⟩, hb⟩
    have F := V.forest
    exact (F.mem_preorder (isAlive_of_isConnected F.isConnected_body)).mpr
      (F.isConnected_iff_above.mp hconn)

end Routine

/-- A scan of the control-flow blocks is one loop over a list of blocks, if blocks and containers
    stay where they are. -/
theorem PassM.scanControlFlow_each {w : Work} {r : Routine}
    {visit : NodeId → Nat → NodeId → PassM Nat} {I : List NodeId → Work → Prop} (V : r.Valid)
    (hframed : ∀ todo (w : Work), I todo w → Framed r w.routine)
    (hscan : ∀ block todo (w : Work) s, I (block :: todo) (w.on s) →
      Ends (scan block (visit block)) (w.on s) fun _ => I todo)
    (h : I r.flowBlocks (w.on r)) : Ends (scanControlFlow visit) (w.on r) fun _ => I [] := by
  refine Ends.bind (Ends.routine ?_)
  let flow : NodeId → Bool := fun b => r.blockKind? b == some .controlFlow
  refine (Ends.forM (I := fun cs w => (∀ c ∈ cs, c ∈ r.containers) ∧
    I ((cs.flatMap r.blocks).filter flow) w) (fun c cs w s h => ?_) ⟨fun _ hc => hc, h⟩).mono
    fun _ _ _ h => h.2
  obtain ⟨hc, hcontainer⟩ := V.forest.connected_of_mem_containers (h.1 c List.mem_cons_self)
  have hblocks : s.blocks c = r.blocks c := (hframed _ _ h.2).blocks_eq hc hcontainer
  refine Ends.bind (Ends.routine ?_)
  rw [hblocks]
  refine (Ends.forM (I := fun bs w => (∀ b ∈ bs, b ∈ r.blocks c) ∧
    I ((bs ++ cs.flatMap r.blocks).filter flow) w) (fun b bs w s h => ?_)
    ⟨fun _ hb => hb, h.2⟩).mono
    fun _ _ _ h' => ⟨fun c hc => h.1 c (List.mem_cons_of_mem _ hc), h'.2⟩
  obtain ⟨_, hb, hblock⟩ := V.block_of_mem_blocks hc (h.1 b List.mem_cons_self)
  have hframe : Framed r s := hframed _ _ h.2
  have hrest := fun b' hb' => h.1 b' (List.mem_cons_of_mem b hb')
  refine Ends.bind (Ends.routine ?_)
  rw [(hframe.isBlock hb hblock).1, hframe.blockKind? hb hblock, Bool.true_and]
  split
  · next hflow =>
    refine (hscan b _ w s ?_).mono fun _ _ _ h' => ⟨hrest, h'⟩
    rw [← List.filter_cons_of_pos (p := flow) hflow]
    exact h.2
  · next hflow =>
    refine Ends.pure ⟨hrest, ?_⟩
    rw [← List.filter_cons_of_neg (p := flow) hflow]
    exact h.2

/-- A scan of the entry blocks is one loop over a list of blocks, if blocks and containers stay
    where they are. -/
theorem PassM.scanEntries_each {w : Work} {r : Routine}
    {visit : NodeId → Nat → NodeId → PassM Nat} {I : List NodeId → Work → Prop} (V : r.Valid)
    (hframed : ∀ todo (w : Work), I todo w → Framed r w.routine)
    (hscan : ∀ block todo (w : Work) s, I (block :: todo) (w.on s) →
      Ends (scan block (visit block)) (w.on s) fun _ => I todo)
    (h : I r.entryBlocks (w.on r)) : Ends (scanEntries visit) (w.on r) fun _ => I [] := by
  refine Ends.bind (Ends.routine ?_)
  refine (Ends.forM (I := fun cs w => (∀ c ∈ cs, c ∈ r.containers) ∧ I (cs.filterMap r.entry?) w)
    (fun c cs w s h => ?_) ⟨fun _ hc => hc, h⟩).mono fun _ _ _ h => h.2
  have hframe : Framed r s := hframed _ _ h.2
  have hrest := fun c' hc' => h.1 c' (List.mem_cons_of_mem c hc')
  obtain ⟨hc, hcontainer⟩ := V.forest.connected_of_mem_containers (h.1 c List.mem_cons_self)
  refine Ends.bind (Ends.routine ?_)
  rw [if_pos (hframe.op_stays hc (isFrame_of_isContainer hcontainer)).1, entry?,
    hframe.blocks_eq hc hcontainer]
  cases hentry : (r.blocks c).head? with
  | none =>
    refine Ends.pure ⟨hrest, ?_⟩
    rw [← List.filterMap_cons_none (f := r.entry?) hentry]
    exact h.2
  | some block =>
    refine (hscan block _ w s ?_).mono fun _ _ _ h' => ⟨hrest, h'⟩
    rw [← List.filterMap_cons_some (f := r.entry?) hentry]
    exact h.2

end CilFold
