/-
  The three passes are not refused on a valid routine, and leave a valid one. For each of them
  a visit keeps the block in place and leaves fewer instructions to go; the rest is the rule
  for scans. Around the edits of a pass, `apply` records its start and its end
  (`Pass.apply_ends`).
-/
import CilFold.Proofs.CaptureRemove

namespace CilFold

open Routine PassM

variable {w₀ w : Work} {r s : Routine} {block inst : NodeId} {index count : Nat}
  {settings : Settings}

/-- After a removal at the index of a scan, the scan goes on in front of the consumed
    definitions, with fewer instructions to go. -/
theorem Scanned.vacated (h : Scanned w₀ block (w.on r))
    (hi : (r.instructions block)[index]? = some inst) (hv : Vacated block index inst count r s)
    {w' : Work} (hlog : Logged (w.on r) (w'.on s)) :
    Scanned w₀ block (w'.on s) ∧
      (s.instructions block).length - (index - count) < (r.instructions block).length - index := by
  have V : r.Valid := h.valid
  obtain ⟨hb, hi'⟩ := getElem?_instructions hi
  have hc : r.isConnected block = true := h.stays (isAlive_of_isBlock hb)
  obtain ⟨hbs, _⟩ := hv.block_stays V hi hc
  refine ⟨h.step (hv.valid V hi) (hv.kept V hi) hlog, ?_⟩
  have hlen := hv.length V hi
  have hle := hv.le
  obtain ⟨hlt, _⟩ := List.getElem?_eq_some_iff.mp hi'
  rw [instructions, instructions, if_pos hb, if_pos hbs]
  omega

/-- A visit that only looks on goes on with the next instruction. -/
theorem length_sub_succ_lt (hi : (r.instructions block)[index]? = some inst) :
    (r.instructions block).length - (index + 1) < (r.instructions block).length - index := by
  obtain ⟨hlt, _⟩ := List.getElem?_eq_some_iff.mp hi
  omega

/-- Removing the instruction at the index of a scan, after a note. -/
theorem vacateNoted_ends (V : r.Valid) (hc : r.isConnected block = true)
    (hi : (r.instructions block)[index]? = some inst) (hinst : r.isContainer inst = false)
    {pass : String} {id : NodeId} :
    Ends (do
      PassM.noteNode pass .instructionRemoved index id
      let inlined ← Context.vacate { settings, inliner := Inliner.singleUse } block index
      PassM.stepBack index inlined) (w.on r) fun next w' => ∃ count, next = index - count ∧
        Vacated block index inst count r w'.routine ∧ Logged (w.on r) w' := by
  refine Ends.bind (Ends.noteNode fun e hkind hmethod => ?_)
  refine (Context.vacate_ends V hc hi).andThen fun count w' s ⟨hv, hlog⟩ => ?_
  refine Ends.stepBack (Vacated.le hv) ⟨count, rfl, hv, ?_⟩
  exact (Logged.single hkind hmethod (.removed hc hi hinst)).trans hlog

theorem vacate_advances (h : Scanned w₀ block (w.on r)) (hhead : SameHead w₀.routine r)
    (hi : (r.instructions block)[index]? = some inst) (hinst : r.isContainer inst = false)
    {pass : String} {id : NodeId} :
    Ends (do
      PassM.noteNode pass .instructionRemoved index id
      let inlined ← Context.vacate { settings, inliner := Inliner.singleUse } block index
      PassM.stepBack index inlined) (w.on r) fun next w' =>
        (Scanned w₀ block w' ∧ SameHead w₀.routine w'.routine) ∧
        (w'.routine.instructions block).length - next < (r.instructions block).length - index := by
  have hc : r.isConnected block = true := h.stays (isAlive_of_isBlock (getElem?_instructions hi).1)
  refine (vacateNoted_ends h.valid hc hi hinst).mono ?_
  rintro next w' s ⟨count, rfl, hv, hlog⟩
  obtain ⟨hscanned, hless⟩ := h.vacated hi hv hlog
  exact ⟨⟨hscanned, hhead.trans hv.sameHead⟩, hless⟩

/-- A pass over the control-flow blocks is not refused if its visits are not, and it leaves the
    declarations alone if they do. -/
theorem scanControlFlow_sane {visit : NodeId → Nat → NodeId → PassM Nat}
    (hvisit : ∀ {w₀ block}, Advances block (visit block) fun _ w =>
      Scanned w₀ block w ∧ SameHead w₀.routine w.routine) (V : r.Valid) :
    Ends (scanControlFlow visit) (w.on r) fun _ w' =>
      Sane (w.on r) w' ∧ SameHead r w'.routine := by
  refine scanControlFlow_ends (I := fun w' => Sane (w.on r) w' ∧ SameHead r w'.routine)
    (fun w' s block h hc _ => ?_) ⟨⟨V, Logged.refl _⟩, SameHead.refl r⟩
  have hstart : Scanned (w.on r) block (w'.on s) ∧ SameHead (w.on r).routine s :=
    ⟨Scanned.start h.1 hc, h.2⟩
  exact (scan_ends hvisit hstart).mono fun _ w'' t ⟨_, hs, _⟩ => ⟨hs.1.toSane, hs.2⟩

/-- A scan whose visits only look on leaves all as it is. -/
theorem scan_idle {visit : Nat → NodeId → PassM Nat} {w' : Work}
    (hvisit : ∀ index inst, (r.instructions block)[index]? = some inst →
      Ends (visit index inst) (w.on r) fun next w' => next = index + 1 ∧ w' = w.on r)
    (he : w'.on s = w.on r) : Ends (scan block visit) (w'.on s) fun _ w' => w' = w.on r := by
  have hlook : Advances block visit fun _ w' => w' = w.on r := by
    intro w' s index inst he hi
    obtain rfl : s = r := congrArg Work.routine he
    rw [he]
    refine (hvisit index inst hi).mono ?_
    rintro _ w'' q ⟨rfl, hq⟩
    rw [hq]
    exact ⟨rfl, length_sub_succ_lt hi⟩
  exact (scan_ends hlook he).mono fun _ _ _ ⟨_, hend, _⟩ => hend

/-- A pass over the control-flow blocks whose visits only look on leaves all as it is. -/
theorem scanControlFlow_idle {visit : NodeId → Nat → NodeId → PassM Nat}
    (hvisit : ∀ block index inst, r.isConnected block = true →
      r.blockKind? block = some .controlFlow → (r.instructions block)[index]? = some inst →
      Ends (visit block index inst) (w.on r) fun next w' => next = index + 1 ∧ w' = w.on r) :
    Ends (scanControlFlow visit) (w.on r) fun _ w' => w' = w.on r := by
  refine scanControlFlow_ends (fun w' s block he hc hkind => ?_) rfl
  obtain rfl : s = r := congrArg Work.routine he
  exact scan_idle (hvisit block · · hc hkind) he

/-- A pass over the entry blocks whose visits only look on leaves all as it is. -/
theorem scanEntries_idle {visit : NodeId → Nat → NodeId → PassM Nat}
    (hvisit : ∀ container block index inst, r.isConnected container = true →
      r.entry? container = some block → (r.instructions block)[index]? = some inst →
      Ends (visit block index inst) (w.on r) fun next w' => next = index + 1 ∧ w' = w.on r) :
    Ends (scanEntries visit) (w.on r) fun _ w' => w' = w.on r := by
  refine scanEntries_ends (fun w' s container block he hc hentry => ?_) rfl
  obtain rfl : s = r := congrArg Work.routine he
  exact scan_idle (hvisit container block · · hc hentry) he

namespace Routine

variable {k : NodeId}

/-- A self-store is no container. -/
theorem not_redundant_of_container (h : r.isContainer k = true) :
    r.isRedundant settings k = false := by
  have hstobj : r.stobj? k = none := by
    refine Option.eq_none_iff_forall_ne_some.mpr fun parts hparts => ?_
    rw [isContainer, (stobj?_eq_some.mp hparts).1] at h
    cases h
  have hstloc : r.stloc? k = none := by
    refine Option.eq_none_iff_forall_ne_some.mpr fun parts hparts => ?_
    rw [isContainer, (stloc?_eq_some.mp hparts).1] at h
    cases h
  rw [isRedundant, refillsField, hstobj, copiesNamesake, hstloc, Bool.and_false]
  rfl

theorem not_container_of_redundant (h : r.isRedundant settings k = true) :
    r.isContainer k = false := by
  rw [← Bool.not_eq_true]
  intro hc
  rw [not_redundant_of_container hc] at h
  cases h

end Routine

namespace SelfStore

theorem visit_advances : Advances block
    (visit { settings, inliner := Inliner.singleUse } block) fun _ w =>
      Scanned w₀ block w ∧ SameHead w₀.routine w.routine := by
  intro w r index inst h hi
  refine Ends.bind (Ends.routine ?_)
  split
  · next hred => exact vacate_advances h.1 h.2 hi (not_container_of_redundant hred)
  · exact Ends.pure ⟨h, length_sub_succ_lt hi⟩

theorem run_ends (V : r.Valid) :
    Ends (pass.run { settings, inliner := Inliner.singleUse }) (w.on r) fun _ w' =>
      Sane (w.on r) w' ∧ SameHead r w'.routine := by
  show Ends (if settings.dropSelfStores then _ else _) _ _
  split
  · exact scanControlFlow_sane visit_advances V
  · exact Ends.pure ⟨⟨V, Logged.refl _⟩, SameHead.refl r⟩

end SelfStore

/-! ## Aliases -/

namespace Routine

variable {v : VarId}

/-- Whether a variable is a receiver. -/
def isReceiver (r : Routine) (v : VarId) : Bool := (r.var? v).any (·.isReceiver)

/-- Whether a variable is an alias if its store has a load of the receiver: it has a generated
    name, one store and no address taken. -/
def isCandidate (r : Routine) (settings : Settings) (v : VarId) : Bool :=
  (r.var? v).any fun x => !x.isReceiver && settings.isGenerated x.name && x.stores.length == 1 &&
    x.addresses.isEmpty

theorem isCandidate_eq_true : r.isCandidate settings v = true ↔
    ∃ x, r.var? v = some x ∧ x.isReceiver = false ∧ settings.isGenerated x.name = true ∧
      x.stores.length = 1 ∧ x.addresses = [] := by
  simp only [isCandidate, Option.any_eq_true, Bool.and_eq_true, Bool.not_eq_true', beq_iff_eq,
    List.isEmpty_iff, and_assoc]

theorem not_receiver_of_candidate (h : r.isCandidate settings v = true) :
    r.isReceiver v = false := by
  obtain ⟨x, hx, hrecv, _⟩ := isCandidate_eq_true.mp h
  rw [isReceiver, hx]
  exact hrecv

theorem SameHead.isReceiver (h : SameHead r s) (v : VarId) : s.isReceiver v = r.isReceiver v := by
  have hv := congrArg (Option.any Variable.isReceiver) (h.var? v)
  rwa [Option.any_map, Option.any_map] at hv

end Routine

namespace Alias

variable {var : VarId} {receiver : NodeId}

/-- An alias is a candidate whose store has a load of the receiver. -/
theorem alias?_eq_some (F : r.Forest) : r.alias? settings inst = some (var, receiver) ↔
    ∃ this, r.Holds (.node inst (.stloc var) [.node receiver (.ldloc this) []]) ∧
      r.isCandidate settings var = true ∧ r.isReceiver this = true := by
  simp only [alias?, Option.bind_eq_bind, Option.bind_eq_some_iff]
  constructor
  · rintro ⟨⟨v, value⟩, hst, x, hx, h⟩
    split_ifs at h with hc
    cases h
    simp only [Bool.and_eq_true, Bool.not_eq_true', beq_iff_eq, List.isEmpty_iff] at hc
    obtain ⟨⟨⟨⟨hrecv, hname⟩, hload⟩, hstores⟩, haddresses⟩ := hc
    obtain ⟨hop, hchildren⟩ := stloc?_eq_some.mp hst
    obtain ⟨y, hload⟩ := Option.isSome_iff_exists.mp hload
    obtain ⟨this, hld, hy, hthis⟩ := receiverLoad?_eq_some.mp hload
    refine ⟨this, .unary hop hchildren (.leaf hld (F.children_of_ldloc hld)),
      isCandidate_eq_true.mpr ⟨x, hx, hrecv, hname, hstores, haddresses⟩, ?_⟩
    rw [isReceiver, hy]
    exact hthis
  · rintro ⟨this, hstore, hvar, hthis⟩
    obtain ⟨x, hx, hrecv, hname, hstores, haddresses⟩ := isCandidate_eq_true.mp hvar
    obtain ⟨y, hy, hthis⟩ := (Option.any_eq_true _ _).mp hthis
    have hload : r.receiverLoad? receiver = some y :=
      receiverLoad?_eq_some.mpr ⟨this, (hstore.operand (List.mem_singleton_self _)).op?, hy, hthis⟩
    refine ⟨(var, receiver), stloc?_eq_some.mpr ⟨hstore.op?, hstore.children⟩, x, hx, ?_⟩
    rw [hrecv, hname, hload, hstores, haddresses]
    rfl

/-- The variables of the store of an alias are different. -/
theorem alias?_spec (h : r.alias? settings inst = some (var, receiver)) (F : r.Forest) :
    ∃ this, this ≠ var ∧ r.Holds (.node inst (.stloc var) [.node receiver (.ldloc this) []]) := by
  obtain ⟨this, hstore, hvar, hthis⟩ := (alias?_eq_some F).mp h
  refine ⟨this, ?_, hstore⟩
  rintro rfl
  rw [not_receiver_of_candidate hvar] at hthis
  cases hthis

/-- What holds while the loads of an alias are replaced. -/
structure Replacing (w₀ : Work) (block : NodeId) (index length : Nat) (store : Tree NodeId)
    (var : VarId) (loads : List NodeId) (w : Work) : Prop
    extends Standing w₀ block index length store w where
  nodup : loads.Nodup
  loads : ∀ load ∈ loads, w.routine.op? load = some (.ldloc var) ∧
    w.routine.isConnected load = true

/-- Replacing a load is a graft of one load of the receiver, with one event. -/
theorem replaceLoad_ends {this : VarId} {load : NodeId} (V : r.Valid)
    (hreceiver : r.op? receiver = some (.ldloc this)) (hop : r.op? load = some (.ldloc var))
    (hconn : r.isConnected load = true) {Q : Unit → Work → Prop}
    (h : ∀ p n (e : Event) s, Grafted r load p (.node n (.ldloc this) []) s →
      e.kind = .loadReplaced → Logged (w.on r) ((w.noted e).on s) → Q () ((w.noted e).on s)) :
    Ends (do
      let copy ← PassM.edit (Edit.clone receiver)
      PassM.edit (Edit.replace load copy)
      PassM.noteNode name .loadReplaced index copy) (w.on r) Q := by
  have F := V.forest
  obtain ⟨p, hp⟩ := F.exists_parent hconn (isContainer_of_op? hop)
  obtain ⟨m, u, hclone, S, hbare⟩ :=
    Edit.clone_sprout F (Holds.leaf hreceiver (F.children_of_ldloc hreceiver))
  obtain ⟨n, rfl⟩ := Tree.exists_leaf_of_bare hbare
  obtain ⟨s, hreplace, G⟩ :=
    S.graft V hp hconn (isBlock_of_op? hop) rfl Tree.placed_leaf
  refine Ends.bind (Ends.edit hclone (Ends.bind (Ends.edit hreplace
    (Ends.noteNode fun e hkind hmethod => h p n e s G hkind ?_))))
  exact Logged.single hkind (G.head.token ▸ hmethod) (.replaced rfl G hconn (isBlock_of_op? hop)
    (isContainer_of_op? hop) (.inl (Tree.plain_leaf rfl rfl)))

/-- One load fewer is to be replaced. -/
theorem Replacing.graft {this : VarId} (hthis : this ≠ var) {length : Nat} {load p n : NodeId}
    {rest : List NodeId} {w' : Work}
    (h : Replacing w₀ block index length (.node inst (.stloc var) [.node receiver (.ldloc this) []])
      var (load :: rest) (w.on r))
    (G : Grafted r load p (.node n (.ldloc this) []) s) (hlog : Logged (w.on r) (w'.on s)) :
    Replacing w₀ block index length (.node inst (.stloc var) [.node receiver (.ldloc this) []])
      var rest (w'.on s) := by
  have V : r.Valid := h.valid
  have F := V.forest
  obtain ⟨hnot, hnodup⟩ := List.nodup_cons.mp h.nodup
  obtain ⟨hop, hconn⟩ : r.op? load = some (.ldloc var) ∧ r.isConnected load = true :=
    h.loads load List.mem_cons_self
  have hstore : r.Holds (.node inst (.stloc var) [.node receiver (.ldloc this) []]) := h.holds
  have hleaf := F.children_of_ldloc hop
  -- the load is none of the nodes of the store: their operations are different
  have hother : ∀ k, k = inst ∨ k = receiver → k ≠ load := by
    rintro k (rfl | rfl) rfl
    · cases hop.symm.trans hstore.op?
    · cases hop.symm.trans (hstore.operand (List.mem_singleton_self _)).op?
      exact hthis rfl
  have hbne : block ≠ load := by
    rintro rfl
    have hb : r.isBlock block = true := (getElem?_instructions h.at_index).1
    rw [isBlock, hop] at hb
    cases hb
  have hstays := h.toStanding.graft G hlog (Holds.leaf hop hleaf) rfl
    (by simpa [Tree.mem_labels_node] using
      ⟨(hother inst (.inl rfl)).symm, (hother receiver (.inr rfl)).symm⟩)
    (by simpa [Tree.mem_labels_node] using hother inst (.inl rfl))
    (by simpa [Tree.mem_labels_node] using hbne)
  refine ⟨hstays, hnodup, fun l hl => ?_⟩
  obtain ⟨hlop, hlconn⟩ : r.op? l = some (.ldloc var) ∧ r.isConnected l = true :=
    h.loads l (List.mem_cons_of_mem _ hl)
  have hne : l ≠ load := by
    rintro rfl
    exact hnot hl
  have hl' : s.isAlive l = true := (G.isAlive_iff F (isAlive_of_op? hlop)).mpr fun hab =>
    hne (F.eq_of_above_leaf hleaf hab)
  exact ⟨(G.kept.op l (isAlive_of_op? hlop) hl').trans hlop, G.kept.connected l hlconn hl'⟩

/-- The loop over the loads of an alias keeps what each graft keeps. -/
theorem replaceLoads_ends {this : VarId} (hthis : this ≠ var) {length : Nat} {loads : List NodeId}
    {I : List NodeId → Work → Prop}
    (hstep : ∀ load rest p n (w : Work) (e : Event) r s, I (load :: rest) (w.on r) →
      Replacing w₀ block index length
        (.node inst (.stloc var) [.node receiver (.ldloc this) []]) var (load :: rest) (w.on r) →
      Grafted r load p (.node n (.ldloc this) []) s → e.kind = .loadReplaced →
      I rest ((w.noted e).on s))
    (hstart : I loads (w.on r))
    (h : Replacing w₀ block index length (.node inst (.stloc var) [.node receiver (.ldloc this) []])
      var loads (w.on r)) :
    Ends (replaceLoads index receiver loads) (w.on r) fun _ w' => I [] w' ∧
      Replacing w₀ block index length (.node inst (.stloc var) [.node receiver (.ldloc this) []])
        var [] w' := by
  refine Ends.forM (I := fun loads w => I loads w ∧ Replacing w₀ block index length
    (.node inst (.stloc var) [.node receiver (.ldloc this) []]) var loads w)
    (fun load rest w r h => ?_) ⟨hstart, h⟩
  obtain ⟨hop, hconn⟩ : r.op? load = some (.ldloc var) ∧ r.isConnected load = true :=
    h.2.loads load List.mem_cons_self
  have hreceiver := (h.2.holds.operand (List.mem_singleton_self _)).op?
  refine replaceLoad_ends h.2.valid hreceiver hop hconn fun p n e s G hkind hlog => ?_
  exact ⟨hstep load rest p n w e r s h.1 h.2 G hkind, h.2.graft hthis G hlog⟩

theorem visit_advances : Advances block
    (visit { settings, inliner := Inliner.singleUse } block) fun _ w =>
      Scanned w₀ block w ∧ SameHead w₀.routine w.routine := by
  intro w r index inst ⟨h, hhead⟩ hi
  have V : r.Valid := h.valid
  refine Ends.bind (Ends.routine ?_)
  cases ha : r.alias? settings inst with
  | none => exact Ends.pure ⟨⟨h, hhead⟩, length_sub_succ_lt hi⟩
  | some pair =>
    obtain ⟨var, receiver⟩ := pair
    obtain ⟨this, hthis, hstore⟩ := alias?_spec ha V.forest
    have hstart : Replacing w₀ block index (r.instructions block).length
        (.node inst (.stloc var) [.node receiver (.ldloc this) []]) var (r.loads var) (w.on r) :=
      ⟨⟨h, hi, rfl, hstore⟩, V.nodup_loads var, fun load hl => V.op?_of_mem_loads hl⟩
    refine (replaceLoads_ends (I := fun _ w => SameHead w₀.routine w.routine) hthis
      (fun _ _ _ _ _ _ _ _ h _ G _ => h.trans G.head) hhead hstart).andThen
      fun _ w' s ⟨hhead', h'⟩ => ?_
    rw [← h'.length_eq]
    exact vacate_advances h'.toScanned hhead' h'.at_index (isContainer_of_op? h'.holds.op?)

theorem run_ends (V : r.Valid) :
    Ends (pass.run { settings, inliner := Inliner.singleUse }) (w.on r) fun _ w' =>
      Sane (w.on r) w' ∧ SameHead r w'.routine := by
  refine Ends.bind (Ends.routine ?_)
  split
  · exact scanControlFlow_sane visit_advances V
  · exact Ends.pure ⟨⟨V, Logged.refl _⟩, SameHead.refl r⟩

end Alias

namespace CapturedReceiver

theorem visit_advances : Advances block
    (visit { settings, inliner := Inliner.singleUse } block) fun _ => Scanned w₀ block := by
  intro w r index inst h hi
  have V : r.Valid := h.valid
  refine Ends.bind (Ends.routine ?_)
  cases hc : r.capture? settings inst with
  | none => exact Ends.pure ⟨h, length_sub_succ_lt hi⟩
  | some c =>
    obtain ⟨_, _, this, ht, ⟨x, hx, _⟩, _⟩ := capture?_spec V.forest hc
    have hthis := ((ht.operand (List.mem_singleton_self _)).operand (List.mem_singleton_self _)).op?
    refine fold_ends h hi hc hthis fun w' s hrefolded => ?_
    have V₁ : (c.retyped r).Valid := V.retype c.holder c.receiverType
    have hx₁ := var?_holder_retyped hx
    have hlength : (s.instructions block).length = (r.instructions block).length :=
      hrefolded.length_eq
    generalize c.retyped r = r₁ at *
    have hremoving : Removing r₁ w₀ block ((s.instructions block).length - (index + 1))
        ((r₁.capturePlan c).forwards.map (·.store)) (index + 1) (w'.on s) := by
      refine ⟨hrefolded.toScanned, hrefolded.kept, fun st hst => (stores_spec V₁ hx₁ hst).1,
        fun st hst => ?_, Nat.le_refl _⟩
      obtain ⟨_, type, hop⟩ := stores_spec V₁ hx₁ hst
      exact isContainer_of_op? hop
    refine (removeForwards_ends (fun stores next w s placed h hlast => remove_step h hlast)
      hremoving).mono ?_
    rintro next w'' s' ⟨left, hend, _⟩
    have hleft : (s'.instructions block).length - next ≤
        (s.instructions block).length - (index + 1) := hend.left
    refine ⟨hend.toScanned, Nat.lt_of_le_of_lt hleft ?_⟩
    rw [hlength]
    exact length_sub_succ_lt hi

theorem run_ends (V : r.Valid) :
    Ends (pass.run { settings, inliner := Inliner.singleUse }) (w.on r) fun _ => Sane (w.on r) := by
  show Ends (if settings.foldCaptures then _ else _) _ _
  split
  · refine scanEntries_ends (fun w' s container block h hc hb => ?_) ⟨V, Logged.refl _⟩
    have hconn : s.isConnected block = true := h.valid.forest.isConnected_entry hc hb
    refine (scan_ends visit_advances (Scanned.start h hconn)).mono ?_
    exact fun _ w'' t ⟨_, hs, _⟩ => hs.toSane
  · exact Ends.pure ⟨V, Logged.refl _⟩

end CapturedReceiver

/-! ## Application -/

namespace Pass

/-- The passes over a routine. -/
def all : List Pass := [CapturedReceiver.pass, SelfStore.pass, Alias.pass]

variable {pass : Pass}

theorem run_ends (hpass : pass ∈ all) (V : r.Valid) :
    Ends (pass.run { settings, inliner := Inliner.singleUse }) (w.on r) fun _ => Sane (w.on r) := by
  simp only [all, List.mem_cons, List.not_mem_nil, or_false] at hpass
  rcases hpass with rfl | rfl | rfl
  · exact CapturedReceiver.run_ends V
  · exact (SelfStore.run_ends V).mono fun _ _ _ h => h.1
  · exact (Alias.run_ends V).mono fun _ _ _ h => h.1

theorem announce_ends {token : Token} {kind : EventKind} {message : String} {Q : Unit → Work → Prop}
    (h : ∀ e : Event, e.kind = kind → e.method = some token → e.pass = some pass.name →
      Q () ((w.noted e).on r)) : Ends (announce pass token kind message) (w.on r) Q :=
  Ends.record (h _ rfl rfl rfl)

theorem recheck_ends {token : Token} {Q : Unit → Work → Prop} (V : r.Valid) (h : Q () (w.on r)) :
    Ends (recheck pass token) (w.on r) Q := by
  refine Ends.bind (Ends.routine ?_)
  rw [V.validate]
  exact Ends.pure h

theorem apply_ends (hpass : pass ∈ all) (V : r.Valid) :
    Ends (apply pass { settings, inliner := Inliner.singleUse }) (w.on r) fun _ w' =>
      w'.routine.Valid ∧ ∃ started edits completed,
        w'.log.events = w.log.events ++ started :: edits ++ [completed] ∧
        started.kind = .passStarted ∧ completed.kind = .passCompleted ∧
        (∀ e ∈ edits, e.kind.isEdit = true) ∧
        ∀ e ∈ started :: edits ++ [completed], e.method = some r.token := by
  refine Ends.bind (Ends.routine (Ends.bind (announce_ends fun started hkind hmethod _ => ?_)))
  refine (run_ends hpass V).andThen fun _ w' s ⟨V', hlog⟩ => ?_
  have hend : Ends (announce pass r.token .passCompleted EventKind.passCompleted.description)
      (w'.on s) fun _ w' => w'.routine.Valid ∧ ∃ started edits completed,
        w'.log.events = w.log.events ++ started :: edits ++ [completed] ∧
        started.kind = .passStarted ∧ completed.kind = .passCompleted ∧
        (∀ e ∈ edits, e.kind.isEdit = true) ∧
        ∀ e ∈ started :: edits ++ [completed], e.method = some r.token := by
    refine announce_ends fun completed hkind' hmethod' _ => ⟨V', ?_⟩
    obtain ⟨edits, hevents, hreports⟩ := hlog
    have hedits := hreports.events
    refine ⟨started, edits, completed, ?_, hkind, hkind', fun e he => (hedits e he).1,
      fun e he => ?_⟩
    · show w'.log.events ++ [completed] = _
      have hevents : w'.log.events = (w.log.events ++ [started]) ++ edits := hevents
      rw [hevents, List.append_assoc, List.append_assoc, List.append_assoc]
      rfl
    · rcases List.mem_append.mp he with he | he
      · rcases List.mem_cons.mp he with rfl | he
        · exact hmethod
        · exact (hedits e he).2
      · rw [List.mem_singleton.mp he]
        exact hmethod'
  split
  · exact Ends.bind (recheck_ends V' hend)
  · exact hend

/-- On a routine that was built through the interface and is valid, a pass comes to its end and
    leaves a valid routine. In particular it meets no index out of range, steps back no further
    than to the front of a block and leaves no instruction unvisited, since all these are
    refusals. Applied, it records its start, the edits and its end, all about that routine. -/
theorem returns_on_valid (hreach : Reachable w.routine) (hvalid : w.routine.validate = .ok ())
    (hpass : pass ∈ all) (settings : Settings) :
    (∃ w', pass.run { settings, inliner := Inliner.singleUse } w = .ok () w' ∧
      w'.routine.validate = .ok ()) ∧
    ∃ w' started edits completed,
      pass.apply { settings, inliner := Inliner.singleUse } w = .ok () w' ∧
      w'.routine.validate = .ok () ∧
      w'.log.events = w.log.events ++ started :: edits ++ [completed] ∧
      started.kind = .passStarted ∧ completed.kind = .passCompleted ∧
      (∀ e ∈ edits, e.kind.isEdit = true) ∧
      ∀ e ∈ started :: edits ++ [completed], e.method = some w.routine.token := by
  have V := (Routine.valid_iff hreach).mp hvalid
  constructor
  · obtain ⟨_, w', hrun, hsane⟩ : Ends (pass.run { settings, inliner := Inliner.singleUse }) w _ :=
      run_ends hpass V
    exact ⟨w', hrun, hsane.valid.validate⟩
  · obtain ⟨_, w', happly, V', started, edits, completed, hlog⟩ :
      Ends (apply pass { settings, inliner := Inliner.singleUse }) w _ := apply_ends hpass V
    exact ⟨w', started, edits, completed, happly, V'.validate, hlog⟩

/-- A routine with a self-store, which the pass for these removes. -/
theorem returns_on_self_store : ∃ r : Routine, Reachable r ∧ r.validate = .ok () ∧
    r.liveCount = 4 ∧ ∃ w', SelfStore.pass.run { settings := {}, inliner := Inliner.singleUse }
      { routine := r } = .ok () w' ∧ w'.routine.liveCount = 2 ∧ w'.routine.validate = .ok () := by
  have h0 := Reachable.empty ⟨0x06000001⟩ "Draw"
  have h1 := Reachable.called (.declare .localSlot 0 "x" .void) h0 rfl
  have h2 := Reachable.called (.newBlock ⟨0⟩ .controlFlow) h1 rfl
  have h3 := Reachable.called (.load ⟨0⟩) h2 rfl
  have h4 := Reachable.called (.create (.stloc ⟨0⟩) [⟨2⟩]) h3 rfl
  have h5 := Reachable.called (.push ⟨1⟩ ⟨3⟩) h4 rfl
  have hpass : SelfStore.pass ∈ all := List.mem_cons_of_mem _ List.mem_cons_self
  obtain ⟨⟨w', hrun, hvalid⟩, _⟩ := returns_on_valid (w := { routine := _ }) h5 rfl hpass {}
  exact ⟨_, h5, rfl, rfl, w', hrun, by cases hrun; rfl, hvalid⟩

end Pass

end CilFold
