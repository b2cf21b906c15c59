/-
  The pass that folds captured receivers, run on its own output.

  A fold removes the forwarding stores of a capture object, and after each removal the inliner
  folds definitions into the instruction behind the gap. If the scan has passed this instruction,
  it may become the construction of another capture object and stay; a second run then folds it
  (`second_run_folds_of_loaded`). So does a construction in a container that was copied with an
  `unbox` (`second_run_folds_copy`). If no holder is loaded before it is stored, all forwarding
  stores lie ahead of the construction, and the scan steps back in front of whatever their removal
  changes. If moreover containers are instructions of blocks, none is copied, and a second run
  changes nothing (`run_folds_once`).
-/
import CilFold.Proofs.CaptureEffect
import CilFold.Proofs.HolderOrder

namespace CilFold

open Routine PassM

namespace Routine

variable {r s : Routine} {block id inst p : NodeId} {u : Tree NodeId} {index count : Nat}
  {settings : Settings} {front : List NodeId}

/-- What a scan has not passed is in none of the blocks in front, and not in front of the index. -/
theorem ahead_of_not_passed {owner store : NodeId} {position : Nat}
    (hi : (r.instructions owner)[position]? = some store)
    (hnot : store ∉ r.passed front block index) :
    owner ∉ front ∧ (owner = block → index ≤ position) := by
  rw [passed, List.mem_append, not_or] at hnot
  refine ⟨fun hmem => hnot.1 (List.mem_flatMap.mpr ⟨owner, hmem, List.mem_of_getElem? hi⟩), ?_⟩
  rintro rfl
  by_contra hlt
  exact hnot.2 (List.mem_of_getElem? ((List.getElem?_take_of_lt (by omega)).trans hi))

/-- A graft makes none of the passed instructions construct a capture object. -/
theorem Grafted.not_constructs (G : Grafted r id p u s) (F : r.Forest) {l : List NodeId}
    (halive : ∀ i ∈ l, r.isAlive i = true) (hclear : ∀ i ∈ l, i ≠ id → ¬ r.Constructs settings i)
    (hcall : ∀ site, u.op ≠ .call site) (hload : ∀ v, u.op = .ldloc v → ∀ i ∈ l, ¬ r.Shows i id)
    (htop : ¬ s.Constructs settings u.label) :
    ∀ i ∈ l.map (fun i => if i = id then u.label else i), ¬ s.Constructs settings i := by
  intro k hk
  obtain ⟨i, hi, rfl⟩ := List.mem_map.mp hk
  split_ifs with hid
  · exact htop
  · intro h
    rcases h.of_graft G F (halive i hi) hid hcall with h | ⟨hshows, v, hv, _⟩
    · exact hclear i hi hid h
    · exact hload v hv i hi hshows

/-- After a removal ahead of a scan, what the scan has passed was passed before and does not begin
    to construct a capture object. -/
theorem Vacated.passed {blocks : List NodeId} {next last : Nat} {owner : NodeId}
    (hv : Vacated owner index inst count r s) (h : Scene settings blocks r)
    (hi : (r.instructions owner)[index]? = some inst) (hblocks : ∀ b ∈ block :: front, b ∈ blocks)
    (hfront : owner ∉ front) (hlast : last ≤ next) (hpos : owner = block → last ≤ index - count) :
    ∀ i ∈ s.passed front block last, i ∈ r.passed front block next ∧
      (s.Constructs settings i → r.Constructs settings i) := by
  obtain ⟨hblock, hfronts⟩ := List.forall_mem_cons.mp hblocks
  intro i hi'
  rcases List.mem_append.mp hi' with hmem | hmem
  · obtain ⟨b, hb, hmem⟩ := List.mem_flatMap.mp hmem
    obtain ⟨k, hk⟩ := List.getElem?_of_mem hmem
    obtain ⟨hc, hbb⟩ := h.placed b (hfronts b hb)
    obtain ⟨hr, hsame⟩ := hv.undisturbed h.valid h.orderly hi hc hbb hk fun he =>
      absurd (he ▸ hb) hfront
    exact ⟨List.mem_append_left _ (List.mem_flatMap.mpr ⟨b, hb, List.mem_of_getElem? hr⟩),
      fun hs => hs.of_vacated hv hsame⟩
  · obtain ⟨k, hk⟩ := List.getElem?_of_mem hmem
    obtain ⟨hlt, _⟩ := List.getElem?_eq_some_iff.mp hk
    rw [List.length_take] at hlt
    rw [List.getElem?_take_of_lt (by omega)] at hk
    obtain ⟨hc, hbb⟩ := h.placed block hblock
    obtain ⟨hr, hsame⟩ := hv.undisturbed h.valid h.orderly hi hc hbb hk fun he => by
      have := hpos he.symm
      omega
    have hnext : k < next := by omega
    refine ⟨List.mem_append_right _ ?_, fun hs => hs.of_vacated hv hsame⟩
    exact List.mem_of_getElem? ((List.getElem?_take_of_lt hnext).trans hr)

/-- The tree of a forwarding store. -/
theorem Valid.holds_of_forwards (V : r.Valid) {c : Capture} {f : Forward}
    (hf : f ∈ (r.capturePlan c).forwards) : ∃ a load type value,
      r.Holds (.node f.store (.stobj type)
        [.node a (.ldflda f.field) [.node load (.ldloc c.holder) []], value]) ∧
      c.canStand value = true := by
  obtain ⟨load, hl, hf⟩ := List.mem_filterMap.mp (List.mem_of_mem_filter hf)
  obtain ⟨hop, _⟩ := V.op?_of_mem_loads (List.mem_of_mem_filter hl)
  obtain ⟨a, type, _, value, hst, _, _, _, hstand, _⟩ := (forward?_eq_some V.forest hop).mp hf
  exact ⟨a, load, type, value, hst, hstand⟩

/-- A forwarding store loads the variable of the capture object. -/
theorem Valid.mentions_of_forwards (V : r.Valid) {c : Capture} {f : Forward}
    (hf : f ∈ (r.capturePlan c).forwards) : r.Mentions f.store (.ldloc c.holder) := by
  obtain ⟨a, load, type, value, hst, _⟩ := V.holds_of_forwards hf
  refine (hst.mentions_iff V.forest).mpr ?_
  simp [Tree.shown_node, Op.hides]

/-- What a scan has passed are instructions. -/
theorem Scene.alive_of_passed {i : NodeId} {rest : List NodeId}
    (h : Scene settings (front ++ block :: rest) r) (hi : i ∈ r.passed front block index) :
    r.isAlive i = true := by
  have hmem : i ∈ r.passed front block index ++ r.ahead block rest index :=
    List.mem_append_left _ hi
  rw [passed_append_ahead] at hmem
  obtain ⟨b, hb, hmem⟩ := List.mem_flatMap.mp hmem
  rw [instructions, if_pos (h.placed b hb).2] at hmem
  exact isAlive_of_parent? (h.valid.forest.parent?_of_mem hmem)

theorem Scene.passed_eq_map {t : Tree NodeId} {rest : List NodeId}
    (h : Scene settings (front ++ block :: rest) r) (G : Grafted r id p u s) (ht : r.Holds t)
    (hl : t.label = id) (hplain : t.Plain) : s.passed front block index =
      (r.passed front block index).map fun i => if i = id then u.label else i := by
  refine G.passed_eq_map h.valid.forest fun b hb => hl ▸ h.not_above ht hplain b ?_
  rcases List.mem_cons.mp hb with rfl | hb
  · exact List.mem_append_right _ List.mem_cons_self
  · exact List.mem_append_left _ hb

end Routine

namespace CapturedReceiver

variable {w₀ w : Work} {r r₁ s : Routine} {block id inst p : NodeId} {index next : Nat}
  {c : Capture} {settings : Settings} {front rest pending : List NodeId} {t u : Tree NodeId}

/-! ## Replacements -/

/-- What holds while a capture object is folded: nothing that the scan has passed constructs one or
    is among the stores that are to be removed. -/
structure Clearing (r₁ : Routine) (settings : Settings) (front : List NodeId) (block : NodeId)
    (rest pending : List NodeId) (index : Nat) (r : Routine) : Prop where
  scene : Scene settings (front ++ block :: rest) r
  framed : Framed r₁ r
  clear : ∀ i ∈ r.passed front block index, ¬ r.Constructs settings i
  spared : ∀ i ∈ r.passed front block index, i ∉ pending

/-- A graft brings up nothing behind the scan if it takes no load there; what has been in its place
    does not matter. -/
theorem Clearing.of_graft (h : Scene settings (front ++ block :: rest) r) (hframed : Framed r₁ r)
    (hclear : ∀ i ∈ r.passed front block index, i ≠ id →
      ¬ r.Constructs settings i ∧ i ∉ pending)
    (hpending : ∀ st ∈ pending, r₁.isAlive st = true) (G : Grafted r id p u s) (ht : r.Holds t)
    (hl : t.label = id) (hplain : t.Plain) (hu : u.Plain)
    (hshown : ∀ op ∈ u.shown, op.isAccess = true → op ∈ t.shown)
    (hcall : ∀ site, u.op ≠ .call site)
    (hload : ∀ v, u.op = .ldloc v → ∀ i ∈ r.passed front block index, ¬ r.Shows i id)
    (htop : ¬ s.Constructs settings u.label) :
    Clearing r₁ settings front block rest pending index s := by
  have hpassed : s.passed front block index =
      (r.passed front block index).map fun i => if i = id then u.label else i :=
    h.passed_eq_map G ht hl hplain
  refine ⟨h.graft G ht hl hplain hu hshown, hframed.trans (G.framed h.valid ht hl hplain hu),
    ?_, ?_⟩
  · rw [hpassed]
    exact G.not_constructs h.valid.forest (fun i hi => h.alive_of_passed hi)
      (fun i hi hne => (hclear i hi hne).1) hcall hload htop
  · intro k hk hst
    rw [hpassed] at hk
    obtain ⟨i, hi, rfl⟩ := List.mem_map.mp hk
    split_ifs at hst with hne
    · -- the new tree was not there when the stores were found
      have hold := index_lt_of_isAlive (hpending _ hst)
      have hnew := G.fresh _ u.label_mem_labels
      have hsize := hframed.size
      omega
    · exact (hclear i hi hne).2 hst

/-- What holds while the uses of a capture object are replaced: nothing that the scan has passed
    loads its variable. -/
structure Refitting (r₁ : Routine) (settings : Settings) (front : List NodeId) (block : NodeId)
    (rest pending : List NodeId) (index : Nat) (c : Capture) (r : Routine) : Prop
    extends Clearing r₁ settings front block rest pending index r where
  unused : ∀ i ∈ r.passed front block index, ¬ r.Mentions i (.ldloc c.holder)

theorem Refitting.graft (h : Refitting r₁ settings front block rest pending index c r)
    (hpending : ∀ st ∈ pending, r₁.isAlive st = true) (G : Grafted r id p u s) (ht : r.Holds t)
    (hl : t.label = id) (hplain : t.Plain) (hu : u.Plain)
    (hshown : ∀ op ∈ u.shown, op.isAccess = true → op ∈ t.shown)
    (hcall : ∀ site, u.op ≠ .call site) (hstore : ∀ v, u.op ≠ .stloc v)
    (hload : ∀ v, u.op = .ldloc v → .ldloc c.holder ∈ t.shown) :
    Refitting r₁ settings front block rest pending index c s := by
  have F := h.scene.valid.forest
  refine ⟨Clearing.of_graft h.scene h.framed (fun i hi _ => ⟨h.clear i hi, h.spared i hi⟩)
    hpending G ht hl hplain hu hshown hcall (fun v hv i hi hshows => ?_) ?_, fun k hk hm => ?_⟩
  · obtain ⟨k, hk, hkop⟩ := (ht.mentions_iff F).mpr (hload v hv)
    exact h.unused i hi ⟨k, hshows.trans (hl ▸ hk), hkop⟩
  · rintro ⟨v, _, _, _, _, hs, _⟩
    exact hstore v (Option.some.inj (G.new.op?.symm.trans hs.op?))
  · rw [h.scene.passed_eq_map G ht hl hplain] at hk
    obtain ⟨i, hi, rfl⟩ := List.mem_map.mp hk
    refine h.unused i hi (G.mentions F (h.scene.alive_of_passed hi) (fun hm => ?_) hm)
    rw [← hl, ht.mentions_iff F]
    exact hshown _ ((G.new.mentions_iff G.valid.forest).mp hm) rfl

/-- The replacements of a fold bring up nothing behind the scan. -/
theorem keeps_refitting (hpending : ∀ st ∈ pending, r₁.isAlive st = true) :
    c.Keeps (Refitting r₁ settings front block rest pending index c) := by
  intro r s id p u V hreplaces G h
  cases hreplaces with
  | wrapper ht =>
    refine h.graft hpending G ht rfl ?_ ?_ ?_ ?_ ?_ ?_ <;>
      simp [Tree.shown_node, Op.hides, Op.isBlock, Op.isContainer]
  | loaded ht =>
    refine h.graft hpending G ht rfl ?_ ?_ ?_ ?_ ?_ ?_ <;>
      simp [Tree.shown_node, Op.hides, Op.isAccess, Op.isBlock, Op.isContainer]
  | @unboxed load field type t u ht htree hconn hop hbare =>
    have huop : u.op = .unbox type := by
      rw [← Tree.op_bare, hbare, Tree.op_bare, hop]
    have hf : r.isFrame t.label = false :=
      not_isFrame_of_op? (hop ▸ htree.op?) rfl rfl
    have hu : u.Plain := by
      rw [← Tree.plain_bare, hbare, Tree.plain_bare]
      exact h.scene.orderly.plain V htree hconn hf
    refine h.graft hpending G ht rfl ?_ hu ?_ ?_ ?_ ?_
    · simp [Op.isBlock, Op.isContainer]
    · rw [Tree.shown_of_hides (by rw [huop]; rfl), huop]
      simp [Op.isAccess]
    all_goals
      intro _ he
      cases huop.symm.trans he

/-! ## Removals -/

/-- The stores that are to be removed are instructions, and neither blocks nor containers. -/
def Removable (r₁ : Routine) (pending : List NodeId) : Prop :=
  ∀ st ∈ pending, (r₁.isConnected st = true ∧
    ∃ owner, r₁.parent? st = some owner ∧ r₁.isBlock owner = true) ∧ r₁.isFrame st = false

/-- A pending store lies ahead of the scan. When it goes, the scan steps back in front of the
    instruction that definitions were folded into. -/
theorem clear_step {placed : PlacedStore} (hstores : Removable r₁ pending)
    (h : Clearing r₁ settings front block rest pending next s)
    (hlast : s.lastPlaced? pending = some placed) :
    Ends (do
        PassM.noteNode name .instructionRemoved placed.position placed.store
        let inlined ←
          Context.vacate { settings, inliner := Inliner.singleUse } placed.owner placed.position
        if placed.owner == block then rewind next placed.position inlined else pure next)
      (w.on s) fun last w' =>
        Clearing r₁ settings front block rest (dropStore pending placed.store) last w'.routine := by
  have V := h.scene.valid
  obtain ⟨hmem, hconn, hi⟩ := h.framed.toKept.lastPlaced (fun st hst => (hstores st hst).1)
    V.forest hlast
  have halive := isAlive_of_parent? (V.forest.parent?_of_mem
    (List.mem_of_getElem? (getElem?_instructions hi).2))
  have hf : s.isFrame placed.store = false := by
    obtain ⟨⟨hc, _⟩, hno⟩ := hstores _ hmem
    exact (isFrame_congr (h.framed.op _ (isAlive_of_isConnected hc) halive)).trans hno
  obtain ⟨hfront, hahead⟩ := ahead_of_not_passed hi fun hpassed => h.spared _ hpassed hmem
  refine Ends.bind (Ends.noteNode fun e _ _ => ?_)
  refine (Context.vacate_ends V hconn hi).andThen ?_
  rintro inlined w' s' ⟨hv, _⟩
  have hv : Vacated placed.owner placed.position placed.store inlined s s' := hv
  obtain ⟨hscene, hframed⟩ := h.scene.vacated hconn hi hf hv
  have hend : ∀ last ≤ next, (placed.owner = block → last ≤ placed.position - inlined) →
      Clearing r₁ settings front block rest (dropStore pending placed.store) last s' := by
    intro last hle hpos
    have hpassed : ∀ i ∈ s'.passed front block last, i ∈ s.passed front block next ∧
        (s'.Constructs settings i → s.Constructs settings i) :=
      hv.passed h.scene hi (by grind) hfront hle hpos
    refine ⟨hscene, h.framed.trans hframed, fun i hi' hs => ?_, fun i hi' hst => ?_⟩
    · obtain ⟨hr, hback⟩ := hpassed i hi'
      exact h.clear i hr (hback hs)
    · have hst := List.mem_of_mem_erase ((dropStore_perm hmem).mem_iff.mp hst)
      exact h.spared i (hpassed i hi').1 hst
  split
  · next ho =>
    exact rewind_behind (hahead (beq_iff_eq.mp ho)) fun last hle hpos => hend last hle fun _ => hpos
  · next ho =>
    exact Ends.pure (hend next (Nat.le_refl _) fun he => absurd (beq_iff_eq.mpr he) ho)

theorem removeForwards_clears {count : Nat} (hstores : Removable r₁ pending)
    (h : Clearing r₁ settings front block rest pending next s) :
    Ends (removeForwards { settings, inliner := Inliner.singleUse } block count pending next)
      (w.on s) fun last w' => Scene settings (front ++ block :: rest) w'.routine ∧
        Framed r₁ w'.routine ∧
        ∀ i ∈ w'.routine.passed front block last, ¬ w'.routine.Constructs settings i := by
  refine (removeForwards_ends (I := fun pending next w => Removable r₁ pending ∧
    Clearing r₁ settings front block rest pending next w.routine)
    (fun stores next w s placed h hlast => ?_) ⟨hstores, h⟩).mono ?_
  · obtain ⟨hmem, _⟩ := lastPlaced?_eq_some hlast
    refine (clear_step h.1 h.2 hlast).mono fun _ _ _ hend => ⟨fun st hst => ?_, hend⟩
    exact h.1 st (List.mem_of_mem_erase ((dropStore_perm hmem).mem_iff.mp hst))
  · rintro last w' s' ⟨_, ⟨_, hend⟩, _⟩
    exact ⟨hend.scene, hend.framed, hend.clear⟩

/-! ## The fold of a capture object -/

/-- What loads the variable of a capture object comes after its construction. -/
theorem unused_of_construction {new : NodeId} {site : CallSite} {this : VarId}
    (h : Scene settings (front ++ block :: rest) r)
    (hi : (r.instructions block)[index]? = some inst)
    (ht : r.Holds (constructionTree c inst new site this))
    (hholder : r.isHolder settings c.holder = true) :
    ∀ i ∈ r.passed front block index, ¬ r.Mentions i (.ldloc c.holder) := by
  intro i hi' hm
  have horder : (r.passed front block index ++ r.ahead block rest index).Pairwise
      (r.Apart settings) := passed_append_ahead ▸ h.order
  rw [ahead_eq_cons hi] at horder
  have hapart := (List.pairwise_append.mp horder).2.2 i hi' inst List.mem_cons_self
  refine hapart c.holder hholder hm ((ht.mentions_iff h.valid.forest).mpr ?_)
  simp [Tree.shown_node]

theorem Refitting.start (h : Scene settings (front ++ block :: rest) r)
    (hclear : ∀ i ∈ r.passed front block index, ¬ r.Constructs settings i)
    (hunused : ∀ i ∈ r.passed front block index, ¬ r.Mentions i (.ldloc c.holder))
    (hholder : r.isHolder settings c.holder = true) :
    Refitting (c.retyped r) settings front block rest
      (((c.retyped r).capturePlan c).forwards.map (·.store)) index c (c.retyped r) := by
  have hscene := h.retyped (c := c) hholder
  refine ⟨⟨hscene, Framed.refl _, fun i hi h => hclear i hi (h.of_retyped hholder),
    fun i hi hst => ?_⟩, fun i hi hm => hunused i hi hm.of_retyped⟩
  obtain ⟨f, hf, rfl⟩ := List.mem_map.mp hst
  exact hunused _ hi (hscene.valid.mentions_of_forwards hf).of_retyped

/-- When the construction is replaced, the scan may go past it. -/
theorem Refitting.construct {new n l : NodeId} {site : CallSite} {this : VarId}
    (h : Refitting r₁ settings front block rest pending index c r)
    (hpending : ∀ st ∈ pending, r₁.isAlive st = true)
    (hi : (r.instructions block)[index]? = some inst)
    (ht : r.Holds (constructionTree c inst new site this))
    (G : Grafted r inst block (.node n (.stloc c.holder) [.node l (.ldloc this) []]) s) :
    Clearing r₁ settings front block rest pending (index + 1) s := by
  refine Clearing.of_graft h.scene h.framed (fun i hi' hne => ?_) hpending G ht rfl
    (by simp [Op.isBlock, Op.isContainer]) (by simp [Op.isBlock, Op.isContainer])
    (by simp [Tree.shown_node, Op.hides]) (by simp) (by simp) ?_
  · rw [passed_succ hi, List.mem_append, List.mem_singleton] at hi'
    obtain hi' := hi'.resolve_right hne
    exact ⟨h.clear i hi', h.spared i hi'⟩
  · rintro ⟨v, new, site, l, this, hs, _⟩
    cases G.new.unique hs rfl

theorem fold_clears (hscanned : Scanned w₀ block (w.on r))
    (hscene : Scene settings (front ++ block :: rest) r)
    (hclear : ∀ i ∈ r.passed front block index, ¬ r.Constructs settings i)
    (hi : (r.instructions block)[index]? = some inst) (hc : r.capture? settings inst = some c) :
    Ends (fold { settings, inliner := Inliner.singleUse } block index c) (w.on r) fun last w' =>
      Scene settings (front ++ block :: rest) w'.routine ∧ Framed r w'.routine ∧
        ∀ i ∈ w'.routine.passed front block last, ¬ w'.routine.Constructs settings i := by
  have V : r.Valid := hscanned.valid
  obtain ⟨_, _, this, x, _, ht, _, ⟨hx, hgenerated, _⟩, _⟩ := (capture?_eq_some V.forest).mp hc
  have hthis := ((ht.operand (List.mem_singleton_self _)).operand (List.mem_singleton_self _)).op?
  have hholder : r.isHolder settings c.holder = true :=
    (Option.any_eq_true _ _).mpr ⟨x, hx, hgenerated⟩
  have hstart := Refitting.start hscene hclear (unused_of_construction hscene hi ht hholder) hholder
  have hstores : Removable (c.retyped r)
      (((c.retyped r).capturePlan c).forwards.map (·.store)) := by
    intro st hst
    obtain ⟨hslot, type, hop⟩ := stores_spec hstart.scene.valid (var?_holder_retyped hx) hst
    exact ⟨hslot, not_isFrame_of_op? hop rfl rfl⟩
  have hpending := fun st hst => isAlive_of_isConnected (hstores st hst).1.1
  refine fold_keeps (keeps_refitting hpending) hstart hscanned hi hc hthis ?_
  intro w' s q new site n l _ hrefitted hi' ht' G _
  refine (removeForwards_clears hstores (hrefitted.construct hpending hi' ht' G)).mono ?_
  rintro last w'' s' ⟨hscene', hframed', hclear'⟩
  exact ⟨hscene', (Framed.retype c.holder c.receiverType).trans hframed', hclear'⟩

/-! ## The pass -/

/-- What holds while a block is scanned. -/
structure Sweeping (settings : Settings) (w₀ : Work) (front : List NodeId) (block : NodeId)
    (rest : List NodeId) (index : Nat) (w : Work) : Prop extends Scanned w₀ block w where
  scene : Scene settings (front ++ block :: rest) w.routine
  framed : Framed w₀.routine w.routine
  clear : ∀ i ∈ w.routine.passed front block index, ¬ w.routine.Constructs settings i

theorem visit_sweeps : Advances block (visit { settings, inliner := Inliner.singleUse } block)
    (Sweeping settings w₀ front block rest) := by
  intro w r index inst h hi
  have V : r.Valid := h.valid
  have hvisit : Ends (visit { settings, inliner := Inliner.singleUse } block index inst) (w.on r)
      fun next w' => Scene settings (front ++ block :: rest) w'.routine ∧ Framed r w'.routine ∧
        ∀ i ∈ w'.routine.passed front block next, ¬ w'.routine.Constructs settings i := by
    refine Ends.bind (Ends.routine ?_)
    cases hc : r.capture? settings inst with
    | none =>
      refine Ends.pure ⟨h.scene, Framed.refl r, fun i hi' => ?_⟩
      have hi' : i ∈ r.passed front block (index + 1) := hi'
      rw [passed_succ hi, List.mem_append, List.mem_singleton] at hi'
      rcases hi' with hi' | rfl
      · exact h.clear i hi'
      · exact V.forest.capture?_eq_none.mp hc
    | some c => exact fold_clears h.toScanned h.scene h.clear hi hc
  refine ((visit_advances w r index inst h.toScanned hi).and hvisit).mono ?_
  rintro next w' s ⟨⟨hscanned, hless⟩, hscene, hframed, hclear⟩
  exact ⟨⟨hscanned, hscene, h.framed.trans hframed, hclear⟩, hless⟩

/-- What holds between the scans of two blocks. -/
structure Passing (settings : Settings) (w₀ : Work) (todo : List NodeId) (w : Work) : Prop
    extends Sane w₀ w where
  scene : Scene settings w₀.routine.entryBlocks w.routine
  framed : Framed w₀.routine w.routine
  clear : ∃ front, front ++ todo = w₀.routine.entryBlocks ∧
    ∀ i ∈ front.flatMap w.routine.instructions, ¬ w.routine.Constructs settings i

theorem scan_passes (h : Passing settings w₀ (block :: rest) (w.on r)) :
    Ends (scan block (visit { settings, inliner := Inliner.singleUse } block)) (w.on r)
      fun _ => Passing settings w₀ rest := by
  obtain ⟨front, hentries, hclear⟩ := h.clear
  have hscene : Scene settings (front ++ block :: rest) r := hentries ▸ h.scene
  have hc := (hscene.placed block (List.mem_append_right _ List.mem_cons_self)).1
  have hstart : Sweeping settings w₀ front block rest 0 (w.on r) := by
    refine ⟨Scanned.start h.toSane hc, hscene, h.framed, fun i hi => hclear i ?_⟩
    have hi : i ∈ r.passed front block 0 := hi
    rwa [passed, List.take_zero, List.append_nil] at hi
  refine (scan_ends visit_sweeps hstart).mono ?_
  rintro _ w' s ⟨last, hend, hlast⟩
  refine ⟨hend.toSane, hentries ▸ hend.scene, hend.framed, front ++ [block], ?_, fun i hi => ?_⟩
  · rw [List.append_assoc]
    exact hentries
  · have hlast : (s.instructions block).length ≤ last := hlast
    refine hend.clear i ?_
    show i ∈ s.passed front block last
    rw [passed, List.take_of_length_le hlast]
    rwa [List.flatMap_append, List.flatMap_singleton] at hi

theorem scanEntries_passes (V : r.Valid) (O : r.Orderly) (hfirst : r.StoresFirst settings) :
    Ends (scanEntries (visit { settings, inliner := Inliner.singleUse })) (w.on r)
      fun _ => Passing settings (w.on r) [] := by
  refine scanEntries_each V (fun _ _ h => h.framed) (fun block todo w s h => scan_passes h) ?_
  refine ⟨⟨V, Logged.refl _⟩, ⟨V, O, fun b hb => ?_, hfirst.inOrder V.forest⟩, Framed.refl r,
    [], rfl, fun i hi => absurd hi List.not_mem_nil⟩
  obtain ⟨c, hc, _, hentry⟩ := V.mem_entryBlocks.mp hb
  exact (V.block_of_mem_blocks hc (mem_blocks_of_entry hentry)).2

/-! ## Idempotence -/

/-- No entry block of the tree constructs a capture object. -/
def Normal (settings : Settings) (r : Routine) : Prop :=
  ∀ container block, r.isConnected container = true → r.entry? container = some block →
    ∀ inst ∈ r.instructions block, r.capture? settings inst = none

theorem Passing.normal (h : Passing settings w₀ [] w) (V₀ : w₀.routine.Valid) :
    Normal settings w.routine := by
  intro container block hc hentry inst hinst
  obtain ⟨front, hentries, hclear⟩ := h.clear
  rw [List.append_nil] at hentries
  have hcontainer : w.routine.isContainer container = true := by
    have hmem := mem_blocks_of_entry hentry
    unfold blocks at hmem
    split_ifs at hmem with hcontainer
    · exact hcontainer
    · cases hmem
  obtain ⟨hc₀, hop⟩ := h.framed.op_old hc (isFrame_of_isContainer hcontainer)
  have hcontainer₀ := (isContainer_congr hop).trans hcontainer
  refine h.valid.forest.capture?_eq_none.mpr (hclear inst (List.mem_flatMap.mpr ⟨block, ?_, hinst⟩))
  rw [hentries]
  refine V₀.mem_entryBlocks.mpr ⟨container, hc₀, hcontainer₀, ?_⟩
  unfold entry?
  rw [← h.framed.blocks_eq hc₀ hcontainer₀]
  exact hentry

/-- On a routine whose entry blocks construct no capture object the pass does nothing. -/
theorem run_of_normal (h : settings.foldCaptures = true → Normal settings r) :
    Ends (pass.run { settings, inliner := Inliner.singleUse }) (w.on r)
      fun _ w' => w' = w.on r := by
  show Ends (if settings.foldCaptures then _ else _) _ _
  split
  · next hon =>
    refine scanEntries_idle fun container block index inst hc hentry hi => ?_
    refine Ends.bind (Ends.routine ?_)
    rw [h hon container block hc hentry inst (List.mem_of_getElem? hi)]
    exact Ends.pure ⟨rfl, rfl⟩
  · exact Ends.pure rfl

theorem run_normalizes (V : r.Valid) (O : r.Orderly) (hfirst : r.StoresFirst settings) :
    Ends (pass.run { settings, inliner := Inliner.singleUse }) (w.on r)
      fun _ w' => settings.foldCaptures = true → Normal settings w'.routine := by
  show Ends (if settings.foldCaptures then _ else _) _ _
  split
  · exact (scanEntries_passes V O hfirst).mono fun _ _ _ h _ => h.normal V
  · next hoff => exact Ends.pure fun hon => absurd hon hoff

/-- If, in the order of the scan, no variable of a generated type is loaded before it is stored,
    and containers are the body and instructions of blocks, the pass leaves no construction of a
    capture object in any entry block of the tree, and a second run leaves all as it is: the
    routine and the log. -/
theorem run_folds_once (hreach : Reachable w.routine) (hvalid : w.routine.validate = .ok ())
    (horderly : w.routine.Orderly) (settings : Settings)
    (hfirst : w.routine.StoresFirst settings) :
    ∃ w', pass.run { settings, inliner := Inliner.singleUse } w = .ok () w' ∧
      (settings.foldCaptures = true → ∀ container block,
        w'.routine.isConnected container = true → w'.routine.entry? container = some block →
        ∀ inst ∈ w'.routine.instructions block, w'.routine.capture? settings inst = none) ∧
      pass.run { settings, inliner := Inliner.singleUse } w' = .ok () w' := by
  have V := (valid_iff hreach).mp hvalid
  obtain ⟨_, w', hrun, hnormal⟩ : Ends (pass.run _) w _ := run_normalizes (w := w) V horderly hfirst
  obtain ⟨_, w'', hagain, rfl⟩ : Ends (pass.run _) w' _ := run_of_normal (w := w') hnormal
  exact ⟨w', hrun, hnormal, hagain⟩

namespace Pair

open Sample in
/-- The variables are `this`, the holders `cap` and `cap2`, the stack slot `s` and `x`. -/
def declarations : List Primitive :=
  [ .declare .receiver 0 "this" .widget, .declare .localSlot 0 "cap" closure,
    .declare .localSlot 1 "cap2" closure, .declare .stackSlot 0 "s" .widget,
    .declare .localSlot 2 "x" .void, .newBlock ⟨0⟩ .controlFlow]

/-- The calls that append `stloc cap(newobj closure::.ctor(ldloc this))`, where a given number of
    nodes exist. -/
def construction (size : Nat) : List Primitive :=
  [ .load ⟨0⟩, .create (.call Sample.construct) [⟨size⟩], .create (.stloc ⟨1⟩) [⟨size + 1⟩],
    .push ⟨1⟩ ⟨size + 2⟩]

/-- The calls that append what the inliner makes another construction of, once the store in the
    middle is gone:

      stloc s(ldloc this)
      stobj Void(ldflda value(ldloc cap), ldloc x)
      stloc cap2(newobj closure::.ctor(ldloc s)) -/
def others (size : Nat) : List Primitive :=
  [ .load ⟨0⟩, .create (.stloc ⟨3⟩) [⟨size⟩], .push ⟨1⟩ ⟨size + 1⟩,
    .load ⟨1⟩, .create (.ldflda Sample.value) [⟨size + 2⟩], .load ⟨4⟩,
    .create (.stobj .void) [⟨size + 3⟩, ⟨size + 4⟩], .push ⟨1⟩ ⟨size + 5⟩,
    .load ⟨3⟩, .create (.call Sample.construct) [⟨size + 6⟩],
    .create (.stloc ⟨2⟩) [⟨size + 7⟩], .push ⟨1⟩ ⟨size + 8⟩]

/-- The calls that append a forwarding store with another construction below its `unbox`, and a
    reference to the field:

      stobj Widget(ldflda value(ldloc cap), unbox Widget(container))
      ldflda value(ldloc cap)

    The container has one block, with `stloc cap2(newobj closure::.ctor(ldloc this))`. -/
def enclosing (size : Nat) : List Primitive :=
  [ .load ⟨1⟩, .create (.ldflda Sample.value) [⟨size⟩],
    .newContainer, .newBlock ⟨size + 2⟩ .controlFlow,
    .load ⟨0⟩, .create (.call Sample.construct) [⟨size + 4⟩],
    .create (.stloc ⟨2⟩) [⟨size + 5⟩], .push ⟨size + 3⟩ ⟨size + 6⟩,
    .create (.unbox .widget) [⟨size + 2⟩], .create (.stobj .widget) [⟨size + 1⟩, ⟨size + 7⟩],
    .push ⟨1⟩ ⟨size + 8⟩,
    .load ⟨1⟩, .create (.ldflda Sample.value) [⟨size + 9⟩], .push ⟨1⟩ ⟨size + 10⟩]

def build (calls : List Primitive) : Routine :=
  (declarations ++ calls).foldl Primitive.after (Routine.empty ⟨0x06000001⟩ "Draw")

/-- `cap` is stored before it is loaded. -/
def stored : Routine := build (construction 2 ++ others 5)

/-- `cap` is loaded before it is stored. -/
def loaded : Routine := build (others 2 ++ construction 11)

/-- `cap2` is constructed below an `unbox` that is stored for `cap`. -/
def enclosed : Routine := build (construction 2 ++ enclosing 5)

/-- Which instructions construct a capture object. -/
def captures (r : Routine) : List Bool :=
  (r.instructions ⟨1⟩).map fun inst => (r.capture? {} inst).isSome

end Pair

set_option maxRecDepth 8000 in
/-- The construction that comes up when the forwarding store is gone is folded in the same run. -/
theorem folds_once_of_stored :
    Pair.captures Pair.stored = [true, false, false, false] ∧
    ∃ w', pass.run { settings := {}, inliner := Inliner.singleUse } { routine := Pair.stored } =
        .ok () w' ∧
      Pair.captures w'.routine = [false, false] ∧
      pass.run { settings := {}, inliner := Inliner.singleUse } w' = .ok () w' := by
  have hreach : Reachable Pair.stored := (Reachable.empty _ _).after _
  obtain ⟨w', hrun, _, hagain⟩ := run_folds_once (w := { routine := Pair.stored }) hreach
    (by decide +kernel) (by decide +kernel) {} (by decide +kernel)
  obtain rfl := PassM.after_of_ok hrun
  exact ⟨by decide +kernel, _, hrun, by decide +kernel, hagain⟩

/-- What a run answers on a valid routine; the routine that it leaves is valid again. -/
theorem run_eq_after (settings : Settings) (V : w.routine.Valid) :
    pass.run { settings, inliner := Inliner.singleUse } w =
        .ok () ((pass.run { settings, inliner := Inliner.singleUse }).after w) ∧
      ((pass.run { settings, inliner := Inliner.singleUse }).after w).routine.Valid := by
  obtain ⟨_, w', hrun, hsane⟩ : Ends (pass.run { settings, inliner := Inliner.singleUse }) w _ :=
    run_ends (w := w) V
  rw [after_of_ok hrun]
  exact ⟨hrun, hsane.valid⟩

set_option maxRecDepth 8000 in
/-- With the forwarding store in front, that construction comes up behind the scan, and only a
    second run folds it. -/
theorem second_run_folds_of_loaded :
    ∃ w w' w'' : Work, Reachable w.routine ∧ w.routine.validate = .ok () ∧
      pass.run { settings := {}, inliner := Inliner.singleUse } w = .ok () w' ∧
      pass.run { settings := {}, inliner := Inliner.singleUse } w' = .ok () w'' ∧
      Pair.captures w'.routine = [true, false] ∧ Pair.captures w''.routine = [false, false] ∧
      w''.log.events.length ≠ w'.log.events.length := by
  have hreach : Reachable Pair.loaded := (Reachable.empty _ _).after _
  have hvalid : Pair.loaded.validate = .ok () := by decide +kernel
  obtain ⟨hfirst, V⟩ := run_eq_after (w := { routine := Pair.loaded }) {}
    ((valid_iff hreach).mp hvalid)
  obtain ⟨hsecond, _⟩ := run_eq_after {} V
  exact ⟨_, _, _, hreach, hvalid, hfirst, hsecond, by decide +kernel, by decide +kernel,
    by decide +kernel⟩

set_option maxRecDepth 8000 in
/-- A container below an `unbox` is copied with it. A scan knows the containers from its start
    only, so the construction in the copy is folded by a second run, even if each holder is stored
    before it is loaded. -/
theorem second_run_folds_copy :
    ∃ w w' w'' : Work, Reachable w.routine ∧ w.routine.validate = .ok () ∧
      w.routine.StoresFirst {} ∧
      pass.run { settings := {}, inliner := Inliner.singleUse } w = .ok () w' ∧
      pass.run { settings := {}, inliner := Inliner.singleUse } w' = .ok () w'' ∧
      (∃ inst ∈ w'.routine.entryBlocks.flatMap w'.routine.instructions,
        (w'.routine.capture? {} inst).isSome = true) ∧
      (∀ inst ∈ w''.routine.entryBlocks.flatMap w''.routine.instructions,
        w''.routine.capture? {} inst = none) ∧
      w''.log.events.length ≠ w'.log.events.length := by
  have hreach : Reachable Pair.enclosed := (Reachable.empty _ _).after _
  have hvalid : Pair.enclosed.validate = .ok () := by decide +kernel
  obtain ⟨hfirst, V⟩ := run_eq_after (w := { routine := Pair.enclosed }) {}
    ((valid_iff hreach).mp hvalid)
  obtain ⟨hsecond, _⟩ := run_eq_after {} V
  exact ⟨_, _, _, hreach, hvalid, by decide +kernel, hfirst, hsecond, by decide +kernel,
    by simp only [← Option.isNone_iff_eq_none]; decide +kernel, by decide +kernel⟩

end CapturedReceiver

end CilFold
