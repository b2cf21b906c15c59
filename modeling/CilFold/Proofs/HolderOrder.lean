/-
  The order of loads and stores of holders, the variables of a generated type, along the blocks
  of a scan.

  `InOrder` says that no instruction loads a holder that a later one stores. The edits of the
  passes join neighbours, drop instructions and replace operands by others that load and store
  no more than was there, so that the order stays; `Scene` has it together with what else stays
  along a scan. An instruction that constructs a capture object (`Constructs`) comes up only where
  definitions are folded into it or a load comes into it.
-/
import CilFold.Proofs.NormalForm
import CilFold.Proofs.Mentions

namespace CilFold

/-- Whether an operation loads or stores a variable. -/
def Op.isAccess : Op → Bool
  | ldloc _ | stloc _ => true
  | _ => false

/-- Parts in the order of their wholes. -/
theorem flatMap_sublist {α β : Type} {f g : α → List β} {l : List α}
    (h : ∀ a ∈ l, (f a).Sublist (g a)) : (l.flatMap f).Sublist (l.flatMap g) := by
  induction l with
  | nil => exact List.Sublist.refl _
  | cons a l ih =>
    obtain ⟨ha, hl⟩ := List.forall_mem_cons.mp h
    rw [List.flatMap_cons, List.flatMap_cons]
    exact ha.append (ih hl)

namespace Routine

variable {r s : Routine} {b block d i id inst j load p target value : NodeId} {u : Tree NodeId}
  {v : VarId} {index count : Nat} {settings : Settings} {blocks : List NodeId}

/-- Whether a variable has a generated type, so that it can hold a capture object. -/
def isHolder (r : Routine) (settings : Settings) (v : VarId) : Bool :=
  (r.var? v).any fun x => settings.isGenerated x.type.name

theorem SameHead.isHolder (h : SameHead r s) (v : VarId) :
    s.isHolder settings v = r.isHolder settings v := by
  have hv := congrArg (Option.any fun x => settings.isGenerated x.type.name) (h.var? v)
  rwa [Option.any_map, Option.any_map] at hv

/-- What the first instruction loads is no holder that the second one stores. -/
def Apart (r : Routine) (settings : Settings) (i j : NodeId) : Prop :=
  ∀ v, r.isHolder settings v = true → r.Mentions i (.ldloc v) → ¬ r.Mentions j (.stloc v)

/-- Along the blocks, no holder is loaded before it is stored. -/
def InOrder (r : Routine) (settings : Settings) (blocks : List NodeId) : Prop :=
  (blocks.flatMap r.instructions).Pairwise (r.Apart settings)

/-- A move takes a definition and the instruction behind it out of their block and puts one in
    their place. -/
theorem Movable.joined (M : r.Movable block target index d value load p) (F : r.Forest) :
    ∃ head front back, r.children block = front ++ d :: target :: back ∧
      (r.move block index d value load p).instructions block = front ++ head :: back ∧
      (head = target ∨ head = value ∧ load = target) := by
  obtain ⟨head, hchildren, hhead⟩ := M.children_move F
  refine ⟨head, (r.children block).take index, (r.children block).drop (index + 2), ?_, ?_, hhead⟩
  · calc r.children block
      _ = (r.children block).take index ++ (r.children block).drop index :=
        (List.take_append_drop _ _).symm
      _ = _ := by
        rw [List.drop_eq_getElem?_toList_append, M.definition,
          List.drop_eq_getElem?_toList_append, M.target_eq F]
        rfl
  · rw [instructions, if_pos (M.isBlock_move F), hchildren]

/-- Each instruction after a move comes from one or two that were there before, in the same order,
    and shows nothing that they did not. -/
theorem Movable.origins (M : r.Movable block target index d value load p) (V : r.Valid) :
    ∃ O : NodeId → List NodeId, ∀ b, r.isConnected b = true → r.isBlock b = true →
      ((r.move block index d value load p).instructions b).flatMap O = r.instructions b ∧
      ∀ i ∈ (r.move block index d value load p).instructions b, ∀ op,
        (r.move block index d value load p).Mentions i op → ∃ j ∈ O i, r.Mentions j op := by
  have F := V.forest
  obtain ⟨head, front, back, hr, hs, hhead⟩ := M.joined F
  have hnodup := F.children_nodup block
  rw [hr] at hnodup
  -- the joined instruction was the target, or no instruction before
  have hself : ∀ i b, r.isBlock b = true → i ∈ r.children b → i ≠ target →
      (if i = head then [d, target] else [i]) = [i] := by
    rintro i b hb hi hne
    refine if_neg ?_
    rintro rfl
    rcases hhead with rfl | ⟨rfl, _⟩
    · exact hne rfl
    · rw [← Option.some.inj ((M.parent_value F).symm.trans (F.parent?_of_mem hi)),
        M.not_block_definition] at hb
      cases hb
  have hlist : ∀ (l : List NodeId) b, r.isBlock b = true →
      (∀ i ∈ l, i ∈ r.children b ∧ i ≠ target) →
      l.flatMap (fun i => if i = head then [d, target] else [i]) = l ∧
      ∀ i ∈ l, ∀ op, (r.move block index d value load p).Mentions i op →
        ∃ j ∈ (if i = head then [d, target] else [i]), r.Mentions j op := by
    intro l b hb hl
    refine ⟨(List.flatMap_congr fun i hi => hself i b hb (hl i hi).1 (hl i hi).2).trans
      (List.flatMap_singleton' l), fun i hi op hm => ?_⟩
    rw [hself i b hb (hl i hi).1 (hl i hi).2]
    exact ⟨i, List.mem_singleton_self i,
      M.mentions_elsewhere V (hl i hi).2 (F.parent?_of_mem (hl i hi).1) hb hm⟩
  refine ⟨fun i => if i = head then [d, target] else [i], fun b hc hb => ?_⟩
  have hinst : r.instructions b = r.children b := if_pos hb
  rw [hinst]
  by_cases hne : b = block
  · subst hne
    have hstay : ∀ i ∈ front ++ back, i ∈ r.children b ∧ i ≠ target := by
      rw [hr]
      grind
    obtain ⟨hfront, hfront'⟩ := hlist front b hb fun i hi => hstay i (List.mem_append_left _ hi)
    obtain ⟨hback, hback'⟩ := hlist back b hb fun i hi => hstay i (List.mem_append_right _ hi)
    refine ⟨?_, fun i hi op hm => ?_⟩
    · rw [hs, List.flatMap_append, List.flatMap_cons, hfront, hback, if_pos rfl, hr]
      rfl
    · rw [hs, List.mem_append, List.mem_cons] at hi
      rcases hi with hi | rfl | hi
      · exact hfront' i hi op hm
      · show ∃ j ∈ if i = i then [d, target] else [i], r.Mentions j op
        rw [if_pos rfl]
        rcases M.mentions_head V hhead hm with hm | hm
        · exact ⟨d, List.mem_cons_self, hm⟩
        · exact ⟨target, List.mem_cons_of_mem _ (List.mem_singleton_self target), hm⟩
      · exact hback' i hi op hm
  · obtain ⟨hc', hb'⟩ := (M.framed V).isBlock hc hb
    rw [instructions, if_pos hb', M.children_move_of_ne F hb hne (isAlive_of_isConnected hc')]
    refine hlist (r.children b) b hb fun i hi => ⟨hi, ?_⟩
    rintro rfl
    exact hne (Option.some.inj ((F.parent?_of_mem hi).symm.trans (M.parent_target F)))

namespace InOrder

/-- The order stays if each instruction comes from some that were there in the same order, and
    loads and stores what one of them did. -/
theorem of_origins {O : NodeId → List NodeId} (h : r.InOrder settings blocks)
    (hholder : ∀ v, s.isHolder settings v = true → r.isHolder settings v = true)
    (hsub : ∀ b ∈ blocks, ((s.instructions b).flatMap O).Sublist (r.instructions b))
    (hback : ∀ b ∈ blocks, ∀ i ∈ s.instructions b, ∀ op : Op, op.isAccess = true →
      s.Mentions i op → ∃ j ∈ O i, r.Mentions j op) : s.InOrder settings blocks := by
  have horigins : ((blocks.flatMap s.instructions).flatMap O).Pairwise (r.Apart settings) := by
    rw [List.flatMap_assoc]
    exact h.sublist (flatMap_sublist hsub)
  refine (List.pairwise_flatMap.mp horigins).2.imp_of_mem ?_
  intro i j hi hj hij v hv hload hstore
  obtain ⟨b, hb, hi⟩ := List.mem_flatMap.mp hi
  obtain ⟨b', hb', hj⟩ := List.mem_flatMap.mp hj
  obtain ⟨i', hi', hload⟩ := hback b hb i hi _ rfl hload
  obtain ⟨j', hj', hstore⟩ := hback b' hb' j hj _ rfl hstore
  exact hij i' hi' j' hj' v (hholder v hv) hload hstore

theorem of_sublist (h : r.InOrder settings blocks)
    (hholder : ∀ v, s.isHolder settings v = true → r.isHolder settings v = true)
    (hsub : ∀ b ∈ blocks, (s.instructions b).Sublist (r.instructions b))
    (hback : ∀ b ∈ blocks, ∀ i ∈ s.instructions b, ∀ op : Op, s.Mentions i op → r.Mentions i op) :
    s.InOrder settings blocks := by
  refine h.of_origins (O := fun i => [i]) hholder (fun b hb => ?_) fun b hb i hi op _ hm => ?_
  · rw [List.flatMap_singleton']
    exact hsub b hb
  · exact ⟨i, List.mem_singleton_self i, hback b hb i hi op hm⟩

theorem graft (h : r.InOrder settings blocks) (F : r.Forest) (G : Grafted r id p u s)
    (hblocks : ∀ b ∈ blocks, r.isBlock b = true ∧ ¬ r.Above id b)
    (hnew : ∀ op : Op, op.isAccess = true → s.Mentions u.label op → r.Mentions id op) :
    s.InOrder settings blocks := by
  have halive : ∀ i ∈ blocks.flatMap r.instructions, r.isAlive i = true := by
    intro i hi
    obtain ⟨b, hb, hi⟩ := List.mem_flatMap.mp hi
    rw [instructions, if_pos (hblocks b hb).1] at hi
    exact F.alive_of_mem_children hi
  rw [InOrder, G.flatMap_instructions F hblocks, List.pairwise_map]
  refine h.imp_of_mem fun {i j} hi hj hij v hv hload hstore => ?_
  rw [G.head.isHolder] at hv
  exact hij v hv (G.mentions F (halive i hi) (hnew _ rfl) hload)
    (G.mentions F (halive j hj) (hnew _ rfl) hstore)

theorem deleteAt (h : r.InOrder settings blocks) (V : r.Valid)
    (hi : (r.instructions block)[index]? = some inst)
    (hframed : Framed r (r.deleteAt block index inst))
    (hblocks : ∀ b ∈ blocks, r.isConnected b = true ∧ r.isBlock b = true) :
    (r.deleteAt block index inst).InOrder settings blocks := by
  obtain ⟨hblock, hi'⟩ := getElem?_instructions hi
  refine h.of_sublist (fun v hv => ?_) (fun b hb => ?_) fun b _ i _ op hm => ?_
  · rw [← (sameHead_deleteAt r block index inst).isHolder]
    exact hv
  · obtain ⟨hc, hb⟩ := hblocks b hb
    obtain ⟨hc', hb'⟩ := hframed.isBlock hc hb
    rw [instructions, if_pos hb', instructions, if_pos hb]
    by_cases hne : b = block
    · rw [hne, (V.views_block_deleteAt hi').children]
      exact List.eraseIdx_sublist _ _
    · rw [Vacated.children_of_ne V hi ⟨block, .done⟩ hb hne (isAlive_of_isConnected hc')]
  · exact hm.of_deleteAt V.forest hi'

theorem move (h : r.InOrder settings blocks) (V : r.Valid)
    (M : r.Movable block target index d value load p)
    (hblocks : ∀ b ∈ blocks, r.isConnected b = true ∧ r.isBlock b = true) :
    (r.move block index d value load p).InOrder settings blocks := by
  obtain ⟨O, hO⟩ := M.origins V
  refine h.of_origins (O := O) (fun v hv => ?_) (fun b hb => ?_) fun b hb i hi op _ hm => ?_
  · rw [← (Movable.sameHead_move r block index d value load p).isHolder]
    exact hv
  · rw [(hO b (hblocks b hb).1 (hblocks b hb).2).1]
  · exact (hO b (hblocks b hb).1 (hblocks b hb).2).2 i hi op hm

theorem moves (h : r.InOrder settings blocks) (hmoves : Moves block target index count r s)
    (V : r.Valid) (hblocks : ∀ b ∈ blocks, r.isConnected b = true ∧ r.isBlock b = true) :
    s.InOrder settings blocks := by
  induction hmoves with
  | done => exact h
  | step M _ ih =>
    exact ih (h.move V M hblocks) (M.valid_move V)
      fun b hb => (M.framed V).isBlock (hblocks b hb).1 (hblocks b hb).2

end InOrder

/-! ## Retyping -/

section Retyped

variable {c : Capture}

theorem Mentions.of_retyped {op : Op} (h : (c.retyped r).Mentions i op) : r.Mentions i op := by
  obtain ⟨k, hk, hop⟩ := h
  refine ⟨k, ?_, hop⟩
  clear hop
  induction hk with
  | here => exact .here
  | under hp hop hhides _ ih => exact .under hp hop hhides ih

theorem isHolder_of_retyped (hc : r.isHolder settings c.holder = true)
    (hv : (c.retyped r).isHolder settings v = true) : r.isHolder settings v = true := by
  rw [isHolder, Capture.retyped, var?_modifyVariable] at hv
  split_ifs at hv with he
  · exact he ▸ hc
  · exact hv

theorem isReceiver_retyped : (c.retyped r).isReceiver v = r.isReceiver v := by
  rw [isReceiver, Capture.retyped, var?_modifyVariable]
  split_ifs
  · rw [Option.any_map]
    rfl
  · rfl

theorem InOrder.retyped (h : r.InOrder settings blocks)
    (hc : r.isHolder settings c.holder = true) : (c.retyped r).InOrder settings blocks :=
  h.of_sublist (fun _ => isHolder_of_retyped hc) (fun _ _ => List.Sublist.refl _)
    fun _ _ _ _ _ => Mentions.of_retyped

end Retyped

/-! ## Along a scan -/

/-- What edits keep along the blocks of a scan. -/
structure Scene (settings : Settings) (blocks : List NodeId) (r : Routine) : Prop where
  valid : r.Valid
  orderly : r.Orderly
  placed : ∀ b ∈ blocks, r.isConnected b = true ∧ r.isBlock b = true
  order : r.InOrder settings blocks

namespace Scene

variable {t : Tree NodeId}

theorem step (h : Scene settings blocks r) (V : s.Valid) (hframed : Framed r s)
    (horder : s.InOrder settings blocks) : Scene settings blocks s :=
  ⟨V, h.orderly.framed hframed, fun b hb => hframed.isBlock (h.placed b hb).1 (h.placed b hb).2,
    horder⟩

theorem retyped {c : Capture} (h : Scene settings blocks r)
    (hc : r.isHolder settings c.holder = true) : Scene settings blocks (c.retyped r) :=
  h.step (h.valid.retype c.holder c.receiverType) (Framed.retype c.holder c.receiverType)
    (h.order.retyped hc)

theorem not_above (h : Scene settings blocks r) (ht : r.Holds t) (hplain : t.Plain) :
    ∀ b ∈ blocks, r.isBlock b = true ∧ ¬ r.Above t.label b := by
  intro b hb
  have hblock := (h.placed b hb).2
  exact ⟨hblock, h.valid.forest.not_above_of_plain ht hplain (isFrame_of_isBlock hblock)⟩

theorem graft (h : Scene settings blocks r) (G : Grafted r id p u s) (ht : r.Holds t)
    (hl : t.label = id) (hplain : t.Plain) (hu : u.Plain)
    (hshown : ∀ op ∈ u.shown, op.isAccess = true → op ∈ t.shown) : Scene settings blocks s := by
  have F := h.valid.forest
  refine h.step G.valid (G.framed h.valid ht hl hplain hu) ?_
  refine h.order.graft F G (hl ▸ h.not_above ht hplain) fun op hop hm => ?_
  rw [← hl, ht.mentions_iff F]
  exact hshown op ((G.new.mentions_iff G.valid.forest).mp hm) hop

/-- A removal, with what the inliner makes of it. -/
theorem vacated (h : Scene settings blocks r) (hc : r.isConnected block = true)
    (hi : (r.instructions block)[index]? = some inst) (hf : r.isFrame inst = false)
    (hv : Vacated block index inst count r s) : Scene settings blocks s ∧ Framed r s := by
  have V := h.valid
  have F := V.forest
  obtain ⟨hb, hi'⟩ := getElem?_instructions hi
  have hp := F.parent?_of_mem (List.mem_of_getElem? hi')
  obtain ⟨t, ht, rfl⟩ := F.exists_holds (isAlive_of_parent? hp)
  have hplain := h.orderly.plain V ht ((F.shared hp).trans hc) hf
  have hframed := Framed.deleteAt V hb hi' ht rfl hplain
  have V' := Vacated.valid_deleteAt V hi
  have hscene := h.step V' hframed (h.order.deleteAt V hi hframed h.placed)
  obtain ⟨target, hmoves⟩ := hv
  have hframed' := hmoves.framed V'
  exact ⟨hscene.step (hmoves.valid V') hframed' (hscene.order.moves hmoves V' hscene.placed),
    hframed.trans hframed'⟩

end Scene

/-! ## Constructions -/

/-- An instruction constructs a capture object: it stores in a holder what a constructor makes of
    the receiver. -/
def Constructs (r : Routine) (settings : Settings) (i : NodeId) : Prop :=
  ∃ v new site l this,
    r.Holds (.node i (.stloc v) [.node new (.call site) [.node l (.ldloc this) []]]) ∧
      (site.isNewobj = true ∧ site.method.isConstructor = true) ∧
      r.isHolder settings v = true ∧ r.isReceiver this = true

theorem Forest.capture?_eq_none (F : r.Forest) :
    r.capture? settings i = none ↔ ¬ r.Constructs settings i := by
  rw [Option.eq_none_iff_forall_ne_some]
  constructor
  · rintro h ⟨v, new, site, l, this, ht, hsite, hv, hthis⟩
    obtain ⟨x, hx, hgenerated⟩ := (Option.any_eq_true _ _).mp hv
    obtain ⟨y, hy, hrecv⟩ := (Option.any_eq_true _ _).mp hthis
    exact h ⟨v, l, y.type, x.type⟩ ((capture?_eq_some F).mpr
      ⟨new, site, this, x, y, ht, hsite, ⟨hx, hgenerated, rfl⟩, hy, hrecv, rfl⟩)
  · rintro h c hc
    obtain ⟨new, site, this, x, y, ht, hsite, ⟨hx, hgenerated, _⟩, hy, hrecv, _⟩ :=
      (capture?_eq_some F).mp hc
    exact h ⟨c.holder, new, site, c.receiver, this, ht, hsite,
      (Option.any_eq_true _ _).mpr ⟨x, hx, hgenerated⟩, (Option.any_eq_true _ _).mpr ⟨y, hy, hrecv⟩⟩

namespace Constructs

theorem of_retyped {c : Capture} (hc : r.isHolder settings c.holder = true)
    (h : (c.retyped r).Constructs settings i) : r.Constructs settings i := by
  obtain ⟨v, new, site, l, this, ht, hsite, hv, hthis⟩ := h
  exact ⟨v, new, site, l, this, ht.congr fun _ _ => ⟨rfl, rfl⟩, hsite, isHolder_of_retyped hc hv,
    isReceiver_retyped ▸ hthis⟩

/-- A graft makes an instruction construct a capture object only if it brings a load of a receiver
    into it. -/
theorem of_graft (h : s.Constructs settings i) (G : Grafted r id p u s) (F : r.Forest)
    (hi : r.isAlive i = true) (hne : i ≠ id) (hcall : ∀ site, u.op ≠ .call site) :
    r.Constructs settings i ∨ r.Shows i id ∧ ∃ v, u.op = .ldloc v ∧ r.isReceiver v = true := by
  obtain ⟨v, new, site, l, this, hs, hsite, hv, hthis⟩ := h
  obtain ⟨t, ht, hl⟩ := F.exists_holds hi
  have hbelow : ¬ r.Above id t.label := hl ▸ (G.isAlive_iff F hi).mp hs.alive
  have hlabel : (t.plantAt id u).label = i := by
    rw [Tree.label_plantAt, hl, if_neg hne]
  have htop := (G.holds_plant F ht hbelow).unique hs hlabel
  obtain ⟨hl', _⟩ | ⟨_, rfl, hargs⟩ := Tree.plantAt_eq_node htop
  · exact absurd (hl.symm.trans hl') hne
  obtain ⟨t₁, rfl, h₁⟩ := List.map_eq_singleton_iff.mp hargs
  obtain ⟨_, rfl⟩ | ⟨_, rfl, hargs₁⟩ := Tree.plantAt_eq_node h₁
  · exact absurd rfl (hcall site)
  obtain ⟨t₂, rfl, h₂⟩ := List.map_eq_singleton_iff.mp hargs₁
  have ht₁ := ht.operand (List.mem_singleton_self _)
  obtain ⟨rfl, rfl⟩ | ⟨_, rfl, hargs₂⟩ := Tree.plantAt_eq_node h₂
  · have hnew : r.parent? new = some i :=
      F.parent?_of_mem (ht.children ▸ List.mem_singleton_self new)
    have hplace : r.parent? t₂.label = some new :=
      F.parent?_of_mem (ht₁.children ▸ List.mem_singleton_self t₂.label)
    exact .inr ⟨.under hplace ht₁.op? rfl (.under hnew ht.op? rfl .here), this, rfl,
      G.head.isReceiver this ▸ hthis⟩
  · obtain rfl := List.map_eq_nil_iff.mp hargs₂
    exact .inl ⟨v, new, site, l, this, ht, hsite, G.head.isHolder v ▸ hv,
      G.head.isReceiver this ▸ hthis⟩

/-- What is undisturbed by a removal does not begin to construct a capture object. -/
theorem of_vacated (h : s.Constructs settings i) (hvacated : Vacated block index inst count r s)
    (hsame : s.isContainer i = true ∨ ∃ t : Tree NodeId, t.label = i ∧ r.Holds t ∧ s.Holds t) :
    r.Constructs settings i := by
  obtain ⟨v, new, site, l, this, hs, hsite, hv, hthis⟩ := h
  rcases hsame with hc | ⟨t, hl, ht, ht'⟩
  · have hop : s.op? i = some (.stloc v) := hs.op?
    rw [isContainer, hop] at hc
    cases hc
  · obtain rfl := ht'.unique hs hl
    have head := hvacated.sameHead
    exact ⟨v, new, site, l, this, ht, hsite, head.isHolder v ▸ hv, head.isReceiver this ▸ hthis⟩

end Constructs

/-! ## Loads that come too early -/

/-- Whether the first instruction loads a holder that the second one stores. -/
def anticipates (r : Routine) (settings : Settings) (i j : NodeId) : Bool :=
  (r.tree i).shown.any fun
    | .ldloc v => r.isHolder settings v && (r.tree j).shown.contains (.stloc v)
    | _ => false

/-- In the order of the scan of the entry blocks, no holder is loaded before it is stored. -/
def StoresFirst (r : Routine) (settings : Settings) : Prop :=
  (r.entryBlocks.flatMap r.instructions).Pairwise fun i j => r.anticipates settings i j = false

instance (r : Routine) (settings : Settings) : Decidable (r.StoresFirst settings) :=
  inferInstanceAs (Decidable (List.Pairwise _ _))

theorem StoresFirst.inOrder (h : r.StoresFirst settings) (F : r.Forest) :
    r.InOrder settings r.entryBlocks := by
  refine h.imp fun {i j} hij v hv hload hstore => ?_
  have hshown : ∀ {k op}, r.Mentions k op → op ∈ (r.tree k).shown := fun hm =>
    ((F.holds_tree hm.alive).mentions_iff F).mp (label_tree r _ ▸ hm)
  refine List.any_eq_false.mp hij _ (hshown hload) ?_
  rw [Bool.and_eq_true, List.contains_iff_mem]
  exact ⟨hv, hshown hstore⟩

end Routine

end CilFold
