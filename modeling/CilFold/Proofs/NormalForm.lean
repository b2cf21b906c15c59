/-
  The pass for self-stores reaches a normal form: no control-flow block of the tree has one
  left, and another run of the pass changes nothing.

  A removal may turn the instruction behind it into a self-store, since definitions are folded
  into that one. The scan goes on there, and all that is in front of the index stays clean. If
  containers are instructions and nothing else, a fold cannot reach into an instruction of
  another block, so that blocks once scanned stay clean as well.
-/
import CilFold.Proofs.Framing
import CilFold.Proofs.SelfStoreShape

namespace CilFold

namespace Routine

variable {r s : Routine} {a b block id inst k owner : NodeId} {t : Tree NodeId} {index count : Nat}
  {settings : Settings}

/-! ## Instructions without blocks -/

/-- The containers of the tree are the body and instructions of blocks. -/
def Orderly (r : Routine) : Prop :=
  ∀ k, r.isConnected k = true → r.isContainer k = true →
    k = r.body ∨ ∃ b, r.parent? k = some b ∧ r.isBlock b = true

instance (r : Routine) : Decidable r.Orderly :=
  decidable_of_iff (∀ k ∈ r.slots, r.isConnected k = true → r.isContainer k = true →
      k = r.body ∨ (r.parent? k).any r.isBlock = true) <| by
    simp only [Option.any_eq_true]
    refine ⟨fun h k hk => ?_, fun h k _ => h k⟩
    obtain ⟨n, hn, _⟩ := exists_node?_of_isConnected hk
    exact h k (mem_slots_of_node? hn) hk

/-- A node that is neither a block nor a container has none in it. -/
theorem Orderly.plain (O : r.Orderly) (V : r.Valid) (ht : r.Holds t)
    (hconn : r.isConnected t.label = true) (hf : r.isFrame t.label = false) : t.Plain := by
  have F := V.forest
  have hdown : ∀ k, r.Above t.label k → r.isBlock k = false ∧ r.isContainer k = false := by
    intro k habove
    induction habove using Relation.ReflTransGen.head_induction_on with
    | refl => exact Bool.or_eq_false_iff.mp hf
    | @head k p hpk habove ih =>
      have hpc : r.isConnected p = true := (F.isConnected_of_above habove).trans hconn
      refine ⟨(V.inPlace k p hpc hpk).trans ih.2, Bool.eq_false_iff.mpr fun hk => ?_⟩
      rcases O k ((F.shared hpk).trans hpc) hk with rfl | ⟨q, hq, hqb⟩
      · rw [F.parent?_body] at hpk
        cases hpk
      · obtain rfl := Option.some.inj (hpk.symm.trans hq)
        rw [ih.1] at hqb
        cases hqb
  intro u hu
  have hno := hdown u.label ((F.mem_labels ht).mp (List.mem_map_of_mem hu))
  rwa [isBlock, isContainer, (ht.subtree hu).op?] at hno

/-- An instruction that is no container has no block in it. -/
theorem Orderly.flat (O : r.Orderly) (V : r.Valid) (ht : r.Holds t)
    (hconn : r.isConnected t.label = true) (hp : r.parent? t.label = some block)
    (hb : r.isBlock block = true) (hc : r.isContainer t.label = false) : t.Flat := by
  have hplace := V.inPlace t.label block ((V.forest.shared hp).symm.trans hconn) hp
  rw [not_container_of_block hb] at hplace
  exact fun u hu => (O.plain V ht hconn (Bool.or_eq_false_iff.mpr ⟨hplace, hc⟩) u hu).1

theorem Orderly.framed (O : r.Orderly) (h : Framed r s) : s.Orderly := by
  intro k hk hc
  obtain ⟨hr, hop⟩ := h.op_old hk (isFrame_of_isContainer hc)
  rcases O k hr ((isContainer_congr hop).trans hc) with rfl | ⟨b, hp, hb⟩
  · exact .inl h.body.symm
  · exact .inr ⟨b, h.slot k b hp hb (isAlive_of_isConnected hk)⟩

theorem Orderly.trimmed (O : r.Orderly) (h : Trimmed r s) (head : SameHead r s) : s.Orderly := by
  intro k hk hc
  obtain ⟨op, hop⟩ := exists_op?_of_isAlive (isAlive_of_isConnected hk)
  have hcr : r.isContainer k = true := by
    rw [isContainer, h.old k op hop, ← hop]
    exact hc
  rcases O k (h.joined k hk) hcr with rfl | ⟨b, hp, hb⟩
  · exact .inl head.body.symm
  · exact .inr ⟨b, h.slot k b hp hb (isAlive_of_isConnected hk)⟩

/-! ## Blocks without self-stores -/

/-- The instructions of a block in front of an index are no self-stores. -/
def CleanTo (r : Routine) (settings : Settings) (block : NodeId) (index : Nat) : Prop :=
  ∀ i < index, ∀ inst, (r.instructions block)[i]? = some inst → r.isRedundant settings inst = false

/-- The instructions of a block are no self-stores. -/
def Clean (r : Routine) (settings : Settings) (block : NodeId) : Prop :=
  ∀ inst ∈ r.instructions block, r.isRedundant settings inst = false

theorem CleanTo.clean (h : r.CleanTo settings block index)
    (hlast : (r.instructions block).length ≤ index) : r.Clean settings block := by
  intro inst hinst
  obtain ⟨i, hi⟩ := List.getElem?_of_mem hinst
  obtain ⟨hlt, _⟩ := List.getElem?_eq_some_iff.mp hi
  exact h i (by omega) inst hi

theorem CleanTo.succ (h : r.CleanTo settings block index)
    (hi : (r.instructions block)[index]? = some inst) (hno : r.isRedundant settings inst = false) :
    r.CleanTo settings block (index + 1) := by
  intro i hlt k hk
  rcases Nat.lt_succ_iff_lt_or_eq.mp hlt with hlt | rfl
  · exact h i hlt k hk
  · rwa [← Option.some.inj (hi.symm.trans hk)]

namespace Vacated

variable (V : r.Valid) (O : r.Orderly) (hi : (r.instructions block)[index]? = some inst)
  (h : Vacated block index inst count r s)
include V O hi h

/-- An instruction of another block, or in front of the consumed definitions, is where it was, and
    it is a container or has the tree that it had. -/
theorem undisturbed {i : Nat} (hconn : r.isConnected b = true) (hb : r.isBlock b = true)
    (ha : (s.instructions b)[i]? = some a) (hpos : b = block → i < index - count) :
    (r.instructions b)[i]? = some a ∧
      (s.isContainer a = true ∨ ∃ t : Tree NodeId, t.label = a ∧ r.Holds t ∧ s.Holds t) := by
  have F := V.forest
  obtain ⟨hbs, ha'⟩ := getElem?_instructions ha
  have hs := (h.valid V hi).forest.parent?_of_mem (List.mem_of_getElem? ha')
  have har : (r.children b)[i]? = some a := by
    by_cases hne : b = block
    · obtain ⟨tail, hchildren, _⟩ := h.children V hi
      obtain ⟨hlt, _⟩ := List.getElem?_eq_some_iff.mp (getElem?_instructions hi).2
      have hlt' := hpos hne
      rw [hne, hchildren, List.getElem?_append_left (by rw [List.length_take]; omega),
        List.getElem?_take_of_lt hlt'] at ha'
      rw [hne]
      exact ha'
    · rw [h.children_of_ne V hi hb hne (isAlive_of_isBlock hbs)] at ha'
      exact ha'
  have hp := F.parent?_of_mem (List.mem_of_getElem? har)
  have halive := isAlive_of_parent? hp
  refine ⟨(congrArg (·[i]?) (if_pos hb)).trans har, ?_⟩
  cases hc : r.isContainer a with
  | true =>
    exact .inl ((isContainer_congr ((h.kept V hi).op a halive (isAlive_of_parent? hs))).trans hc)
  | false =>
    obtain ⟨t, ht, rfl⟩ := F.exists_holds halive
    have hflat := O.flat V ht ((F.shared hp).trans hconn) hp hb hc
    refine .inr ⟨t, rfl, ht, h.holds V hi ht hflat hp hb (isAlive_of_parent? hs) fun he => ?_⟩
    exact ⟨i, hpos he, he ▸ ha'⟩

omit O in
/-- What is undisturbed does not become a self-store. -/
theorem not_redundant
    (hsame : s.isContainer a = true ∨ ∃ t : Tree NodeId, t.label = a ∧ r.Holds t ∧ s.Holds t)
    (hno : r.isRedundant settings a = false) : s.isRedundant settings a = false := by
  rcases hsame with hc | ⟨t, rfl, ht, ht'⟩
  · exact not_redundant_of_container hc
  · rw [isRedundant_congr ht ht' V.forest (h.valid V hi).forest h.sameHead]
    exact hno

theorem clean_of_ne (hb : r.isBlock b = true) (hne : b ≠ block) (hconn : r.isConnected b = true)
    (hclean : r.Clean settings b) : s.Clean settings b := by
  intro a ha
  obtain ⟨i, ha⟩ := List.getElem?_of_mem ha
  obtain ⟨har, hsame⟩ := h.undisturbed V O hi hconn hb ha fun he => absurd he hne
  exact h.not_redundant V hi hsame (hclean a (List.mem_of_getElem? har))

theorem cleanTo (hconn : r.isConnected block = true) (hclean : r.CleanTo settings block index) :
    s.CleanTo settings block (index - count) := by
  intro i hlt a ha
  obtain ⟨har, hsame⟩ := h.undisturbed V O hi hconn (getElem?_instructions hi).1 ha fun _ => hlt
  exact h.not_redundant V hi hsame (hclean i (by omega) a har)

end Vacated

end Routine

/-! ## Scans of all blocks -/

namespace SelfStore

open Routine PassM

variable {w₀ w w' : Work} {r s : Routine} {b block inst : NodeId} {index count : Nat}
  {settings : Settings} {done : NodeId → Prop}

/-- What holds while the pass is under way: nothing new has come up, and those blocks that are
    done have no self-stores. -/
structure Tidying (settings : Settings) (w₀ : Work) (done : NodeId → Prop) (w : Work) : Prop
    extends Sane w₀ w where
  trimmed : Trimmed w₀.routine w.routine
  head : SameHead w₀.routine w.routine
  orderly : w.routine.Orderly
  clean : ∀ b, done b → w.routine.isConnected b = true →
    w.routine.blockKind? b = some .controlFlow → w.routine.Clean settings b

/-- What holds while a block is scanned. -/
structure Sweeping (settings : Settings) (w₀ : Work) (done : NodeId → Prop) (block : NodeId)
    (index : Nat) (w : Work) : Prop extends
    Scanned w₀ block w, Tidying settings w₀ (fun b => done b ∧ b ≠ block) w where
  front : w.routine.CleanTo settings block index

theorem Tidying.vacated (h : Tidying settings w₀ done (w.on r)) (hdone : ∀ b, done b → b ≠ block)
    (hi : (r.instructions block)[index]? = some inst) (hv : Vacated block index inst count r s)
    (hlog : Logged (w.on r) (w'.on s)) : Tidying settings w₀ done (w'.on s) := by
  have V : r.Valid := h.valid
  have O : r.Orderly := h.orderly
  have htrimmed := hv.trimmed V hi
  refine ⟨⟨hv.valid V hi, h.logged.trans hlog⟩, h.trimmed.trans htrimmed, h.head.trans hv.sameHead,
    O.trimmed htrimmed hv.sameHead, fun b hb hconn hkind => ?_⟩
  have hconn : s.isConnected b = true := hconn
  have hkind : r.blockKind? b = some .controlFlow := by
    rw [← hkind]
    obtain ⟨op, hop⟩ := exists_op?_of_isAlive (isAlive_of_isConnected hconn)
    show _ = s.blockKind? b
    rw [blockKind?, blockKind?, hop, htrimmed.old b op hop]
  have hr := htrimmed.joined b hconn
  exact hv.clean_of_ne V O hi (isBlock_of_blockKind? hkind) (hdone b hb) hr (h.clean b hb hr hkind)

theorem visit_sweeps : Advances block (visit { settings, inliner := Inliner.singleUse } block)
    (Sweeping settings w₀ done block) := by
  intro w r index inst h hi
  have V : r.Valid := h.valid
  have O : r.Orderly := h.orderly
  have hc : r.isConnected block = true := h.stays (isAlive_of_isBlock (getElem?_instructions hi).1)
  refine Ends.bind (Ends.routine ?_)
  split
  · next hred =>
    refine (vacateNoted_ends V hc hi (not_container_of_redundant hred)).mono ?_
    rintro next w' s ⟨count, rfl, hv, hlog⟩
    obtain ⟨hscanned, hless⟩ := h.toScanned.vacated hi hv hlog
    have htidy := h.toTidying.vacated (fun b hb => hb.2) hi hv hlog
    exact ⟨⟨hscanned, htidy.trimmed, htidy.head, htidy.orderly, htidy.clean,
      hv.cleanTo V O hi hc h.front⟩, hless⟩
  · next hno =>
    have hfront := CleanTo.succ h.front hi (Bool.eq_false_iff.mpr hno)
    exact Ends.pure ⟨⟨h.toScanned, h.trimmed, h.head, h.orderly, h.clean, hfront⟩,
      length_sub_succ_lt hi⟩

/-- A scan makes its block one of those that are done. -/
theorem scan_tidies (h : Tidying settings w₀ (fun b => done b ∧ b ≠ block) (w.on r))
    (hc : r.isConnected block = true) :
    Ends (scan block (visit { settings, inliner := Inliner.singleUse } block)) (w.on r)
      fun _ => Tidying settings w₀ done := by
  have hstart : Sweeping settings w₀ done block 0 (w.on r) :=
    ⟨Scanned.start h.toSane hc, h.trimmed, h.head, h.orderly, h.clean,
      fun i hi => absurd hi (Nat.not_lt_zero i)⟩
  refine (scan_ends visit_sweeps hstart).mono fun _ w' s ⟨last, hend, hlast⟩ => ?_
  refine ⟨hend.toSane, hend.trimmed, hend.head, hend.orderly, fun b hb hconn hkind => ?_⟩
  by_cases hne : b = block
  · rw [hne]
    exact hend.front.clean hlast
  · exact hend.clean b ⟨hb, hne⟩ hconn hkind

theorem Tidying.more {done' : NodeId → Prop} (h : Tidying settings w₀ done (w.on r))
    (hdone : ∀ b, done' b → r.isConnected b = true → r.blockKind? b = some .controlFlow → done b) :
    Tidying settings w₀ done' (w.on r) :=
  ⟨h.toSane, h.trimmed, h.head, h.orderly,
    fun b hb hconn hkind => h.clean b (hdone b hb hconn hkind) hconn hkind⟩

/-- The blocks of containers other than those that are still to come. -/
def Outside (r : Routine) (rest : List NodeId) (b : NodeId) : Prop :=
  ∀ c, r.parent? b = some c → c ∉ rest

/-- The blocks of a container are scanned one after the other. -/
theorem scanBlocks_tidies {todo : List NodeId}
    (h : Tidying settings w₀ (fun b => done b ∧ b ∉ todo) (w.on r)) :
    Ends (todo.forM fun block => do
      let r ← PassM.routine
      if r.isConnected block && r.blockKind? block == some .controlFlow then
        scan block (visit { settings, inliner := Inliner.singleUse } block)) (w.on r)
      fun _ => Tidying settings w₀ done := by
  refine (Ends.forM (I := fun todo => Tidying settings w₀ fun b => done b ∧ b ∉ todo)
    (fun block rest w r h => ?_) h).mono fun _ w' s hend => ?_
  · refine Ends.bind (Ends.routine ?_)
    split
    · next hscan =>
      rw [Bool.and_eq_true] at hscan
      refine scan_tidies (h.more fun b hb _ _ => ⟨hb.1.1, ?_⟩) hscan.1
      rw [List.mem_cons, not_or]
      exact ⟨hb.2, hb.1.2⟩
    · next hskip =>
      refine Ends.pure (h.more fun b hb hconn hkind => ⟨hb.1, ?_⟩)
      rw [List.mem_cons, not_or]
      refine ⟨?_, hb.2⟩
      rintro rfl
      rw [hconn, hkind] at hskip
      exact hskip rfl
  · exact hend.more fun b hb _ _ => ⟨hb, List.not_mem_nil⟩

theorem scanControlFlow_tidies (V : r.Valid) (O : r.Orderly) :
    Ends (scanControlFlow (visit { settings, inliner := Inliner.singleUse })) (w.on r)
      fun _ => Tidying settings (w.on r) fun _ => True := by
  refine Ends.bind (Ends.routine ?_)
  have hstart : Tidying settings (w.on r) (Outside r r.containers) (w.on r) := by
    refine ⟨⟨V, Logged.refl _⟩, Trimmed.refl r, SameHead.refl r, O, fun b hb hconn hkind => ?_⟩
    obtain ⟨c, hc, hp, _⟩ := V.exists_container hconn (isBlock_of_blockKind? hkind)
    exact absurd hc (hb c hp)
  refine (Ends.forM (I := fun rest => Tidying settings (w.on r) (Outside r rest))
    (fun c rest w' s h => ?_) hstart).mono fun _ w' s hend => ?_
  · refine Ends.bind (Ends.routine (scanBlocks_tidies (h.more ?_)))
    rintro b ⟨hout, hnot⟩ hconn hkind c' hp hc'
    -- a block of the container at hand would be among those to be scanned
    rcases List.mem_cons.mp hc' with rfl | hc'
    · obtain ⟨c, _, hps, hmem⟩ := h.valid.exists_container hconn (isBlock_of_blockKind? hkind)
      have hheld := h.trimmed.held b (isBlock_of_blockKind? hkind)
      obtain rfl := Option.some.inj (hps.symm.trans (hheld.trans hp))
      exact hnot hmem
    · exact hout c' hp hc'
  · exact hend.more fun b _ _ _ c _ => List.not_mem_nil

/-! ## The normal form -/

/-- No control-flow block of the tree has a self-store. -/
def Normal (settings : Settings) (r : Routine) : Prop :=
  ∀ block, r.isConnected block = true → r.blockKind? block = some .controlFlow →
    r.Clean settings block

/-- On a routine without self-stores the pass does nothing. -/
theorem run_of_normal (h : Normal settings r) :
    Ends (pass.run { settings, inliner := Inliner.singleUse }) (w.on r)
      fun _ w' => w' = w.on r := by
  show Ends (if settings.dropSelfStores then _ else _) _ _
  split
  · refine scanControlFlow_idle fun block index inst hc hkind hi => ?_
    refine Ends.bind (Ends.routine ?_)
    rw [h block hc hkind inst (List.mem_of_getElem? hi)]
    exact Ends.pure ⟨rfl, rfl⟩
  · exact Ends.pure rfl

/-- On a valid routine whose containers are the body and instructions of blocks, the pass leaves
    no self-store in any control-flow block of the tree, and a second run leaves all as it is:
    the routine and the log. -/
theorem run_reaches_normal (hreach : Reachable w.routine) (hvalid : w.routine.validate = .ok ())
    (horderly : w.routine.Orderly) (settings : Settings) (hon : settings.dropSelfStores = true) :
    ∃ w', pass.run { settings, inliner := Inliner.singleUse } w = .ok () w' ∧
      (∀ block, w'.routine.isConnected block = true →
        w'.routine.blockKind? block = some .controlFlow →
        ∀ inst ∈ w'.routine.instructions block, w'.routine.isRedundant settings inst = false) ∧
      pass.run { settings, inliner := Inliner.singleUse } w' = .ok () w' := by
  have V := (valid_iff hreach).mp hvalid
  have hrun : Ends (pass.run { settings, inliner := Inliner.singleUse }) w
      fun _ => Tidying settings w fun _ => True := by
    show Ends (if settings.dropSelfStores then _ else _) _ _
    rw [if_pos hon]
    exact scanControlFlow_tidies V horderly
  obtain ⟨_, w', hfirst, htidy⟩ := hrun
  have hnormal : Normal settings w'.routine := fun block => htidy.clean block trivial
  obtain ⟨_, w'', hsecond, rfl⟩ : Ends (pass.run { settings, inliner := Inliner.singleUse }) w' _ :=
    run_of_normal (w := w') hnormal
  exact ⟨w', hfirst, hnormal, hsecond⟩

namespace Sample

/-- The calls that build a routine with three copies, of which the one in the middle is a
    self-store:

      stloc t(ldloc a)
      stloc a(ldloc a)
      stloc a(ldloc t) -/
def calls : List Primitive :=
  [ .declare .stackSlot 0 "t" .void, .declare .localSlot 0 "a" .void, .newBlock ⟨0⟩ .controlFlow,
    .load ⟨1⟩, .create (.stloc ⟨0⟩) [⟨2⟩], .push ⟨1⟩ ⟨3⟩,
    .load ⟨1⟩, .create (.stloc ⟨1⟩) [⟨4⟩], .push ⟨1⟩ ⟨5⟩,
    .load ⟨0⟩, .create (.stloc ⟨1⟩) [⟨6⟩], .push ⟨1⟩ ⟨7⟩]

/-- The routine with three copies. -/
def routine : Routine := calls.foldl Primitive.after (Routine.empty ⟨0x06000001⟩ "Draw")

def value : FieldDecl := ⟨⟨0x04000001⟩, "value", .widget, .void⟩

/-- The calls that append a copy of a field to the object in a stack slot, and a self-store in
    front of it:

      stloc u(ldloc a)
      stloc a(ldloc a)
      stobj Void(ldflda value(ldloc u), ldobj Void(ldflda value(ldloc a))) -/
def fieldCopy : List Primitive :=
  [ .declare .stackSlot 1 "u" .void,
    .load ⟨1⟩, .create (.stloc ⟨2⟩) [⟨8⟩], .push ⟨1⟩ ⟨9⟩,
    .load ⟨1⟩, .create (.stloc ⟨1⟩) [⟨10⟩], .push ⟨1⟩ ⟨11⟩,
    .load ⟨2⟩, .create (.ldflda value) [⟨12⟩],
    .load ⟨1⟩, .create (.ldflda value) [⟨14⟩], .create (.ldobj .void) [⟨15⟩],
    .create (.stobj .void) [⟨13⟩, ⟨16⟩], .push ⟨1⟩ ⟨17⟩]

/-- The routine with three copies and the copy of a field behind them. -/
def copies : Routine :=
  (calls ++ fieldCopy).foldl Primitive.after (Routine.empty ⟨0x06000001⟩ "Draw")

end Sample

set_option maxRecDepth 8000 in
/-- When the copy in the middle is gone, the first one is folded into the last one, which is
    then a self-store as well, of a variable or of a field: the pass leaves an empty block. -/
theorem normal_after_fold :
    (Sample.copies.instructions ⟨1⟩).map (Sample.copies.isRedundant {}) =
      [false, true, false, false, true, false] ∧
    ∃ w', pass.run { settings := {}, inliner := Inliner.singleUse } { routine := Sample.copies } =
        .ok () w' ∧
      w'.routine.instructions ⟨1⟩ = [] ∧
      pass.run { settings := {}, inliner := Inliner.singleUse } w' = .ok () w' := by
  have hreach : Reachable Sample.copies := (Reachable.empty _ _).after _
  obtain ⟨w', hrun, _, hagain⟩ := run_reaches_normal (w := { routine := Sample.copies })
    hreach (by decide +kernel) (by decide +kernel) {} rfl
  have hleft : ((pass.run { settings := {}, inliner := Inliner.singleUse }).after
      { routine := Sample.copies }).routine.instructions ⟨1⟩ = [] := by decide +kernel
  rw [after_of_ok hrun] at hleft
  exact ⟨by decide +kernel, w', hrun, hleft, hagain⟩

end SelfStore

end CilFold
