/-
  The pass that strips receiver aliases, run on its own output.

  An alias that is stripped has its loads replaced wherever they are. A copy of it that the
  scan has passed already becomes an alias of the receiver behind the scan, and stays; a second
  run then strips it. If no copy of a candidate comes, in the order of the scan, before an
  instruction that makes this candidate a copy, there is no such instruction behind the scan,
  and a second run changes nothing (`run_idempotent`).
-/
import CilFold.Proofs.Thinning
import CilFold.Proofs.Copies

namespace CilFold

open Routine PassM

namespace Routine

variable {r s : Routine} {b block d i id inst j k load n p receiver target value : NodeId}
  {this u v var : VarId} {index : Nat} {settings : Settings}

/-! ## Instructions without an alias -/

theorem alias?_eq_none (F : r.Forest) : r.alias? settings i = none ↔
    ∀ t l u, r.op? i = some (.stloc t) → r.children i = [l] → r.op? l = some (.ldloc u) →
      r.isReceiver u = true → r.isCandidate settings t = false := by
  rw [Option.eq_none_iff_forall_ne_some]
  constructor
  · intro h t l u hop hc hl hu
    refine Bool.eq_false_iff.mpr fun ht => h (t, l) ?_
    exact (Alias.alias?_eq_some F).mpr
      ⟨u, .unary hop hc (.leaf hl (F.children_of_ldloc hl)), ht, hu⟩
  · rintro h ⟨t, l⟩ ha
    obtain ⟨u, hstore, ht, hu⟩ := (Alias.alias?_eq_some F).mp ha
    have hload := (hstore.operand (List.mem_singleton_self _)).op?
    rw [h t l u hstore.op? hstore.children hload hu] at ht
    cases ht

/-- No alias comes up at an instruction that copies no receiver which it did not copy before. -/
theorem Thinned.alias?_eq_none (h : Thinned r s) (V : r.Valid) (V' : s.Valid)
    (hi : r.alias? settings i = none)
    (hback : ∀ t l u, s.op? i = some (.stloc t) → s.children i = [l] → s.op? l = some (.ldloc u) →
      r.isReceiver u = true →
      r.op? i = some (.stloc t) ∧ r.children i = [l] ∧ r.op? l = some (.ldloc u)) :
    s.alias? settings i = none := by
  refine (Routine.alias?_eq_none V'.forest).mpr fun t l u hop hc hl hu => ?_
  have hu' : r.isReceiver u = true := (h.head.isReceiver u).symm.trans hu
  obtain ⟨hop', hc', hl'⟩ := hback t l u hop hc hl hu'
  refine Bool.eq_false_iff.mpr fun ht => ?_
  have hno := (Routine.alias?_eq_none V.forest).mp hi t l u hop' hc' hl' hu'
  rw [h.candidate V V' ht] at hno
  cases hno

/-! ## The order of copies -/

/-- What the first instruction copies is no candidate that the second one makes a copy. -/
def Ordered (r : Routine) (settings : Settings) (i j : NodeId) : Prop :=
  ∀ t a u, r.Copies i t a → r.Copies j a u → r.isCandidate settings a = false

/-- The order stays if what the two instructions copy, and to where, has been copied before by
    instructions in the right order. -/
theorem Thinned.ordered (h : Thinned r s) (V : r.Valid) (V' : s.Valid) {P Q : NodeId → Prop}
    (hfirst : ∀ t a, s.Copies i t a → r.isReceiver a = true ∨ ∃ i' t', P i' ∧ r.Copies i' t' a)
    (hsecond : ∀ a u, s.Copies j a u → ∃ j' u', Q j' ∧ r.Copies j' a u')
    (horder : ∀ i' j', P i' → Q j' → r.Ordered settings i' j') : s.Ordered settings i j := by
  intro t a u hi hj
  refine Bool.eq_false_iff.mpr fun ha => ?_
  have ha' := h.candidate V V' ha
  obtain ⟨j', u', hQ, hj'⟩ := hsecond a u hj
  rcases hfirst t a hi with hrecv | ⟨i', t', hP, hi'⟩
  · rw [not_receiver_of_candidate ha'] at hrecv
    cases hrecv
  · rw [horder i' j' hP hQ t' a u' hi' hj'] at ha'
    cases ha'

/-- Of the instructions that a scan goes through, those that are passed define no alias, and
    copies come in the right order. -/
structure Cleared (settings : Settings) (passed todo : List NodeId) (r : Routine) : Prop where
  order : (passed ++ todo).Pairwise (r.Ordered settings)
  clear : ∀ i ∈ passed, r.alias? settings i = none

namespace Cleared

variable {passed todo : List NodeId}

/-- When a load of a variable becomes one of the receiver, nothing comes up behind the scan if
    nothing copies the variable there. -/
theorem graft (h : Cleared settings passed todo r) (V : r.Valid)
    (G : Grafted r load p (.node n (.ldloc this) []) s) (hop : r.op? load = some (.ldloc v))
    (hthis : r.isReceiver this = true)
    (halive : ∀ i ∈ passed ++ todo, r.isAlive i = true)
    (huncopied : ∀ i ∈ passed, ∀ t, ¬ r.Copies i t v) :
    Cleared settings (passed.map fun i => if i = load then n else i)
      (todo.map fun i => if i = load then n else i) s := by
  have F := V.forest
  have T := G.thinned V hop
  have hnew : s.op? n = some (.ldloc this) := G.new.op?
  refine ⟨?_, fun k hk => ?_⟩
  · rw [← List.map_append, List.pairwise_map]
    refine h.order.imp_of_mem fun {i j} hi hj hij => ?_
    refine T.ordered (P := (· = i)) (Q := (· = j)) V G.valid (fun t a hcopy => ?_)
      (fun a u hcopy => ?_) (by rintro _ _ rfl rfl; exact hij)
    · split_ifs at hcopy
      · exact absurd hnew hcopy.not_ldloc
      · rcases G.copies F hop hcopy (halive i hi) with hcopy | ⟨rfl, _⟩
        · exact .inr ⟨i, t, rfl, hcopy⟩
        · exact .inl hthis
    · split_ifs at hcopy
      · exact absurd hnew hcopy.not_ldloc
      · rcases G.copies F hop hcopy (halive j hj) with hcopy | ⟨_, hcopy⟩
        · exact ⟨j, u, rfl, hcopy⟩
        · exact ⟨j, v, rfl, hcopy⟩
  · obtain ⟨i, hi, rfl⟩ := List.mem_map.mp hk
    split_ifs with hl
    · refine (Routine.alias?_eq_none G.valid.forest).mpr fun t l u hstore => ?_
      cases hnew.symm.trans hstore
    · refine T.alias?_eq_none V G.valid (h.clear i hi) fun t l u hst hc hld _ => ?_
      obtain ⟨hst', ⟨hchild, hlive⟩ | ⟨hchild, rfl⟩⟩ :=
        G.store_operand F (halive i (List.mem_append_left _ hi)) hst hc
      · exact ⟨hst', hchild, (G.kept.op l hlive (isAlive_of_op? hld)).symm.trans hld⟩
      · exact absurd (.last hst' hchild hop) (huncopied i hi t)

theorem deleteAt (h : Cleared settings passed (inst :: todo) r) (V : r.Valid)
    (hb : r.isBlock block = true) (hi : (r.children block)[index]? = some inst)
    (T : Thinned r (r.deleteAt block index inst)) :
    Cleared settings passed todo (r.deleteAt block index inst) := by
  have F := V.forest
  have V' := V.deleteAt hb hi
  have hold := (Trimmed.deleteAt F hi).old
  have hsub : (passed ++ todo).Sublist (passed ++ inst :: todo) :=
    List.Sublist.append_left (List.sublist_cons_self inst todo) passed
  refine ⟨(h.order.sublist hsub).imp fun {i j} hij => ?_, fun i hi' => ?_⟩
  · exact T.ordered (P := (· = i)) (Q := (· = j)) V V'
      (fun t a hcopy => .inr ⟨i, t, rfl, hcopy.of_deleteAt F hb hi⟩)
      (fun a u hcopy => ⟨j, u, rfl, hcopy.of_deleteAt F hb hi⟩) (by rintro _ _ rfl rfl; exact hij)
  · refine T.alias?_eq_none V V' (h.clear i hi') fun t l u hst hc hld _ => ?_
    exact ⟨hold _ _ hst, store_operand_deleteAt F hb hi hst hc, hold _ _ hld⟩

/-- A move takes the last of the passed instructions into the next one, which is then to be
    looked at again. -/
theorem move {head : NodeId} (h : Cleared settings (passed ++ [d]) (target :: todo) r) (V : r.Valid)
    (M : r.Movable block target index d value load p)
    (hslots : ∀ i ∈ passed ++ todo, i ≠ target ∧ ∃ b, r.parent? i = some b ∧ r.isBlock b = true)
    (hhead : head = target ∨ head = value ∧ load = target) :
    Cleared settings passed (head :: todo) (r.move block index d value load p) := by
  have F := V.forest
  have V' := M.valid_move V
  have T := M.thinned V
  have hold := (Trimmed.move V M).old
  obtain ⟨hfront, hback, hcross⟩ := List.pairwise_append.mp h.order
  obtain ⟨hpassed, _, hlast⟩ := List.pairwise_append.mp hfront
  obtain ⟨hnext, htodo⟩ := List.pairwise_cons.mp hback
  have hmem : target ∈ target :: todo := List.mem_cons_self
  have hrest : ∀ j ∈ todo, j ∈ target :: todo := fun j hj => List.mem_cons_of_mem _ hj
  have hlast : ∀ i ∈ passed, r.Ordered settings i d := fun i hi =>
    hlast i hi d (List.mem_singleton_self d)
  -- what other instructions copy they copied before
  have helse : ∀ i ∈ passed ++ todo, ∀ t u,
      (r.move block index d value load p).Copies i t u → r.Copies i t u := by
    intro i hi t u hcopy
    obtain ⟨hne, b, hp, hb⟩ := hslots i hi
    exact M.copies_elsewhere V hne hp hb hcopy
  have hpair : ∀ i ∈ passed ++ todo, ∀ j ∈ passed ++ todo, r.Ordered settings i j →
      (r.move block index d value load p).Ordered settings i j := by
    intro i hi j hj hij
    exact T.ordered (P := (· = i)) (Q := (· = j)) V V'
      (fun t a hcopy => .inr ⟨i, t, rfl, helse i hi t a hcopy⟩)
      (fun a u hcopy => ⟨j, u, rfl, helse j hj a u hcopy⟩) (by rintro _ _ rfl rfl; exact hij)
  have hboth : ∀ i ∈ passed, ∀ j, j = d ∨ j = target → r.Ordered settings i j := by
    rintro i hi j (rfl | rfl)
    · exact hlast i hi
    · exact hcross i (List.mem_append_left _ hi) j hmem
  have hboth' : ∀ j ∈ todo, ∀ i, i = d ∨ i = target → r.Ordered settings i j := by
    rintro j hj i (rfl | rfl)
    · exact hcross i (List.mem_append_right _ (List.mem_singleton_self i)) j (hrest j hj)
    · exact hnext j hj
  refine ⟨List.pairwise_append.mpr ⟨?_, List.pairwise_cons.mpr ⟨fun j hj => ?_, ?_⟩, ?_⟩,
    fun i hi => ?_⟩
  · exact hpassed.imp_of_mem fun hi hj => hpair _ (List.mem_append_left _ hi) _
      (List.mem_append_left _ hj)
  · exact T.ordered (Q := (· = j)) V V'
      (fun t a hcopy => .inr (M.copies_head V hhead hcopy).1)
      (fun a u hcopy => ⟨j, u, rfl, helse j (List.mem_append_right _ hj) a u hcopy⟩)
      (fun i j' hi hj' => hj' ▸ hboth' j hj i hi)
  · exact htodo.imp_of_mem fun hi hj => hpair _ (List.mem_append_right _ hi) _
      (List.mem_append_right _ hj)
  · intro i hi j hj
    rcases List.mem_cons.mp hj with rfl | hj
    · exact T.ordered (P := (· = i)) V V'
        (fun t a hcopy => .inr ⟨i, t, rfl, helse i (List.mem_append_left _ hi) t a hcopy⟩)
        (fun a u hcopy => (M.copies_head V hhead hcopy).2)
        (fun i' j hi' hj => hi' ▸ hboth i hi j hj)
    · exact hpair i (List.mem_append_left _ hi) j (List.mem_append_right _ hj)
        (hcross i (List.mem_append_left _ hi) j (hrest j hj))
  · refine T.alias?_eq_none V V' (h.clear i (List.mem_append_left _ hi))
      fun t l u hst hc hld _ => ?_
    obtain ⟨hne, b, hp, hb⟩ := hslots i (List.mem_append_left _ hi)
    rcases M.store_operand V hst hc with hchild | ⟨rfl, _⟩
    · exact ⟨hold _ _ hst, hchild, hold _ _ hld⟩
    · exact absurd .here (M.not_inside_slot V hne hp hb)

end Cleared

/-! ## A scan under way -/

/-- What holds in the middle of a scan. -/
structure Halfway (settings : Settings) (front : List NodeId) (block : NodeId) (rest : List NodeId)
    (index : Nat) (r : Routine) : Prop where
  valid : r.Valid
  nodup : (front ++ block :: rest).Nodup
  blocks : ∀ b ∈ front ++ block :: rest, r.isConnected b = true ∧ r.isBlock b = true
  cleared : Cleared settings (r.passed front block index) (r.ahead block rest index) r

namespace Halfway

variable {front rest : List NodeId}

theorem mem_split : b ∈ front ++ block :: rest ↔ b = block ∨ b ∈ front ∨ b ∈ rest := by
  rw [List.mem_append, List.mem_cons]
  tauto

theorem blocks_thinned (h : Halfway settings front block rest index r) (T : Thinned r s) :
    ∀ b ∈ front ++ block :: rest, s.isConnected b = true ∧ s.isBlock b = true := by
  intro b hb
  exact T.isBlock (h.blocks b hb).1 (h.blocks b hb).2

theorem instructions_spec (h : Halfway settings front block rest index r)
    (hi : i ∈ r.passed front block index ++ r.ahead block rest index) :
    ∃ b, r.parent? i = some b ∧ r.isBlock b = true := by
  rw [passed_append_ahead, List.mem_flatMap] at hi
  obtain ⟨b, hb, hi⟩ := hi
  have hblock := (h.blocks b hb).2
  rw [instructions, if_pos hblock] at hi
  exact ⟨b, h.valid.forest.parent?_of_mem hi, hblock⟩

/-- No instruction is met twice. -/
theorem nodup_instructions (h : Halfway settings front block rest index r) :
    (r.passed front block index ++ r.ahead block rest index).Nodup := by
  have F := h.valid.forest
  have hinst : ∀ b ∈ front ++ block :: rest, r.instructions b = r.children b := fun b hb =>
    if_pos (h.blocks b hb).2
  rw [passed_append_ahead, List.nodup_flatMap]
  refine ⟨fun b hb => hinst b hb ▸ F.children_nodup b, ?_⟩
  refine List.Pairwise.imp_of_mem (fun {b c} hb hc hne i hi hi' => hne ?_) h.nodup
  rw [hinst b hb] at hi
  rw [hinst c hc] at hi'
  exact Option.some.inj ((F.parent?_of_mem hi).symm.trans (F.parent?_of_mem hi'))

theorem graft (h : Halfway settings front block rest index r)
    (G : Grafted r load p (.node n (.ldloc this) []) s) (hop : r.op? load = some (.ldloc v))
    (hthis : r.isReceiver this = true)
    (huncopied : ∀ i ∈ r.passed front block index, ∀ t, ¬ r.Copies i t v) :
    Halfway settings front block rest index s ∧
      s.passed front block index =
        (r.passed front block index).map fun i => if i = load then n else i := by
  have F := h.valid.forest
  have hout : ∀ b ∈ front ++ block :: rest, r.isBlock b = true ∧ ¬ r.Above load b := by
    intro b hb
    have hblock := (h.blocks b hb).2
    refine ⟨hblock, fun habove => ?_⟩
    rw [F.eq_of_above_leaf (F.children_of_ldloc hop) habove, isBlock, hop] at hblock
    cases hblock
  have hpassed : s.passed front block index =
      (r.passed front block index).map fun i => if i = load then n else i := by
    refine G.passed_eq_map F fun b hb => hout b (mem_split.mpr ?_)
    rcases List.mem_cons.mp hb with hb | hb
    · exact .inl hb
    · exact .inr (.inl hb)
  have hahead : s.ahead block rest index =
      (r.ahead block rest index).map fun i => if i = load then n else i :=
    G.ahead_eq_map F fun b hb => hout b (List.mem_append_right _ hb)
  refine ⟨⟨G.valid, h.nodup, h.blocks_thinned (G.thinned h.valid hop), ?_⟩, hpassed⟩
  rw [hpassed, hahead]
  refine h.cleared.graft h.valid G hop hthis (fun i hi => ?_) huncopied
  obtain ⟨b, hp, _⟩ := h.instructions_spec hi
  exact isAlive_of_parent? hp

/-- The lists after an edit of the block alone. -/
theorem lists_eq (h : Halfway settings front block rest index r)
    (hother : ∀ b, r.isConnected b = true → r.isBlock b = true → b ≠ block →
      s.instructions b = r.instructions b) (k : Nat) :
    s.passed front block k = front.flatMap r.instructions ++ (s.instructions block).take k ∧
      s.ahead block rest k = (s.instructions block).drop k ++ rest.flatMap r.instructions := by
  obtain ⟨_, hback, hcross⟩ := List.nodup_append.mp h.nodup
  have hfront : ∀ b ∈ front, s.instructions b = r.instructions b := fun b hb =>
    hother b (h.blocks b (mem_split.mpr (.inr (.inl hb)))).1
      (h.blocks b (mem_split.mpr (.inr (.inl hb)))).2 (hcross b hb block List.mem_cons_self)
  have hrest : ∀ b ∈ rest, s.instructions b = r.instructions b := by
    intro b hb
    refine hother b (h.blocks b (mem_split.mpr (.inr (.inr hb)))).1
      (h.blocks b (mem_split.mpr (.inr (.inr hb)))).2 ?_
    rintro rfl
    exact (List.nodup_cons.mp hback).1 hb
  rw [passed, ahead, List.flatMap_congr hfront, List.flatMap_congr hrest]
  exact ⟨rfl, rfl⟩

/-- The scan goes past an instruction that defines no alias. -/
theorem succ (h : Halfway settings front block rest index r)
    (hi : (r.instructions block)[index]? = some inst) (hno : r.alias? settings inst = none) :
    Halfway settings front block rest (index + 1) r := by
  refine ⟨h.valid, h.nodup, h.blocks, ?_, ?_⟩
  · have horder := h.cleared.order
    rw [ahead_eq_cons hi] at horder
    rw [passed_succ hi, List.append_assoc]
    exact horder
  · intro k hk
    rw [passed_succ hi, List.mem_append, List.mem_singleton] at hk
    rcases hk with hk | rfl
    · exact h.cleared.clear k hk
    · exact hno

theorem deleteAt (h : Halfway settings front block rest index r)
    (hi : (r.instructions block)[index]? = some inst)
    (T : Thinned r (r.deleteAt block index inst)) :
    Halfway settings front block rest index (r.deleteAt block index inst) := by
  have V := h.valid
  obtain ⟨hb, hi'⟩ := getElem?_instructions hi
  have hblocks := h.blocks_thinned T
  have hother : ∀ b, r.isConnected b = true → r.isBlock b = true → b ≠ block →
      (r.deleteAt block index inst).instructions b = r.instructions b := by
    intro b hc hb hne
    obtain ⟨hc', hb'⟩ := T.isBlock hc hb
    rw [instructions, instructions, if_pos hb, if_pos hb']
    exact Vacated.children_of_ne V hi ⟨block, .done⟩ hb hne (isAlive_of_isConnected hc')
  obtain ⟨hpassed, hahead⟩ := h.lists_eq hother index
  have hinst : (r.deleteAt block index inst).instructions block =
      (r.instructions block).take index ++ (r.instructions block).drop (index + 1) := by
    rw [instructions, instructions, if_pos hb, if_pos (hblocks block (mem_split.mpr (.inl rfl))).2,
      (V.views_block_deleteAt hi').children, List.eraseIdx_eq_take_drop_succ]
  have hlen : ((r.instructions block).take index).length = index := by
    obtain ⟨hlt, _⟩ := List.getElem?_eq_some_iff.mp hi
    rw [List.length_take]
    omega
  have hcleared := h.cleared
  rw [ahead_eq_cons hi] at hcleared
  refine ⟨Vacated.valid_deleteAt V hi, h.nodup, hblocks, ?_⟩
  rw [hpassed, hahead, hinst, List.take_left' hlen, List.drop_left' hlen]
  exact hcleared.deleteAt V hb hi' T

theorem move (h : Halfway settings front block rest (index + 1) r)
    (M : r.Movable block target index d value load p) :
    Halfway settings front block rest index (r.move block index d value load p) := by
  have V := h.valid
  have F := V.forest
  have T := M.thinned V
  have hblocks := h.blocks_thinned T
  have hb := M.isBlock
  have hr : r.instructions block = r.children block := if_pos hb
  have hother : ∀ b, r.isConnected b = true → r.isBlock b = true → b ≠ block →
      (r.move block index d value load p).instructions b = r.instructions b := by
    intro b hc hb hne
    obtain ⟨hc', hb'⟩ := T.isBlock hc hb
    rw [instructions, instructions, if_pos hb, if_pos hb']
    exact M.children_move_of_ne F hb hne (isAlive_of_isConnected hc')
  obtain ⟨hpassed, hahead⟩ := h.lists_eq hother index
  obtain ⟨head, hchildren, hhead⟩ := M.children_move F
  have hinst : (r.move block index d value load p).instructions block =
      (r.instructions block).take index ++ head :: (r.instructions block).drop (index + 2) := by
    rw [hr, instructions, if_pos (hblocks block (mem_split.mpr (.inl rfl))).2, hchildren]
  have hdef : (r.instructions block)[index]? = some d := hr ▸ M.definition
  have htarget : (r.instructions block)[index + 1]? = some target := hr ▸ M.target_eq F
  have hlen : ((r.instructions block).take index).length = index := by
    obtain ⟨hlt, _⟩ := List.getElem?_eq_some_iff.mp hdef
    rw [List.length_take]
    omega
  have hcleared := h.cleared
  rw [passed_succ hdef, ahead_eq_cons htarget] at hcleared
  refine ⟨M.valid_move V, h.nodup, hblocks, ?_⟩
  rw [hpassed, hahead, hinst, List.take_left' hlen, List.drop_left' hlen]
  refine hcleared.move V M (fun i hi => ?_) hhead
  have hi' : i ∈ r.passed front block index ++ r.ahead block rest (index + 2) := hi
  have hnodup := h.nodup_instructions
  have hmem : i ∈ r.passed front block (index + 1) ++ r.ahead block rest (index + 1) := by
    rw [passed_succ hdef, ahead_eq_cons htarget]
    grind
  refine ⟨?_, h.instructions_spec hmem⟩
  rw [passed_succ hdef, ahead_eq_cons htarget] at hnodup
  grind

theorem moves {count : Nat} (h : Halfway settings front block rest index r)
    (hmoves : Moves block target index count r s) :
    Halfway settings front block rest (index - count) s := by
  induction hmoves with
  | done => exact h
  | step M _ ih =>
    rw [Nat.add_sub_add_right]
    exact ih (h.move M)

end Halfway

/-! ## Copies that come too late -/

/-- Whether the first instruction copies a candidate that the second one makes a copy. -/
def spoils (r : Routine) (settings : Settings) (i j : NodeId) : Bool :=
  match (r.tree i).copy?, (r.tree j).copy? with
  | some (_, a), some (b, _) => a == b && r.isCandidate settings a
  | _, _ => false

/-- In the order of the scan, no copy of a candidate comes before the instruction that makes the
    candidate a copy. -/
def CopiesForward (r : Routine) (settings : Settings) : Prop :=
  (r.flowBlocks.flatMap r.instructions).Pairwise fun i j => r.spoils settings i j = false

instance (r : Routine) (settings : Settings) : Decidable (r.CopiesForward settings) :=
  inferInstanceAs (Decidable (List.Pairwise _ _))

theorem Forest.ordered_of_not_spoils (F : r.Forest) (h : r.spoils settings i j = false) :
    r.Ordered settings i j := by
  intro t a u hi hj
  have htree : ∀ {k t u}, r.Copies k t u → (r.tree k).copy? = some (t, u) := by
    intro k t u hk
    rw [← (F.holds_tree hk.alive).copies_iff, label_tree]
    exact hk
  rw [spoils, htree hi, htree hj] at h
  simpa using h

end Routine

/-! ## The pass -/

namespace Alias

variable {w₀ w w' : Work} {r s : Routine} {block inst load n p receiver : NodeId}
  {this var : VarId} {index : Nat} {settings : Settings} {front rest : List NodeId}

/-- What holds while the loads of an alias are replaced. -/
structure Stripping (settings : Settings) (w₀ : Work) (front : List NodeId) (block : NodeId)
    (rest : List NodeId) (index : Nat) (inst : NodeId) (var this : VarId) (w : Work) : Prop where
  halfway : Halfway settings front block rest index w.routine
  framed : Framed w₀.routine w.routine
  receiver : w.routine.isReceiver this = true
  uncopied : ∀ i ∈ w.routine.passed front block index, ∀ t, ¬ w.routine.Copies i t var
  only : ∀ j, w.routine.isConnected j = true → w.routine.op? j = some (.stloc var) → j = inst

/-- The instructions in front copy no alias. -/
theorem Stripping.start (h : Halfway settings front block rest index r)
    (hframed : Framed w₀.routine r) (hi : (r.instructions block)[index]? = some inst)
    (hstore : r.Holds (.node inst (.stloc var) [.node receiver (.ldloc this) []]))
    (hvar : r.isCandidate settings var = true) (hthis : r.isReceiver this = true) :
    Stripping settings w₀ front block rest index inst var this (w.on r) := by
  have hcopy : r.Copies inst var this :=
    .last hstore.op? hstore.children (hstore.operand (List.mem_singleton_self _)).op?
  refine ⟨h, hframed, hthis, fun i hi' t hused => ?_, fun j hj hop => ?_⟩
  · have horder := h.cleared.order
    rw [ahead_eq_cons hi] at horder
    have hno := (List.pairwise_append.mp horder).2.2 i hi' inst List.mem_cons_self
    rw [hno t var this hused hcopy] at hvar
    cases hvar
  · obtain ⟨x, hx, _, _, hstores, _⟩ := isCandidate_eq_true.mp hvar
    obtain ⟨hb, hi⟩ := getElem?_instructions hi
    have hc := (h.blocks block (Halfway.mem_split.mpr (.inl rfl))).1
    have hinst := (h.valid.forest.shared (h.valid.forest.parent?_of_mem
      (List.mem_of_getElem? hi))).trans hc
    exact h.valid.eq_of_stores hx hstores hop hj hstore.op? hinst

theorem Stripping.graft (h : Stripping settings w₀ front block rest index inst var this (w.on r))
    (hne : this ≠ var) (G : Grafted r load p (.node n (.ldloc this) []) s)
    (hop : r.op? load = some (.ldloc var)) :
    Stripping settings w₀ front block rest index inst var this (w'.on s) := by
  have V : r.Valid := h.halfway.valid
  have F := V.forest
  have T := G.thinned V hop
  obtain ⟨hhalf, hpassed⟩ := h.halfway.graft G hop h.receiver h.uncopied
  refine ⟨hhalf, h.framed.trans T.toFramed, (T.head.isReceiver this).trans h.receiver,
    fun k hk t hcopy => ?_, fun j hj hstore => ?_⟩
  · have hk : k ∈ s.passed front block index := hk
    rw [hpassed] at hk
    obtain ⟨i, hi, rfl⟩ := List.mem_map.mp hk
    split_ifs at hcopy
    · exact hcopy.not_ldloc G.new.op?
    · obtain ⟨b, hp, _⟩ := h.halfway.instructions_spec (List.mem_append_left _ hi)
      rcases G.copies F hop hcopy (isAlive_of_parent? hp) with hused | ⟨he, _⟩
      · exact h.uncopied i hi t hused
      · exact hne he.symm
  · obtain ⟨hj', hstore'⟩ := T.known hj hstore (fun _ => nofun)
    exact h.only j hj' hstore'

/-- What holds while a block is scanned. -/
structure Sweeping (settings : Settings) (w₀ : Work) (front : List NodeId) (block : NodeId)
    (rest : List NodeId) (index : Nat) (w : Work) : Prop extends Scanned w₀ block w where
  halfway : Halfway settings front block rest index w.routine
  framed : Framed w₀.routine w.routine

theorem visit_sweeps : Advances block (visit { settings, inliner := Inliner.singleUse } block)
    (Sweeping settings w₀ front block rest) := by
  intro w r index inst h hi
  have V : r.Valid := h.valid
  refine Ends.bind (Ends.routine ?_)
  cases ha : r.alias? settings inst with
  | none =>
    exact Ends.pure ⟨⟨h.toScanned, h.halfway.succ hi ha, h.framed⟩, length_sub_succ_lt hi⟩
  | some pair =>
    obtain ⟨var, receiver⟩ := pair
    obtain ⟨this, hstore, hvar, hthis⟩ := (alias?_eq_some V.forest).mp ha
    have hne : this ≠ var := by
      rintro rfl
      rw [not_receiver_of_candidate hvar] at hthis
      cases hthis
    have hreplacing : Replacing w₀ block index (r.instructions block).length
        (.node inst (.stloc var) [.node receiver (.ldloc this) []]) var (r.loads var) (w.on r) :=
      ⟨⟨h.toScanned, hi, rfl, hstore⟩, V.nodup_loads var, fun load hl => V.op?_of_mem_loads hl⟩
    refine (replaceLoads_ends (I := fun _ => Stripping settings w₀ front block rest index inst var
      this) hne (fun load loads p n w e r s h hreplacing G _ => ?_)
      (Stripping.start h.halfway h.framed hi hstore hvar hthis) hreplacing).andThen
      fun _ w' s ⟨hstripping, h'⟩ => ?_
    · exact h.graft hne G (hreplacing.loads load List.mem_cons_self).1
    · have V' : s.Valid := h'.valid
      have hi' : (s.instructions block)[index]? = some inst := h'.at_index
      have hc : s.isConnected block = true :=
        h'.stays (isAlive_of_isBlock (getElem?_instructions hi').1)
      have T := Thinned.deleteAt V' (getElem?_instructions hi').1 (getElem?_instructions hi').2
        h'.holds hstripping.only
      rw [← h'.length_eq]
      refine (vacateNoted_ends V' hc hi' (isContainer_of_op? h'.holds.op?)).mono ?_
      rintro next w'' q ⟨count, rfl, hv, hlog⟩
      obtain ⟨hscanned, hless⟩ := h'.toScanned.vacated hi' hv hlog
      obtain ⟨target, hmoves⟩ := hv
      have hhalf := (hstripping.halfway.deleteAt hi' T).moves hmoves
      have hframed := (T.toFramed.trans (hmoves.framed (Vacated.valid_deleteAt V' hi')))
      exact ⟨⟨hscanned, hhalf, hstripping.framed.trans hframed⟩, hless⟩

/-- What holds between the scans of two blocks. -/
structure Passing (settings : Settings) (w₀ : Work) (todo : List NodeId) (w : Work) : Prop
    extends Sane w₀ w where
  framed : Framed w₀.routine w.routine
  cleared : ∃ front, front ++ todo = w₀.routine.flowBlocks ∧
    Cleared settings (front.flatMap w.routine.instructions) (todo.flatMap w.routine.instructions)
      w.routine

theorem scan_passes (V₀ : w₀.routine.Valid) (h : Passing settings w₀ (block :: rest) (w.on r)) :
    Ends (scan block (visit { settings, inliner := Inliner.singleUse } block)) (w.on r)
      fun _ => Passing settings w₀ rest := by
  obtain ⟨front, hflow, hcleared⟩ := h.cleared
  have hframed : Framed w₀.routine r := h.framed
  have hblocks : ∀ b ∈ front ++ block :: rest, r.isConnected b = true ∧ r.isBlock b = true := by
    intro b hb
    rw [hflow] at hb
    obtain ⟨hc, hkind⟩ := V₀.mem_flowBlocks.mp hb
    exact hframed.isBlock hc (isBlock_of_blockKind? hkind)
  have hhalf : Halfway settings front block rest 0 r := by
    refine ⟨h.valid, hflow ▸ V₀.nodup_flowBlocks, hblocks, ?_⟩
    rw [passed, ahead, List.take_zero, List.append_nil, List.drop_zero, ← List.flatMap_cons]
    exact hcleared
  have hc := (hblocks block (Halfway.mem_split.mpr (.inl rfl))).1
  refine (scan_ends visit_sweeps ⟨Scanned.start h.toSane hc, hhalf, hframed⟩).mono ?_
  rintro _ w' s ⟨last, hend, hlast⟩
  refine ⟨hend.toSane, hend.framed, front ++ [block], ?_, ?_⟩
  · rw [List.append_assoc]
    exact hflow
  · have hdone : Cleared settings (s.passed front block last) (s.ahead block rest last) s :=
      hend.halfway.cleared
    have hlast : (s.instructions block).length ≤ last := hlast
    rw [passed, ahead, List.take_of_length_le hlast, List.drop_of_length_le hlast,
      List.nil_append] at hdone
    rw [List.flatMap_append, List.flatMap_singleton]
    exact hdone

theorem scanControlFlow_passes (V : r.Valid) (hcopies : r.CopiesForward settings) :
    Ends (scanControlFlow (visit { settings, inliner := Inliner.singleUse })) (w.on r)
      fun _ => Passing settings (w.on r) [] := by
  refine scanControlFlow_each V (fun _ _ h => h.framed) (fun block todo w s h => scan_passes V h) ?_
  refine ⟨⟨V, Logged.refl _⟩, Framed.refl r, [], rfl, ?_, fun i hi => absurd hi List.not_mem_nil⟩
  exact hcopies.imp V.forest.ordered_of_not_spoils

/-! ## Idempotence -/

/-- No control-flow block of the tree defines an alias. -/
def Normal (settings : Settings) (r : Routine) : Prop :=
  ∀ block, r.isConnected block = true → r.blockKind? block = some .controlFlow →
    ∀ inst ∈ r.instructions block, r.alias? settings inst = none

theorem Passing.normal (h : Passing settings w₀ [] w) (V₀ : w₀.routine.Valid) :
    Normal settings w.routine := by
  intro block hc hkind inst hinst
  obtain ⟨front, hflow, hcleared⟩ := h.cleared
  rw [List.append_nil] at hflow
  obtain ⟨hc₀, hop⟩ := h.framed.op_old hc (isFrame_of_isBlock (isBlock_of_blockKind? hkind))
  have hkind₀ : w₀.routine.blockKind? block = some .controlFlow := by
    rw [blockKind?, hop]
    exact hkind
  refine hcleared.clear inst (List.mem_flatMap.mpr ⟨block, ?_, hinst⟩)
  rw [hflow]
  exact V₀.mem_flowBlocks.mpr ⟨hc₀, hkind₀⟩

/-- A routine without a receiver has no alias. -/
theorem normal_of_no_receiver (F : r.Forest) (h : r.receiver? = none) : Normal settings r := by
  intro block _ _ inst _
  refine (Routine.alias?_eq_none F).mpr fun t l u _ _ _ hu => ?_
  obtain ⟨x, hx, hrecv⟩ := (Option.any_eq_true _ _).mp hu
  have hnone := Array.find?_eq_none.mp (Option.map_eq_none_iff.mp h) x (Array.mem_of_getElem? hx)
  exact absurd hrecv hnone

/-- On a routine without aliases the pass does nothing. -/
theorem run_of_normal (h : settings.stripAliases = true → Normal settings r) :
    Ends (pass.run { settings, inliner := Inliner.singleUse }) (w.on r)
      fun _ w' => w' = w.on r := by
  refine Ends.bind (Ends.routine ?_)
  split
  · next hon =>
    have hnormal := h (Bool.and_eq_true_iff.mp hon).1
    refine scanControlFlow_idle fun block index inst hc hkind hi => ?_
    refine Ends.bind (Ends.routine ?_)
    rw [hnormal block hc hkind inst (List.mem_of_getElem? hi)]
    exact Ends.pure ⟨rfl, rfl⟩
  · exact Ends.pure rfl

theorem run_normalizes (V : r.Valid) (hcopies : r.CopiesForward settings) :
    Ends (pass.run { settings, inliner := Inliner.singleUse }) (w.on r)
      fun _ w' => settings.stripAliases = true → Normal settings w'.routine := by
  refine Ends.bind (Ends.routine ?_)
  split
  · exact (scanControlFlow_passes V hcopies).mono fun _ _ _ h _ => h.normal V
  · next hno =>
    refine Ends.pure fun hon => normal_of_no_receiver V.forest ?_
    rw [hon, Bool.true_and] at hno
    exact Option.not_isSome_iff_eq_none.mp hno

/-- If no copy of a candidate comes before the instruction that makes the candidate a copy, the
    pass leaves no alias in any control-flow block of the tree, and a second run leaves all as
    it is: the routine and the log. -/
theorem run_idempotent (hreach : Reachable w.routine) (hvalid : w.routine.validate = .ok ())
    (settings : Settings) (hcopies : w.routine.CopiesForward settings) :
    ∃ w', pass.run { settings, inliner := Inliner.singleUse } w = .ok () w' ∧
      (settings.stripAliases = true → ∀ block, w'.routine.isConnected block = true →
        w'.routine.blockKind? block = some .controlFlow →
        ∀ inst ∈ w'.routine.instructions block, w'.routine.alias? settings inst = none) ∧
      pass.run { settings, inliner := Inliner.singleUse } w' = .ok () w' := by
  have V := (valid_iff hreach).mp hvalid
  obtain ⟨_, w', hfirst, hnormal⟩ : Ends (pass.run _) w _ := run_normalizes (w := w) V hcopies
  obtain ⟨_, w'', hsecond, rfl⟩ : Ends (pass.run _) w' _ := run_of_normal (w := w') hnormal
  exact ⟨w', hfirst, hnormal, hsecond⟩

namespace Chain

/-- The calls that append `stloc target(ldloc source)`, where a given number of nodes exist. -/
def copy (size : Nat) (target source : VarId) : List Primitive :=
  [.load source, .create (.stloc target) [⟨size⟩], .push ⟨1⟩ ⟨size + 1⟩]

/-- The calls that declare `this` and two candidates, `a` and `b`, and append two copies and
    `ret(ldloc b)`. -/
def calls (first second : VarId × VarId) : List Primitive :=
  [ .declare .receiver 0 "this" .widget, .declare .localSlot 0 "<>c__CompilerGenerated_a" .widget,
    .declare .localSlot 1 "<>c__CompilerGenerated_b" .widget, .newBlock ⟨0⟩ .controlFlow] ++
  copy 2 first.1 first.2 ++ copy 4 second.1 second.2 ++
  [.load ⟨2⟩, .create .ret [⟨6⟩], .push ⟨1⟩ ⟨7⟩]

def routine (first second : VarId × VarId) : Routine :=
  (calls first second).foldl Primitive.after (Routine.empty ⟨0x06000001⟩ "Paint")

/-- `stloc a(ldloc this)`, then `stloc b(ldloc a)`. -/
def forward : Routine := routine (⟨1⟩, ⟨0⟩) (⟨2⟩, ⟨1⟩)

/-- `stloc b(ldloc a)`, then `stloc a(ldloc this)`. -/
def backward : Routine := routine (⟨2⟩, ⟨1⟩) (⟨1⟩, ⟨0⟩)

end Chain

/-- Of two aliases in the right order none is left. -/
theorem idempotent_on_forward_chain :
    Chain.forward.CopiesForward {} ∧
    ∃ w', pass.run { settings := {}, inliner := Inliner.singleUse } { routine := Chain.forward } =
        .ok () w' ∧
      (w'.routine.instructions ⟨1⟩).length = 1 ∧
      pass.run { settings := {}, inliner := Inliner.singleUse } w' = .ok () w' := by
  have hreach : Reachable Chain.forward := (Reachable.empty _ _).after _
  have hcopies : Chain.forward.CopiesForward {} := by decide +kernel
  obtain ⟨w', hrun, _, hagain⟩ := run_idempotent (w := { routine := Chain.forward }) hreach
    (by decide +kernel) {} hcopies
  obtain rfl := PassM.after_of_ok hrun
  exact ⟨hcopies, _, hrun, by decide +kernel, hagain⟩

/-- With the copy of the alias in front of its store, a second run strips one more alias. -/
theorem second_run_strips_backward_chain :
    ∃ w w' w'' : Work, Reachable w.routine ∧ w.routine.validate = .ok () ∧
      pass.run { settings := {}, inliner := Inliner.singleUse } w = .ok () w' ∧
      pass.run { settings := {}, inliner := Inliner.singleUse } w' = .ok () w'' ∧
      (w'.routine.instructions ⟨1⟩).length = 2 ∧ (w''.routine.instructions ⟨1⟩).length = 1 ∧
      w''.log.events.length ≠ w'.log.events.length := by
  have hreach : Reachable Chain.backward := (Reachable.empty _ _).after _
  have hvalid : Chain.backward.validate = .ok () := by decide +kernel
  obtain ⟨_, w', hfirst, hsane⟩ : Ends (pass.run { settings := {}, inliner := Inliner.singleUse })
    { routine := Chain.backward } _ := run_ends (w := { routine := Chain.backward })
      ((valid_iff hreach).mp hvalid)
  obtain ⟨_, w'', hsecond, _⟩ : Ends (pass.run { settings := {}, inliner := Inliner.singleUse })
    w' _ := run_ends (w := w') hsane.1.valid
  obtain rfl := PassM.after_of_ok hfirst
  obtain rfl := PassM.after_of_ok hsecond
  exact ⟨_, _, _, hreach, hvalid, hfirst, hsecond, by decide +kernel, by decide +kernel,
    by decide +kernel⟩

end Alias

end CilFold
