/-
  What the inliner keeps of the order of evaluation.

  A move takes the steps of a value out of the list of a block's steps, over the pure steps in
  front of the load, and into the place of the load (`Tree.Shifts`). So steps with effects keep
  their order, which is the first main statement: of the effects of the block only the consumed
  definitions are missing.

  Loads of variables count as pure, and a value may hold a store. A load thus gets in front of a
  store of its variable if the store is in a value that is moved over it (`Routine.Overtakes`); the
  second main statement says that this is the one way in which a load and a store of a variable
  change places.
-/
import CilFold.Proofs.Absorption

namespace CilFold

namespace Tree

variable {α : Type} {a b : α × Op} {d load : α} {v : VarId} {t : Tree α}
  {first value rest before after : List (α × Op)}

/-! ## Order in a list -/

section

variable {β : Type} {a b x : β} {l xs ys zs ws : List β}

theorem pair_sublist_append : [a, b].Sublist (xs ++ ys) ↔
    [a, b].Sublist xs ∨ a ∈ xs ∧ b ∈ ys ∨ [a, b].Sublist ys := by
  constructor
  · intro h
    obtain ⟨l₁, l₂, heq, h₁, h₂⟩ := List.sublist_append_iff.mp h
    match l₁, heq with
    | [], heq => exact .inr (.inr (heq ▸ h₂))
    | [_], heq =>
      cases heq
      exact .inr (.inl ⟨List.singleton_sublist.mp h₁, List.singleton_sublist.mp h₂⟩)
    | [_, _], heq =>
      cases heq
      exact .inl h₁
  · rintro (h | ⟨ha, hb⟩ | h)
    · exact h.trans (List.sublist_append_left xs ys)
    · exact (List.singleton_sublist.mpr ha).append (List.singleton_sublist.mpr hb)
    · exact h.trans (List.sublist_append_right xs ys)

/-- Two elements keep their order when another one goes. -/
theorem pair_sublist_of_ne (ha : a ≠ x) (hb : b ≠ x) (h : [a, b].Sublist (xs ++ x :: ys)) :
    [a, b].Sublist (xs ++ ys) := by
  rw [pair_sublist_append] at h ⊢
  rcases h with h | ⟨hax, hby⟩ | h
  · exact .inl h
  · exact .inr (.inl ⟨hax, List.mem_of_ne_of_mem hb hby⟩)
  · cases h with
    | cons _ h => exact .inr (.inr h)
    | cons_cons => exact absurd rfl ha

/-- Two elements keep their order when two parts of the list change places, unless each of them
    is in one of the parts. -/
theorem pair_sublist_swap (hapart : ¬ (a ∈ ys ∧ b ∈ zs))
    (h : [a, b].Sublist (xs ++ (ys ++ (zs ++ ws)))) :
    [a, b].Sublist (xs ++ (zs ++ (ys ++ ws))) := by
  simp only [pair_sublist_append, List.mem_append] at h ⊢
  grind

/-- In a list without duplicates two elements come in one order only. -/
theorem not_pair_sublist_swap (hnodup : l.Nodup) (h : [b, a].Sublist l) : ¬ [a, b].Sublist l := by
  induction l with
  | nil => exact nofun
  | cons x l ih =>
    obtain ⟨hx, hl⟩ := List.nodup_cons.mp hnodup
    intro h'
    cases h with
    | cons _ h =>
      cases h' with
      | cons _ h' => exact ih hl h h'
      | cons_cons _ h' => exact hx (h.subset (List.mem_cons_of_mem _ List.mem_cons_self))
    | cons_cons _ h =>
      cases h' with
      | cons _ h' => exact hx (h'.subset (List.mem_cons_of_mem _ List.mem_cons_self))
      | cons_cons _ h' => exact hx (List.singleton_sublist.mp h)

end

/-! ## Order of evaluation -/

/-- In the order of evaluation one step comes before the other. -/
def Precedes (t : Tree α) (a b : α × Op) : Prop := [a, b].Sublist t.steps

instance [DecidableEq α] (t : Tree α) (a b : α × Op) : Decidable (t.Precedes a b) :=
  inferInstanceAs (Decidable ([a, b].Sublist t.steps))

/-- What is evaluated in a tree before a load of a variable. -/
def stepsBefore (t : Tree α) (v : VarId) : List (α × Op) := t.steps.takeWhile (·.2 != .ldloc v)

theorem stepsBefore_eq (hsteps : t.steps = first ++ (load, .ldloc v) :: rest)
    (hone : t.ops.count (.ldloc v) = 1) : t.stepsBefore v = first := by
  rw [← map_steps_snd, hsteps, List.map_append, List.map_cons, List.count_append,
    List.count_cons_self] at hone
  have hfirst : ∀ step ∈ first, (step.2 != .ldloc v) = true := by
    intro step hstep
    rw [bne_iff_ne]
    intro hop
    have hpos : 0 < (first.map Prod.snd).count (.ldloc v) :=
      List.count_pos_iff.mpr (hop ▸ List.mem_map_of_mem hstep)
    omega
  rw [stepsBefore, hsteps, List.takeWhile_append_of_pos hfirst,
    List.takeWhile_cons_of_neg (by simp), List.append_nil]

/-- Whether a step gets in front of another one when the values of definitions come into a tree, one
    definition after the other: it is evaluated in the tree before the load that a value takes the
    place of, and the other step is in this value. -/
def overtakes [DecidableEq α] (a b : α × Op) : List (Tree α) → Tree α → Bool
  | node _ (.stloc v) [x] :: definitions, t =>
    decide (a ∈ t.stepsBefore v ∧ b ∈ x.steps) || overtakes a b definitions (t.substitute v x)
  | _, _ => false

/-- What a move does to the steps of a block: those of the value come behind the steps in front of
    the load, which are pure, the load makes place for them and the store goes. -/
inductive Shifts (d : α) (first value : List (α × Op)) : (before after : List (α × Op)) → Prop where
  | intro {front rest : List (α × Op)} {load : α} {v : VarId} :
      (∀ step ∈ first, step.2.isPure = true) →
      Shifts d first value
        (front ++ (value ++ (d, .stloc v) :: (first ++ (load, .ldloc v) :: rest)))
        (front ++ (first ++ (value ++ rest)))

namespace Shifts

variable (h : Shifts d first value before after)
include h

/-- Only the store is missing from the effects. -/
theorem effectsOf_eq [DecidableEq α] (hnodup : (before.map Prod.fst).Nodup) :
    effectsOf after = (effectsOf before).erase d := by
  have hnodup' := (effectsOf_sublist before).nodup hnodup
  obtain @⟨front, rest, load, v, hpure⟩ := h
  have hfirst := effectsOf_eq_nil hpure
  have hbefore :
      effectsOf (front ++ (value ++ (d, .stloc v) :: (first ++ (load, .ldloc v) :: rest))) =
        effectsOf (front ++ value) ++ d :: effectsOf rest := by
    rw [← List.append_assoc, effectsOf_append]
    show _ ++ d :: effectsOf (first ++ (load, .ldloc v) :: rest) = _
    rw [effectsOf_append first, hfirst]
    rfl
  have hd : d ∉ effectsOf (front ++ value) := by
    rw [hbefore, List.nodup_append] at hnodup'
    exact fun hmem => hnodup'.2.2 d hmem d List.mem_cons_self rfl
  rw [hbefore, List.erase_append_right _ hd, List.erase_cons_head, effectsOf_append,
    effectsOf_append, hfirst, effectsOf_append, effectsOf_append, List.nil_append,
    List.append_assoc]

/-- Nothing new is evaluated. -/
theorem subset : after ⊆ before := by
  obtain @⟨front, rest, load, v, _⟩ := h
  intro step hstep
  simp only [List.mem_append, List.mem_cons] at hstep ⊢
  tauto

/-- Of two steps that stay, the second of which is not pure, the first precedes the second if it
    did before. -/
theorem precedes (hnodup : before.Nodup)
    (ha : a ∈ after) (hb : b ∈ after) (heffect : b.2.isPure = false)
    (hab : [a, b].Sublist before) : [a, b].Sublist after := by
  obtain @⟨front, rest, load, v, hpure⟩ := h
  have hfirst : b ∉ first := by
    intro hmem
    rw [hpure b hmem] at heffect
    cases heffect
  have hstays : ∀ step ∈ front ++ (first ++ (value ++ rest)),
      step ≠ (d, .stloc v) ∧ step ≠ (load, .ldloc v) := by
    intro step hstep
    simp only [List.nodup_append, List.nodup_cons, List.mem_append, List.mem_cons] at hnodup hstep
    grind
  obtain ⟨had, hal⟩ := hstays a ha
  obtain ⟨hbd, hbl⟩ := hstays b hb
  apply pair_sublist_swap (fun h => hfirst h.2)
  rw [← List.append_assoc] at hab
  have hstore := pair_sublist_of_ne had hbd hab
  rw [← List.append_assoc] at hstore
  have hload := pair_sublist_of_ne hal hbl hstore
  simpa only [List.append_assoc] using hload

/-- It also did before, unless the first was in front of the load and the second in the value. -/
theorem preceded (hapart : ¬ (a ∈ first ∧ b ∈ value)) (hab : [a, b].Sublist after) :
    [a, b].Sublist before := by
  obtain @⟨front, rest, load, v, _⟩ := h
  refine (pair_sublist_swap hapart hab).trans
    (List.Sublist.append_left (List.Sublist.append_left ?_ _) _)
  exact ((List.sublist_cons_self _ _).append_left _).trans (List.sublist_cons_self _ _)

/-- In this case they change places. -/
theorem turns (hnodup : before.Nodup) (ha : a ∈ first) (hb : b ∈ value) :
    [a, b].Sublist after ∧ ¬ [a, b].Sublist before := by
  obtain @⟨front, rest, load, v, _⟩ := h
  constructor
  · simp only [pair_sublist_append, List.mem_append]
    exact .inr (.inr (.inr (.inl ⟨ha, .inl hb⟩)))
  · refine not_pair_sublist_swap hnodup ?_
    simp only [pair_sublist_append, List.mem_cons, List.mem_append]
    exact .inr (.inr (.inr (.inl ⟨hb, .inr (.inl ha)⟩)))

/-- Two steps that stay, the second of which is not pure, are in the order from before unless they
    change places. -/
theorem precedes_iff (hnodup : before.Nodup) (ha : a ∈ after) (hb : b ∈ after)
    (heffect : b.2.isPure = false) : [a, b].Sublist after ↔
      [a, b].Sublist before ∨ a ∈ first ∧ b ∈ value := by
  constructor
  · intro hab
    by_cases hturn : a ∈ first ∧ b ∈ value
    · exact .inr hturn
    · exact .inl (h.preceded hturn hab)
  · rintro (hab | ⟨ha, hb⟩)
    · exact h.precedes hnodup ha hb heffect hab
    · exact (h.turns hnodup ha hb).1

end Shifts

end Tree

namespace Routine

variable {r s : Routine} {block d head id k load p target value : NodeId} {index count : Nat}

/-! ## Moves -/

/-- The steps of a block are those of its instructions, and at last the block's own. -/
theorem Forest.steps_block (F : r.Forest) (hb : r.isBlock block = true) :
    (r.tree block).steps = (r.instructions block).flatMap (fun k => (r.tree k).steps) ++
      [(block, (r.op? block).getD .nop)] := by
  rw [F.tree_eq (isAlive_of_isBlock hb), Tree.steps_node, List.flatMap_map, instructions,
    if_pos hb]

theorem Forest.nodup_steps (F : r.Forest) (hid : r.isAlive id = true) :
    ((r.tree id).steps.map Prod.fst).Nodup :=
  (r.tree id).steps_perm.nodup_iff.mpr (F.nodup_labels (F.holds_tree hid))

/-- A move shifts the steps of the value. -/
theorem Movable.shifts (M : r.Movable block target index d value load p) (V : r.Valid) :
    ∃ v, r.op? d = some (.stloc v) ∧
      Tree.Shifts d ((r.tree target).stepsBefore v) (r.tree value).steps (r.tree block).steps
        ((r.move block index d value load p).tree block).steps := by
  have F := V.forest
  have V' := M.valid_move V
  obtain ⟨v, head, J, hdef, hone, hfills, _⟩ := M.absorbs F V
  obtain ⟨first, load', rest, htarget, hhead, hpure⟩ := hfills.steps
  have hother : ∀ ks : List NodeId,
      (∀ k ∈ ks, k ∈ (r.instructions block).take index ∨
        k ∈ (r.instructions block).drop (index + 2)) →
      (ks.flatMap fun k => ((r.move block index d value load p).tree k).steps) =
        ks.flatMap fun k => (r.tree k).steps := by
    intro ks hks
    refine List.flatMap_congr fun k hk => ?_
    obtain ⟨hkd, hkt⟩ := J.ne_of_mem F (hks k hk)
    have hin : k ∈ r.instructions block := by
      rcases hks k hk with h | h
      · exact List.mem_of_mem_take h
      · exact List.mem_of_mem_drop h
    rw [M.tree_move_of_ne F V'.forest (mem_children_of_mem_instructions hin) hkd hkt]
  have hb' := M.isBlock_move F
  have hop : (r.move block index d value load p).op? block = r.op? block :=
    (M.kept_move F).op block (isAlive_of_isBlock M.isBlock) (isAlive_of_isBlock hb')
  have hafter : ((r.move block index d value load p).tree block).steps =
      ((r.instructions block).take index).flatMap (fun k => (r.tree k).steps) ++
        (first ++ ((r.tree value).steps ++ (rest ++
          (((r.instructions block).drop (index + 2)).flatMap (fun k => (r.tree k).steps) ++
            [(block, (r.op? block).getD .nop)])))) := by
    rw [V'.forest.steps_block hb', J.instructions, List.flatMap_append, List.flatMap_cons, hhead,
      hother _ fun k hk => .inl hk, hother _ fun k hk => .inr hk, hop]
    simp only [List.append_assoc]
  have hbefore : (r.tree block).steps =
      ((r.instructions block).take index).flatMap (fun k => (r.tree k).steps) ++
        ((r.tree value).steps ++ (d, .stloc v) :: (first ++ (load', .ldloc v) :: (rest ++
          (((r.instructions block).drop (index + 2)).flatMap (fun k => (r.tree k).steps) ++
            [(block, (r.op? block).getD .nop)])))) := by
    conv_lhs => rw [F.steps_block M.isBlock, J.eq_append]
    rw [List.flatMap_append, List.flatMap_cons, List.flatMap_cons, htarget, hdef, Tree.steps_node,
      List.flatMap_singleton]
    simp only [List.append_assoc, List.cons_append, List.nil_append]
  refine ⟨v, ?_, ?_⟩
  · have hheld := F.holds_tree (isAlive_of_parent? (M.parent_definition F))
    rw [hdef] at hheld
    exact hheld.op?
  · rw [hafter, hbefore, Tree.stepsBefore_eq htarget hone]
    exact .intro hpure

/-! ## Sequences of moves -/

/-- The load gets in front of the store when the definitions in front of an instruction come into
    it, the last one first. The store is in the value of one of them, and the load is evaluated
    before the load that this value takes the place of. -/
def Overtakes (r : Routine) (block : NodeId) (index count : Nat) (load store : NodeId × Op) :
    Prop :=
  ((r.instructions block)[index]?.any fun target =>
    Tree.overtakes load store ((r.consumed block index count).reverse.map r.tree)
      (r.tree target)) = true

instance (r : Routine) (block : NodeId) (index count : Nat) (load store : NodeId × Op) :
    Decidable (r.Overtakes block index count load store) :=
  inferInstanceAs (Decidable (_ = true))

variable {a b : NodeId × Op} {v : VarId}

theorem overtakes_iff (ht : (r.instructions block)[index]? = some target) :
    r.Overtakes block index count a b ↔ Tree.overtakes a b
      ((r.consumed block index count).reverse.map r.tree) (r.tree target) = true := by
  rw [Overtakes, ht, Option.any_some]

theorem not_overtakes_zero : ¬ r.Overtakes block index 0 a b := by
  rw [Overtakes, consumed_zero]
  intro h
  obtain ⟨target, _, h⟩ := (Option.any_eq_true _ _).mp h
  cases h

/-- A load overtakes a store in the first move or in those that follow. -/
theorem Movable.overtakes_succ (M : r.Movable block target index d value load p) (V : r.Valid)
    (hle : count ≤ index) (hd : r.op? d = some (.stloc v)) :
    r.Overtakes block (index + 1) (count + 1) a b ↔
      a ∈ (r.tree target).stepsBefore v ∧ b ∈ (r.tree value).steps ∨
        (r.move block index d value load p).Overtakes block index count a b := by
  have F := V.forest
  obtain ⟨v', head, J, hdef, hone, hfills, _⟩ := M.absorbs F V
  obtain rfl : v' = v := by
    have hheld := F.holds_tree (isAlive_of_op? hd)
    rw [hdef] at hheld
    cases hheld.op?.symm.trans hd
    rfl
  have hrest : ((r.move block index d value load p).consumed block index count).reverse.map
      (r.move block index d value load p).tree =
      ((r.move block index d value load p).consumed block index count).reverse.map r.tree :=
    List.map_congr_left fun k hk => (M.consumed_move V (List.mem_reverse.mp hk)).2.2
  rw [overtakes_iff J.target, overtakes_iff J.getElem?, hrest, hfills.eq_substitute hone,
    J.consumed_succ hle, List.reverse_append, List.reverse_singleton, List.singleton_append,
    List.map_cons, hdef, Tree.overtakes, Bool.or_eq_true, decide_eq_true_eq]

namespace Moves

variable (h : Moves block target index count r s) (V : r.Valid)
include h V

/-- The effects keep their order, and those of the consumed definitions go. -/
theorem effects_eq : (s.tree block).effects =
    (r.tree block).effects.filter (· ∉ r.consumed block index count) := by
  induction h with
  | @done r index =>
    rw [consumed_zero]
    exact (List.filter_eq_self.mpr fun _ _ => rfl).symm
  | @step r s d value load p index count M hrest ih =>
    obtain ⟨_, _, J, _⟩ := M.absorbs V.forest V
    have hnodup := V.forest.nodup_steps (isAlive_of_isBlock M.isBlock)
    obtain ⟨_, _, hshifts⟩ := M.shifts V
    have hmove : ((r.move block index d value load p).tree block).effects =
        (r.tree block).effects.filter (· != d) := by
      rw [Tree.effects, hshifts.effectsOf_eq hnodup,
        ((Tree.effectsOf_sublist _).nodup hnodup).erase_eq_filter]
      rfl
    rw [ih (M.valid_move V), hmove, List.filter_filter, J.consumed_succ hrest.le]
    refine List.filter_congr fun k _ => ?_
    rw [Bool.eq_iff_iff]
    simp

theorem steps_subset : (s.tree block).steps ⊆ (r.tree block).steps := by
  induction h with
  | done => exact List.Subset.refl _
  | step M _ ih =>
    obtain ⟨_, _, hshifts⟩ := M.shifts V
    exact List.Subset.trans (ih (M.valid_move V)) hshifts.subset

/-- Of two steps that stay, the second of which is not pure, the first precedes the second if it
    did before or overtakes it. -/
theorem precedes_iff (ha : a ∈ (s.tree block).steps) (hb : b ∈ (s.tree block).steps)
    (heffect : b.2.isPure = false) : (s.tree block).Precedes a b ↔
      (r.tree block).Precedes a b ∨ r.Overtakes block index count a b := by
  induction h with
  | done => exact (or_iff_left not_overtakes_zero).symm
  | step M hrest ih =>
    have V' := M.valid_move V
    have hnodup := (V.forest.nodup_steps (isAlive_of_isBlock M.isBlock)).of_map
    obtain ⟨v, hd, hshifts⟩ := M.shifts V
    rw [ih V' ha hb, M.overtakes_succ V hrest.le hd, ← or_assoc]
    exact or_congr_left (hshifts.precedes_iff hnodup (hrest.steps_subset V' ha)
      (hrest.steps_subset V' hb) heffect)

/-- What overtakes a step that stays did not precede it before. -/
theorem not_precedes (ha : a ∈ (s.tree block).steps) (hb : b ∈ (s.tree block).steps)
    (heffect : b.2.isPure = false) (hovertakes : r.Overtakes block index count a b) :
    ¬ (r.tree block).Precedes a b := by
  induction h with
  | done => exact absurd hovertakes not_overtakes_zero
  | step M hrest ih =>
    have V' := M.valid_move V
    have hnodup := (V.forest.nodup_steps (isAlive_of_isBlock M.isBlock)).of_map
    obtain ⟨v, hd, hshifts⟩ := M.shifts V
    rcases (M.overtakes_succ V hrest.le hd).mp hovertakes with ⟨hfirst, hvalue⟩ | hlater
    · exact (hshifts.turns hnodup hfirst hvalue).2
    · exact fun hab => ih V' ha hb hlater (hshifts.precedes hnodup (hrest.steps_subset V' ha)
        (hrest.steps_subset V' hb) heffect hab)

end Moves

end Routine

/-! ## The inliner -/

namespace Inliner

open Routine PassM

variable {w : Work}

/-- The inliner keeps the order of effects: of the nodes of a block that are more than pure, in the
    order of their evaluation, those that are left are all but the consumed definitions. -/
theorem singleUse_keeps_effects (hreach : Reachable w.routine)
    (hvalid : w.routine.validate = .ok ()) (block : NodeId) (index : Nat)
    (options : InlineOptions) :
    ∃ count w', singleUse block index options w = .ok count w' ∧
      (∀ i ∈ w.routine.consumed block index count, ∃ v, w.routine.op? i = some (.stloc v)) ∧
      (w'.routine.tree block).effects =
        (w.routine.tree block).effects.filter (· ∉ w.routine.consumed block index count) := by
  have V := (Routine.valid_iff hreach).mp hvalid
  obtain ⟨count, w', hcall, hmoves⟩ := singleUse_moves V block index options
  refine ⟨count, w', hcall, ?_⟩
  rcases hmoves with ⟨rfl, rfl⟩ | ⟨target, _, _, hmoves⟩
  · rw [consumed_zero]
    exact ⟨fun _ hi => absurd hi List.not_mem_nil, (List.filter_eq_self.mpr fun _ _ => rfl).symm⟩
  · exact ⟨fun _ hi => hmoves.op?_of_mem_consumed V hi, hmoves.effects_eq V⟩

set_option maxRecDepth 8000 in
/-- Two slots are folded into a store. Of the effects of the block, the calls stay in their order,
    and the definitions of the slots go. -/
theorem keeps_effects_of_two_slots :
    let r := Sample.build Sample.twoSlots
    (r.tree ⟨1⟩).effects = [⟨2⟩, ⟨3⟩, ⟨4⟩, ⟨5⟩, ⟨8⟩, ⟨1⟩] ∧ r.consumed ⟨1⟩ 2 2 = [⟨3⟩, ⟨5⟩] ∧
    ∃ w', singleUse ⟨1⟩ 2 ⟨0⟩ { routine := r } = .ok 2 w' ∧
      (w'.routine.tree ⟨1⟩).effects = [⟨2⟩, ⟨4⟩, ⟨8⟩, ⟨1⟩] := by
  intro r
  have hreach : Reachable r := (Reachable.empty _ _).after Sample.twoSlots
  have hcall : singleUse ⟨1⟩ 2 ⟨0⟩ { routine := r } = .ok 2 _ :=
    eq_ok_of_answer? (by decide +kernel)
  obtain ⟨_, _, hsame, _, heffects⟩ :=
    singleUse_keeps_effects (w := { routine := r }) hreach (by decide +kernel) ⟨1⟩ 2 ⟨0⟩
  cases hcall.symm.trans hsame
  have hbefore : (r.tree ⟨1⟩).effects = [⟨2⟩, ⟨3⟩, ⟨4⟩, ⟨5⟩, ⟨8⟩, ⟨1⟩] := by decide +kernel
  have hconsumed : r.consumed ⟨1⟩ 2 2 = [⟨3⟩, ⟨5⟩] := by decide +kernel
  refine ⟨hbefore, hconsumed, _, hcall, ?_⟩
  rw [heffects]
  show (r.tree ⟨1⟩).effects.filter (· ∉ r.consumed ⟨1⟩ 2 2) = _
  rw [hbefore, hconsumed]
  decide

/-- The inliner moves no load of a variable behind a store of it: a load that precedes a store, and
    is left with it in the block, precedes it afterwards too. In front of a store that it did not
    precede, a load gets if and only if the store is in the value of a consumed definition and the
    load is evaluated before the load that this value takes the place of. -/
theorem singleUse_keeps_accesses (hreach : Reachable w.routine)
    (hvalid : w.routine.validate = .ok ()) (block : NodeId) (index : Nat)
    (options : InlineOptions) :
    ∃ count w', singleUse block index options w = .ok count w' ∧ ∀ y load store,
      (load, .ldloc y) ∈ (w'.routine.tree block).steps →
      (store, .stloc y) ∈ (w'.routine.tree block).steps →
      ((w.routine.tree block).Precedes (load, .ldloc y) (store, .stloc y) →
        (w'.routine.tree block).Precedes (load, .ldloc y) (store, .stloc y)) ∧
      (¬ w.routine.Overtakes block index count (load, .ldloc y) (store, .stloc y) →
        ((w'.routine.tree block).Precedes (load, .ldloc y) (store, .stloc y) ↔
          (w.routine.tree block).Precedes (load, .ldloc y) (store, .stloc y))) ∧
      (w.routine.Overtakes block index count (load, .ldloc y) (store, .stloc y) →
        (w'.routine.tree block).Precedes (load, .ldloc y) (store, .stloc y) ∧
          ¬ (w.routine.tree block).Precedes (load, .ldloc y) (store, .stloc y)) := by
  have V := (Routine.valid_iff hreach).mp hvalid
  obtain ⟨count, w', hcall, hmoves⟩ := singleUse_moves V block index options
  refine ⟨count, w', hcall, fun y load store hload hstore => ?_⟩
  rcases hmoves with ⟨rfl, rfl⟩ | ⟨target, _, _, hmoves⟩
  · exact ⟨id, fun _ => Iff.rfl, fun h => absurd h not_overtakes_zero⟩
  · have hiff := hmoves.precedes_iff V hload hstore rfl
    refine ⟨fun h => hiff.mpr (.inl h), fun hapart => hiff.trans (or_iff_left hapart),
      fun hovertakes => ⟨hiff.mpr (.inr hovertakes), ?_⟩⟩
    exact hmoves.not_precedes V hload hstore rfl hovertakes

namespace Sample

def pair : CallSite where
  kind := .call
  method := ⟨⟨0x06000003⟩, "Pair", item, item, 2, 0x10⟩

/-- The calls that build a routine whose slot holds a variable that is stored later:

      stloc s(ldloc y)
      call Pair(ldloc s, stloc y(ldnull)) -/
def storedLater : List Primitive :=
  [ .declare .localSlot 0 "y" item, .declare .stackSlot 0 "s" item, .newBlock ⟨0⟩ .controlFlow,
    .load ⟨0⟩, .create (.stloc ⟨1⟩) [⟨2⟩], .push ⟨1⟩ ⟨3⟩,
    .load ⟨1⟩, .create .ldnull [], .create (.stloc ⟨0⟩) [⟨5⟩], .create (.call pair) [⟨4⟩, ⟨6⟩],
    .push ⟨1⟩ ⟨7⟩]

/-- The calls that build a routine whose slot holds a store of a variable that is loaded later:

      stloc s(stloc y(ldnull))
      call Pair(ldloc y, ldloc s) -/
def loadedLater : List Primitive :=
  [ .declare .localSlot 0 "y" item, .declare .stackSlot 0 "s" item, .newBlock ⟨0⟩ .controlFlow,
    .create .ldnull [], .create (.stloc ⟨0⟩) [⟨2⟩], .create (.stloc ⟨1⟩) [⟨3⟩], .push ⟨1⟩ ⟨4⟩,
    .load ⟨0⟩, .load ⟨1⟩, .create (.call pair) [⟨5⟩, ⟨6⟩], .push ⟨1⟩ ⟨7⟩]

end Sample

set_option maxRecDepth 8000 in
/-- A load in a consumed definition stays in front of a store in the call. -/
theorem keeps_access_stored_later :
    let r := Sample.build Sample.storedLater
    ¬ r.Overtakes ⟨1⟩ 1 1 (⟨2⟩, .ldloc ⟨0⟩) (⟨6⟩, .stloc ⟨0⟩) ∧
    (r.tree ⟨1⟩).Precedes (⟨2⟩, .ldloc ⟨0⟩) (⟨6⟩, .stloc ⟨0⟩) ∧
    ∃ w', singleUse ⟨1⟩ 1 ⟨0⟩ { routine := r } = .ok 1 w' ∧
      (w'.routine.tree ⟨1⟩).Precedes (⟨2⟩, .ldloc ⟨0⟩) (⟨6⟩, .stloc ⟨0⟩) := by
  intro r
  have hreach : Reachable r := (Reachable.empty _ _).after Sample.storedLater
  have hcall : singleUse ⟨1⟩ 1 ⟨0⟩ { routine := r } = .ok 1 _ :=
    eq_ok_of_answer? (by decide +kernel)
  obtain ⟨_, _, hsame, haccess⟩ :=
    singleUse_keeps_accesses (w := { routine := r }) hreach (by decide +kernel) ⟨1⟩ 1 ⟨0⟩
  cases hcall.symm.trans hsame
  have hapart : ¬ r.Overtakes ⟨1⟩ 1 1 (⟨2⟩, .ldloc ⟨0⟩) (⟨6⟩, .stloc ⟨0⟩) := by decide +kernel
  have hbefore : (r.tree ⟨1⟩).Precedes (⟨2⟩, .ldloc ⟨0⟩) (⟨6⟩, .stloc ⟨0⟩) := by decide +kernel
  obtain ⟨_, hiff, _⟩ := haccess ⟨0⟩ ⟨2⟩ ⟨6⟩ (by decide +kernel) (by decide +kernel)
  exact ⟨hapart, hbefore, _, hcall, (hiff hapart).mpr hbefore⟩

set_option maxRecDepth 8000 in
/-- A load in the call gets in front of a store that is in a consumed definition: the call is given
    the variable as it was before the store. -/
theorem load_overtakes_store :
    let r := Sample.build Sample.loadedLater
    Reachable r ∧ r.validate = .ok () ∧
    ∃ w', singleUse ⟨1⟩ 1 ⟨0⟩ { routine := r } = .ok 1 w' ∧
      (r.tree ⟨1⟩).Precedes (⟨3⟩, .stloc ⟨0⟩) (⟨5⟩, .ldloc ⟨0⟩) ∧
      (w'.routine.tree ⟨1⟩).Precedes (⟨5⟩, .ldloc ⟨0⟩) (⟨3⟩, .stloc ⟨0⟩) ∧
      ¬ (r.tree ⟨1⟩).Precedes (⟨5⟩, .ldloc ⟨0⟩) (⟨3⟩, .stloc ⟨0⟩) := by
  intro r
  have hreach : Reachable r := (Reachable.empty _ _).after Sample.loadedLater
  have hcall : singleUse ⟨1⟩ 1 ⟨0⟩ { routine := r } = .ok 1 _ :=
    eq_ok_of_answer? (by decide +kernel)
  refine ⟨hreach, by decide +kernel, _, hcall, ?_⟩
  decide +kernel

set_option maxRecDepth 8000 in
example : (Sample.build Sample.loadedLater).Overtakes ⟨1⟩ 1 1 (⟨5⟩, .ldloc ⟨0⟩)
    (⟨3⟩, .stloc ⟨0⟩) := by
  decide +kernel

end Inliner

end CilFold
