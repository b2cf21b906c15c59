/-
  Whether one call of the inliner folds all that can be folded. The inliner looks for the loads
  of definitions in the instruction that it was given, and remembers that one by its handle.
  What it stops at, a second call stops at as well, as long as the instruction is still there
  (`foldInto_again`, `Moves.target_stays`). Only when the instruction is itself the load of the
  nearest definition, the value takes its place, and the handle has no node any more
  (`StopsShort`): the call ends after this one move, and a second call goes on with the value.
-/
import CilFold.Proofs.Absorption
import CilFold.Proofs.SelfStoreShape

namespace CilFold

namespace Routine

variable {r s : Routine} {block d id k load p target value : NodeId} {index count : Nat}
  {t : Tree NodeId} {options : InlineOptions}

/-! ## The checks of the inliner on one tree in two arenas -/

section Congr

variable (F : r.Forest) (F' : s.Forest) (ht : r.Holds t) (ht' : s.Holds t)
include F F' ht ht'

theorem isPureTree_congr : s.isPureTree t.label = r.isPureTree t.label := by
  rw [isPureTree, isPureTree, ← F.labels_eq_preorder ht, ← F'.labels_eq_preorder ht']
  exact all_congr fun k hk => by rw [(node_congr ht ht' hk).1]

/-- Inside a tree the way up is the same in both arenas, and so is what is evaluated before. -/
theorem evaluatedFirstTo_congr {height height' : Nat} (hk : k ∈ t.labels)
    (hheight : (r.lineage k).length ≤ height) (hheight' : (s.lineage k).length ≤ height') :
    s.evaluatedFirstTo t.label height' k = r.evaluatedFirstTo t.label height k := by
  induction height generalizing height' k with
  | zero =>
    have hpos := Forest.length_lineage_pos r k
    omega
  | succ height ih =>
    have hpos := Forest.length_lineage_pos s k
    obtain ⟨height', rfl⟩ : ∃ n, height' = n + 1 := ⟨height' - 1, by omega⟩
    rw [evaluatedFirstTo, evaluatedFirstTo]
    by_cases htop : k = t.label
    · rw [htop, beq_self_eq_true, Bool.true_or, Bool.true_or]
    · rw [beq_eq_false_iff_ne.mpr htop, Bool.false_or, Bool.false_or]
      obtain ⟨p, hp, habove⟩ := ((F.mem_labels ht).mp hk).cases.resolve_left (Ne.symm htop)
      have hmem : p ∈ t.labels := (F.mem_labels ht).mpr habove
      obtain ⟨hop, hchildren⟩ := node_congr ht ht' hmem
      have hp' : s.parent? k = some p := F'.parent?_of_mem (hchildren ▸ F.listed hp)
      obtain ⟨n, hn⟩ := F.exists_parent_node? hp
      obtain ⟨m, hm⟩ := F'.exists_parent_node? hp'
      rw [op?_of_node? hn, op?_of_node? hm, Option.some.injEq] at hop
      rw [children_of_node? hn, children_of_node? hm] at hchildren
      rw [F.lineage_cons hp, List.length_cons] at hheight
      rw [F'.lineage_cons hp', List.length_cons] at hheight'
      have hpure : ∀ c ∈ n.children.takeWhile (· != k), s.isPureTree c = r.isPureTree c := by
        intro c hc
        have hchild : c ∈ r.children p := children_of_node? hn ▸ (List.takeWhile_sublist _).mem hc
        have hbelow : c ∈ t.labels :=
          (F.mem_labels ht).mpr (habove.trans (Above.parent (F.parent?_of_mem hchild)))
        obtain ⟨u, hu, rfl⟩ := List.mem_map.mp hbelow
        exact isPureTree_congr F F' (ht.subtree hu) (ht'.subtree hu)
      simp only [hp, hp', hn, hm]
      rw [hop, hchildren, all_congr hpure, ih hmem (by omega) (by omega)]

theorem evaluatedFirst_congr (k : NodeId) :
    s.evaluatedFirst t.label k = r.evaluatedFirst t.label k := by
  by_cases hk : k ∈ t.labels
  · obtain ⟨u, hu, rfl⟩ := List.mem_map.mp hk
    exact evaluatedFirstTo_congr F F' ht ht' hk (F.length_lineage_le (ht.subtree hu).alive)
      (F'.length_lineage_le (ht'.subtree hu).alive)
  · have hr : r.evaluatedFirst t.label k = false := Bool.eq_false_iff.mpr fun h =>
      hk ((F.mem_labels ht).mpr (inside_of_evaluatedFirst h).above)
    have hs : s.evaluatedFirst t.label k = false := Bool.eq_false_iff.mpr fun h =>
      hk ((F'.mem_labels ht').mpr (inside_of_evaluatedFirst h).above)
    rw [hr, hs]

end Congr

/-- Whether a definition can be folded depends on what it stores, on the kind and the uses of its
    variable, and on the place of the load. -/
theorem foldable?_congr (hhead : SameHead r s) (hstore : s.stloc? d = r.stloc? d)
    (huses : ∀ v val x y, r.stloc? d = some (v, val) → r.var? v = some x → s.var? v = some y →
      ∀ kind, (y.uses kind).Perm (x.uses kind))
    (hfirst : ∀ k, s.evaluatedFirst target k = r.evaluatedFirst target k) :
    s.foldable? target options d = r.foldable? target options d := by
  ext ⟨value, load⟩
  rw [foldable?_eq_some, foldable?_eq_some, hstore]
  refine exists_congr fun v => ?_
  have hvar := hhead.var? v
  constructor
  · intro ⟨y, store, hst, hy, hs, hl, ha, hkind, hload⟩
    rw [hy, Option.map_some] at hvar
    obtain ⟨x, hx, hbare⟩ := Option.map_eq_some_iff.mp hvar.symm
    have hperm := fun kind => (huses v value x y hst hx hy kind).symm
    have hsame : x.kind = y.kind := (congrArg Variable.kind hbare :)
    exact ⟨x, store, hst, hx, List.perm_singleton.mp (hs ▸ hperm .store),
      List.perm_singleton.mp (hl ▸ hperm .load), List.perm_nil.mp (ha ▸ hperm .address),
      hsame ▸ hkind, hfirst load ▸ hload⟩
  · intro ⟨x, store, hst, hx, hs, hl, ha, hkind, hload⟩
    rw [hx, Option.map_some] at hvar
    obtain ⟨y, hy, hbare⟩ := Option.map_eq_some_iff.mp hvar
    have hperm := huses v value x y hst hx hy
    have hsame : y.kind = x.kind := (congrArg Variable.kind hbare :)
    exact ⟨y, store, hst, hy, List.perm_singleton.mp (hs ▸ hperm .store),
      List.perm_singleton.mp (hl ▸ hperm .load), List.perm_nil.mp (ha ▸ hperm .address),
      hsame ▸ hkind, (hfirst load).symm ▸ hload⟩

namespace Movable

variable (M : r.Movable block target index d value load p) (V : r.Valid)
include M V

/-- A move leaves the uses of the other variables. -/
theorem use?_move_iff {v : VarId} {kind : UseKind} (hd : r.op? d ≠ some (.stloc v)) :
    (r.move block index d value load p).use? k = some (kind, v) ↔ r.use? k = some (kind, v) := by
  rw [(M.views_move V.forest k).use?]
  split_ifs with hgone
  · refine iff_of_false (fun h => nomatch h) fun huse => ?_
    -- the definition and the load use another variable
    obtain ⟨u, _, hstore, hload, _⟩ := M.single
    have huv : u ≠ v := fun h => hd (h ▸ hstore)
    have hgone : ∃ o used, r.op? k = some o ∧ o.use? = some (used, u) :=
      hgone.elim (fun h => ⟨_, _, h ▸ hstore, rfl⟩) fun h => ⟨_, _, h ▸ hload, rfl⟩
    obtain ⟨o, used, ho, hu⟩ := hgone
    obtain ⟨n, hn, _, hv⟩ := use?_eq_some huse
    cases (op?_of_node? hn).symm.trans ho
    cases hu.symm.trans hv
    exact huv rfl
  · exact Iff.rfl

/-- A move does not change whether another definition in front can be folded into the value. -/
theorem foldable?_move {first : NodeId} (hfirst : first ∈ (r.instructions block).take index) :
    (r.move block index d value load p).foldable? value options first =
      r.foldable? value options first := by
  have F := V.forest
  have V' := M.valid_move V
  obtain ⟨_, _, J, _⟩ := M.absorbs F V
  have hfront : first ∈ (r.move block index d value load p).consumed block index index := by
    rw [consumed, Nat.sub_self, List.drop_zero, J.take (Nat.le_refl index)]
    exact hfirst
  -- the definition stays as it is
  obtain ⟨halive, halive', htree⟩ := M.consumed_move V hfront
  have ht := F.holds_tree halive
  have ht' := V'.forest.holds_tree halive'
  rw [htree] at ht'
  have htop : first ∈ (r.tree first).labels := by
    rw [← F.above_iff_mem_tree halive]
    exact Above.refl r first
  obtain ⟨hop, hchildren⟩ := node_congr ht ht' htop
  have hconn : r.isConnected first = true :=
    (F.shared (F.parent?_of_mem (mem_children_of_mem_instructions
      (List.mem_of_mem_take hfirst)))).trans M.connected
  have hne := (J.ne_of_mem F (.inl hfirst)).1
  refine foldable?_congr (sameHead_move r block index d value load p)
    (stloc?_congr hop hchildren) (fun v val x y hst hx hy kind => ?_) fun k => ?_
  · have hstore := (stloc?_eq_some.mp hst).1
    have hother : r.op? d ≠ some (.stloc v) := fun hd => hne (M.only v first hd hstore hconn)
    refine (List.perm_ext_iff_of_nodup (V'.uses v y hy kind).1 (V.uses v x hx kind).1).mpr
      fun k => ?_
    rw [(V'.uses v y hy kind).2 k, (V.uses v x hx kind).2 k, M.use?_move_iff V hother]
  · have hvalue := F.holds_tree (isAlive_of_parent? (M.parent_value F))
    have hsame := evaluatedFirst_congr F V'.forest hvalue (M.holds_value_move F) k
    rwa [label_tree] at hsame

omit V in
/-- The definition of a move is folded into no other place, and nothing else is folded. -/
theorem eq_of_foldable {value' load' : NodeId}
    (h : r.foldable? target options d = some (value', load')) :
    value' = value ∧ load' = load := by
  obtain ⟨v, x, _, hst, hx, _, hl, _⟩ := foldable?_eq_some.mp h
  obtain ⟨u, y, hstore, _, hy, _, hloads, _⟩ := M.single
  obtain ⟨hop, hchildren⟩ := stloc?_eq_some.mp hst
  cases hop.symm.trans hstore
  cases hx.symm.trans hy
  exact ⟨(List.cons.inj (hchildren.symm.trans M.value)).1,
    (List.cons.inj (hl.symm.trans hloads)).1⟩

/-- Where the instruction is itself the load, the value takes its place. -/
theorem getElem?_move_of_load (hload : load = target) :
    ((r.move block index d value load p).instructions block)[index]? = some value := by
  have F := V.forest
  have V' := M.valid_move V
  have hinst : (r.move block index d value load p).instructions block =
      (r.move block index d value load p).children block := if_pos (M.isBlock_move F)
  obtain ⟨head, hget, hhead⟩ := M.getElem?_move F
  rcases hhead with rfl | ⟨rfl, _⟩
  · have halive := V'.forest.alive_of_mem_children (List.mem_of_getElem? hget)
    exact absurd hload.symm (M.alive_move F halive).2.2
  · rw [hinst, hget]

end Movable

namespace Moves

variable (V : r.Valid)
include V

/-- Nothing moves into a handle without a node. -/
theorem eq_of_dead (h : Moves block target index count r s) (hdead : r.isAlive target = false) :
    count = 0 ∧ s = r := by
  cases h with
  | done => exact ⟨rfl, rfl⟩
  | step M _ =>
    rw [isAlive_of_parent? (M.parent_target V.forest)] at hdead
    cases hdead

/-- An instruction that is not itself a load stays, and comes to stand where the first of the
    consumed definitions stood. -/
theorem target_stays (h : Moves block target index count r s)
    (htarget : (r.instructions block)[index]? = some target)
    (hop : ∀ v, r.op? target ≠ some (.ldloc v)) :
    (s.instructions block)[index - count]? = some target := by
  induction h with
  | done => exact htarget
  | @step r s d value load p index count M hrest ih =>
    have F := V.forest
    have hne : target ≠ load := by
      rintro rfl
      obtain ⟨v, hv⟩ := M.loads
      exact hop v hv
    have hview := (M.views_move F target).op
    rw [if_neg (not_or.mpr ⟨(M.definition_ne_target F).symm, hne⟩)] at hview
    obtain ⟨op, ho⟩ := exists_op?_of_isAlive (isAlive_of_parent? (M.parent_target F))
    have halive := isAlive_of_op? (hview.trans ho)
    have hop' : ∀ v, (r.move block index d value load p).op? target ≠ some (.ldloc v) := by
      intro v
      rw [hview]
      exact hop v
    rw [Nat.add_sub_add_right]
    refine ih (M.valid_move V) ?_ hop'
    rw [instructions, if_pos (M.isBlock_move F)]
    exact M.target_move F halive

end Moves

/-- The nearest definition in front of an index can be folded into the instruction there, which
    is itself the load, and the definition in front of it can be folded into the value. -/
def StopsShort (r : Routine) (block : NodeId) (index : Nat) (options : InlineOptions) : Prop :=
  ∃ i first second target value, index = i + 2 ∧
    (r.instructions block)[i]? = some first ∧ (r.instructions block)[i + 1]? = some second ∧
    (r.instructions block)[i + 2]? = some target ∧
    r.foldable? target options second = some (value, target) ∧
    (r.foldable? value options first).isSome = true

theorem stopsShort_iff {i : Nat} (hd : (r.instructions block)[i]? = some d)
    (ht : (r.instructions block)[i + 1]? = some target) :
    r.StopsShort block (i + 1) options ↔
      ∃ value, r.foldable? target options d = some (value, target) ∧
        ∃ j first, i = j + 1 ∧ (r.instructions block)[j]? = some first ∧
          (r.foldable? value options first).isSome = true := by
  constructor
  · intro ⟨j, first, second, target', value, hindex, hfirst, hsecond, htarget, hfold, hsome⟩
    obtain rfl : i = j + 1 := by omega
    cases hd.symm.trans hsecond
    cases ht.symm.trans htarget
    exact ⟨value, hfold, j, first, rfl, hfirst, hsome⟩
  · intro ⟨value, hfold, j, first, hindex, hfirst, hsome⟩
    subst hindex
    exact ⟨j, first, d, target, value, rfl, hfirst, hd, ht, hfold, hsome⟩

end Routine

namespace Inliner

open Routine PassM

variable {w w' : Work} {block target : NodeId} {index count : Nat} {options : InlineOptions}

/-- Folding into the same handle once more does nothing. -/
theorem foldInto_again (h : foldInto block target options index w = .ok count w') :
    foldInto block target options (index - count) w' = .ok 0 w' := by
  induction index generalizing w count with
  | zero =>
    cases h
    rfl
  | succ index ih =>
    obtain ⟨d, w₁, hd, h₁⟩ := bind_ok_iff.mp h
    obtain ⟨r, w₂, hr, h₂⟩ := bind_ok_iff.mp h₁
    cases hr
    obtain rfl := eq_of_instruction hd
    cases hf : w₁.routine.foldable? target options d with
    | none =>
      rw [hf] at h₂
      cases h₂
      exact h
    | some pair =>
      rw [hf] at h₂
      obtain ⟨_, w₂, _, h₃⟩ := bind_ok_iff.mp h₂
      obtain ⟨_, w₃, _, h₄⟩ := bind_ok_iff.mp h₃
      obtain ⟨_, w₄, _, h₅⟩ := bind_ok_iff.mp h₄
      obtain ⟨_, w₅, _, h₆⟩ := bind_ok_iff.mp h₅
      obtain ⟨more, w₆, hmore, hdone⟩ := bind_ok_iff.mp h₆
      cases hdone
      rw [Nat.add_sub_add_right]
      exact ih hmore

/-- Where the inliner consumes nothing, it changes nothing and does not stop short. -/
theorem singleUse_idle (h : singleUse block index options w = .ok 0 w') :
    w' = w ∧ ¬ w.routine.StopsShort block index options := by
  cases ht : (w.routine.instructions block)[index]? with
  | none =>
    cases (singleUse_eq_zero ht).symm.trans h
    refine ⟨rfl, ?_⟩
    intro ⟨i, _, _, target, _, hindex, _, _, htarget, _⟩
    rw [← hindex, ht] at htarget
    cases htarget
  | some target =>
    rw [singleUse_eq ht] at h
    cases index with
    | zero =>
      cases h
      exact ⟨rfl, fun ⟨i, _, _, _, _, hindex, _⟩ => by omega⟩
    | succ index =>
      obtain ⟨hlt, _⟩ := List.getElem?_eq_some_iff.mp ht
      have hd := List.getElem?_eq_getElem (Nat.lt_of_succ_lt hlt)
      obtain ⟨hnone, heq⟩ := (foldInto_eq_zero_iff hd).mp h
      refine ⟨heq, ?_⟩
      rw [stopsShort_iff hd ht, hnone]
      intro ⟨_, hfold, _⟩
      cases hfold

/-- The definition that the inliner moved first could be folded. -/
theorem foldable?_of_movable {d value load p : NodeId}
    (M : w.routine.Movable block target index d value load p)
    (hd : (w.routine.instructions block)[index]? = some d)
    (h : foldInto block target options (index + 1) w = .ok (count + 1) w') :
    w.routine.foldable? target options d = some (value, load) := by
  cases hf : w.routine.foldable? target options d with
  | none =>
    have hzero : foldInto block target options (index + 1) w = .ok 0 w :=
      (foldInto_eq_zero_iff hd).mpr ⟨hf, rfl⟩
    cases h.symm.trans hzero
  | some pair =>
    obtain ⟨hvalue, hload⟩ := M.eq_of_foldable hf
    rw [← hvalue, ← hload]

/-- After the only move into an instruction that is itself the load, a call goes on with the value
    if the next definition can be folded into it. -/
theorem singleUse_of_load {d value p : NodeId} {i : Nat} (V : w.routine.Valid)
    (M : w.routine.Movable block target i d value target p)
    (hmove : w'.routine = w.routine.move block i d value target p)
    (hfold : w.routine.foldable? target options d = some (value, target)) :
    singleUse block i options w' = .ok 0 w' ↔
      ¬ w.routine.StopsShort block (i + 1) options := by
  obtain ⟨_, _, J, _⟩ := M.absorbs V.forest V
  rw [singleUse_eq (hmove ▸ M.getElem?_move_of_load V rfl), stopsShort_iff J.definition J.target,
    hfold]
  cases i with
  | zero => exact iff_of_true rfl fun ⟨_, _, j, _, hindex, _⟩ => by omega
  | succ j =>
    obtain ⟨hlt, _⟩ := List.getElem?_eq_some_iff.mp J.definition
    have hfirst := List.getElem?_eq_getElem (Nat.lt_of_succ_lt hlt)
    have hmem := List.mem_of_getElem? ((List.getElem?_take_of_lt (Nat.lt_succ_self j)).trans hfirst)
    have hfirst' := congrArg (·[j]?) (J.take (Nat.le_refl (j + 1)))
    simp only [List.getElem?_take_of_lt (Nat.lt_succ_self j), hfirst] at hfirst'
    rw [foldInto_eq_zero_iff (hmove ▸ hfirst'), hmove, M.foldable?_move V hmem,
      and_iff_left rfl, ← Option.not_isSome_iff_eq_none, not_iff_not]
    constructor
    · intro hsome
      exact ⟨value, rfl, j, _, rfl, hfirst, hsome⟩
    · intro ⟨value', hvalue, i, first, hindex, hi, hsome⟩
      obtain rfl : j = i := by omega
      cases hvalue
      cases hfirst.symm.trans hi
      exact hsome

/-- After moves into an instruction with the load below it, a call does nothing, and the first one
    has not stopped short. -/
theorem singleUse_of_below {d value load p : NodeId} (V : w.routine.Valid)
    (M : w.routine.Movable block target index d value load p)
    (hmoves : Moves block target (index + 1) count w.routine w'.routine)
    (hcall : foldInto block target options (index + 1) w = .ok count w')
    (hfold : w.routine.foldable? target options d = some (value, load)) (hload : load ≠ target) :
    singleUse block (index + 1 - count) options w' = .ok 0 w' ∧
      ¬ w.routine.StopsShort block (index + 1) options := by
  have F := V.forest
  obtain ⟨_, _, J, _⟩ := M.absorbs F V
  -- a load has nothing below it
  have hop : ∀ v, w.routine.op? target ≠ some (.ldloc v) := fun v hv =>
    hload (F.eq_of_above_leaf (F.children_of_ldloc hv) M.inside.above)
  refine ⟨?_, ?_⟩
  · rw [singleUse_eq (hmoves.target_stays V J.target hop)]
    exact foldInto_again hcall
  · rw [stopsShort_iff J.definition J.target, hfold]
    intro ⟨_, hvalue, _⟩
    cases hvalue
    exact hload rfl

/-- One call of the inliner on a valid routine folds all that can be folded, so that a second
    call where the first one has stopped does nothing, except exactly when it stops short. -/
theorem singleUse_exhausts_iff (hreach : Reachable w.routine)
    (hvalid : w.routine.validate = .ok ()) (block : NodeId) (index : Nat)
    (options : InlineOptions) :
    ∃ count w', singleUse block index options w = .ok count w' ∧
      (singleUse block (index - count) options w' = .ok 0 w' ↔
        ¬ w.routine.StopsShort block index options) := by
  have V := (Routine.valid_iff hreach).mp hvalid
  have F := V.forest
  obtain ⟨count, w', hcall, hmoves⟩ := singleUse_moves V block index options
  refine ⟨count, w', hcall, ?_⟩
  cases count with
  | zero =>
    obtain ⟨rfl, hstops⟩ := singleUse_idle hcall
    exact iff_of_true hcall hstops
  | succ count =>
    rcases hmoves with ⟨hzero, _⟩ | ⟨target, ht, _, hmoves⟩
    · cases hzero
    rw [singleUse_eq ht] at hcall
    generalize hs : w'.routine = s at hmoves
    cases hmoves with
    | @step _ _ d value load p index _ M hrest =>
      obtain ⟨_, _, J, _⟩ := M.absorbs F V
      have hfold := foldable?_of_movable M J.definition hcall
      by_cases hload : load = target
      · -- the handle has no node after the first move
        subst hload
        have hdead : (w.routine.move block index d value load p).isAlive load = false :=
          Bool.eq_false_iff.mpr fun halive => (M.alive_move F halive).2.2 rfl
        obtain ⟨rfl, hmove⟩ := hrest.eq_of_dead (M.valid_move V) hdead
        exact singleUse_of_load V M (hs.trans hmove) hfold
      · have hmoves := Moves.step M hrest
        obtain ⟨hidle, hgoes⟩ := singleUse_of_below V M (hs ▸ hmoves) hcall hfold hload
        exact iff_of_true hidle hgoes

namespace Sample

/-- The calls that build a routine with two slots, the second one filled from the first one, and
    a load of the second one, `ldloc t`, that is not yet in the block:

      stloc s(call Make())
      stloc t(ldloc s) -/
def chain : List Primitive :=
  [ .declare .stackSlot 0 "s" item, .declare .stackSlot 1 "t" item, .newBlock ⟨0⟩ .controlFlow,
    .create (.call make) [], .create (.stloc ⟨0⟩) [⟨2⟩], .push ⟨1⟩ ⟨3⟩,
    .load ⟨0⟩, .create (.stloc ⟨1⟩) [⟨4⟩], .push ⟨1⟩ ⟨5⟩, .load ⟨1⟩]

/-- The chain with `ret(ldloc t)` behind it. -/
def returned : List Primitive := chain ++ [.create .ret [⟨6⟩], .push ⟨1⟩ ⟨7⟩]

/-- The chain with `ldloc t` behind it. -/
def loaded : List Primitive := chain ++ [.push ⟨1⟩ ⟨6⟩]

end Sample

set_option maxRecDepth 8000 in
/-- The whole chain is folded into a return, and a second call finds nothing. -/
theorem chain_exhausted :
    let r := Sample.build Sample.returned
    ¬ r.StopsShort ⟨1⟩ 2 ⟨0⟩ ∧ ∃ w', singleUse ⟨1⟩ 2 ⟨0⟩ { routine := r } = .ok 2 w' ∧
      w'.routine.instructions ⟨1⟩ = [⟨7⟩] ∧ w'.routine.children ⟨7⟩ = [⟨2⟩] ∧
      singleUse ⟨1⟩ 0 ⟨0⟩ w' = .ok 0 w' := by
  intro r
  have hreach : Reachable r := (Reachable.empty _ _).after Sample.returned
  have hcall : singleUse ⟨1⟩ 2 ⟨0⟩ { routine := r } = .ok 2 _ :=
    eq_ok_of_answer? (by decide +kernel)
  obtain ⟨_, _, hsame, hagain⟩ :=
    singleUse_exhausts_iff (w := { routine := r }) hreach (by decide +kernel) ⟨1⟩ 2 ⟨0⟩
  cases hcall.symm.trans hsame
  have hgoes : ¬ r.StopsShort ⟨1⟩ 2 ⟨0⟩ := by
    intro ⟨i, first, second, target, value, hindex, _, hsecond, htarget, hfold, _⟩
    obtain rfl : i = 0 := by omega
    have hinst : r.instructions ⟨1⟩ = [⟨3⟩, ⟨5⟩, ⟨7⟩] := by decide +kernel
    rw [hinst] at hsecond htarget
    cases hsecond
    cases htarget
    have hload : r.foldable? ⟨7⟩ ⟨0⟩ ⟨5⟩ = some (⟨4⟩, ⟨6⟩) := by decide +kernel
    cases hload.symm.trans hfold
  exact ⟨hgoes, _, hcall, by decide +kernel, by decide +kernel, hagain.mpr hgoes⟩

set_option maxRecDepth 8000 in
/-- Into an instruction that is itself a load, one call folds one definition of the chain, and
    the next call the other one. -/
theorem chain_stops_short :
    let r := Sample.build Sample.loaded
    Reachable r ∧ r.validate = .ok () ∧ ∃ w' w'',
      singleUse ⟨1⟩ 2 ⟨0⟩ { routine := r } = .ok 1 w' ∧
      w'.routine.instructions ⟨1⟩ = [⟨3⟩, ⟨4⟩] ∧
      singleUse ⟨1⟩ 1 ⟨0⟩ w' = .ok 1 w'' ∧ w''.routine.instructions ⟨1⟩ = [⟨2⟩] := by
  intro r
  have hreach : Reachable r := (Reachable.empty _ _).after Sample.loaded
  have hfirst : singleUse ⟨1⟩ 2 ⟨0⟩ { routine := r } = .ok 1 _ :=
    eq_ok_of_answer? (by decide +kernel)
  have hsecond : singleUse ⟨1⟩ 1 ⟨0⟩ ((singleUse ⟨1⟩ 2 ⟨0⟩).after { routine := r }) = .ok 1 _ :=
    eq_ok_of_answer? (by decide +kernel)
  exact ⟨hreach, by decide +kernel, _, _, hfirst, by decide +kernel, hsecond, by decide +kernel⟩

end Inliner

end CilFold
