/-
  The cursor of a scan when instructions are removed around it. A removal takes an instruction out
  of a block, together with the definitions right in front of it that the inliner has consumed
  (`Removal.cut`); `rewind` gives the cursor its new place. This is the number of the instructions
  in front of the cursor that are left (`rewind_eq`), so that what the scan has passed stays in
  front of the cursor and nothing else comes there (`Tracks.passed`). The same holds for removals
  one after another (`Removal.rewindAll_tracks`).

  In a block the instruction behind the gap is changed by what is folded into it. All others are
  where the removal leaves them (`Context.vacate_cuts`).
-/
import CilFold.Proofs.Absorption

namespace CilFold

universe u

/-- The removal of the element at an index, and of some elements right in front of it. -/
structure Removal where
  index : Nat
  inlined : Nat
  le : inlined ≤ index
deriving DecidableEq

namespace Removal

variable {α : Type u} (c : Removal) {l : List α} {cs : List Removal} {cursor i : Nat}

/-- The first index that is cut out. -/
def first : Nat := c.index - c.inlined

/-- What the removal leaves of a list. -/
def cut (l : List α) : List α := l.take c.first ++ l.drop (c.index + 1)

/-- How many of the elements in front of a cursor are left. -/
def moved (cursor : Nat) : Nat := min cursor c.first + (cursor - (c.index + 1))

/-! ## One removal -/

theorem length_cut (h : c.index < l.length) :
    (c.cut l).length + (c.inlined + 1) = l.length := by
  have hle := c.le
  rw [cut, List.length_append, List.length_take, List.length_drop, first]
  omega

theorem first_add_inlined : c.first + c.inlined = c.index := Nat.sub_add_cancel c.le

theorem length_front (h : c.index < l.length) : (l.take c.first).length = c.first := by
  have hfirst : c.first ≤ c.index := Nat.sub_le _ _
  rw [List.length_take]
  omega

theorem getElem?_cut_of_lt (h : c.index < l.length) (hi : i < c.first) : (c.cut l)[i]? = l[i]? := by
  have hfront : i < (l.take c.first).length := by rwa [c.length_front h]
  rw [cut, List.getElem?_append_left hfront, List.getElem?_take_of_lt hi]

theorem getElem?_cut_of_le (h : c.index < l.length) (hi : c.first ≤ i) :
    (c.cut l)[i]? = l[i + (c.inlined + 1)]? := by
  have hfirst := c.first_add_inlined
  have hfront := c.length_front h
  rw [cut, List.getElem?_append_right (by omega), List.getElem?_drop, hfront]
  congr 1
  omega

/-- The first element behind the gap may be changed. All others are as the removal leaves them. -/
theorem getElem?_cut_of_ne {tail : List α} (h : c.index < l.length)
    (htail : tail.drop 1 = l.drop (c.index + 2)) (hne : i ≠ c.first) :
    (l.take c.first ++ tail)[i]? = (c.cut l)[i]? := by
  have hfirst := c.first_add_inlined
  have hfront := c.length_front h
  rcases Nat.lt_or_gt_of_ne hne with hbefore | hbehind
  · rw [c.getElem?_cut_of_lt h hbefore, List.getElem?_append_left (by omega),
      List.getElem?_take_of_lt hbefore]
  · obtain ⟨j, rfl⟩ := Nat.exists_eq_add_of_lt hbehind
    have hstep : c.first + j + 1 - c.first = 1 + j := by omega
    have hplace : c.index + 2 + j = c.first + j + 1 + (c.inlined + 1) := by omega
    rw [c.getElem?_cut_of_le h (by omega), List.getElem?_append_right (by omega), hfront, hstep,
      ← List.getElem?_drop, htail, List.getElem?_drop, hplace]

theorem take_cut (h : c.index < l.length) (cursor : Nat) :
    (c.cut l).take (c.moved cursor) = c.cut (l.take cursor) := by
  have hfirst : c.first ≤ c.index := Nat.sub_le _ _
  have hfront : min (c.moved cursor) c.first = min c.first cursor := by
    rw [moved]
    omega
  have hback : c.moved cursor - min c.first l.length = cursor - (c.index + 1) := by
    rw [moved]
    omega
  rw [cut, cut, List.take_append, List.take_take, List.take_take, List.drop_take,
    List.length_take, hfront, hback]

/-- Where a removal may leave a cursor. -/
structure Tracks (l : List α) (cursor next : Nat) : Prop where
  within : next ≤ (c.cut l).length
  /-- The cursor stays with its element. -/
  outside : cursor < c.first ∨ c.index < cursor → (c.cut l)[next]? = l[cursor]?
  /-- If its element is gone, the cursor goes to the next one that is left. -/
  inside : c.first ≤ cursor → cursor ≤ c.index → (c.cut l)[next]? = l[c.index + 1]?
  /-- In front of the cursor is what is left of what was there. -/
  passed : (c.cut l).take next = c.cut (l.take cursor)
  shorter : (c.cut l).length - next ≤ l.length - cursor

theorem tracks_moved (h : c.index < l.length) (hcursor : cursor ≤ l.length) :
    c.Tracks l cursor (c.moved cursor) := by
  have hfirst := c.first_add_inlined
  have hlength := c.length_cut h
  have hmoved : c.moved cursor = min cursor c.first + (cursor - (c.index + 1)) := rfl
  refine ⟨by omega, ?_, ?_, c.take_cut h cursor, by omega⟩
  · rintro (hbefore | hbehind)
    · have hstay : c.moved cursor = cursor := by omega
      rw [hstay, c.getElem?_cut_of_lt h hbefore]
    · have hback : c.moved cursor + (c.inlined + 1) = cursor := by omega
      rw [c.getElem?_cut_of_le h (by omega), hback]
  · intro hfrom hto
    have hback : c.moved cursor + (c.inlined + 1) = c.index + 1 := by omega
    rw [c.getElem?_cut_of_le h (by omega), hback]

/-- Rewinding is not refused, wherever the cursor is. -/
theorem rewind_eq (cursor : Nat) (w : Work) :
    rewind cursor c.index c.inlined w = .ok (c.moved cursor) w := by
  have hle := c.le
  unfold rewind PassM.stepBack moved first
  split_ifs with hbehind hback hamong
  · show EStateM.Result.ok (cursor - (c.inlined + 1)) w = _
    congr 1
    omega
  · omega
  · show EStateM.Result.ok (c.index - c.inlined) w = _
    congr 1
    omega
  · show EStateM.Result.ok cursor w = _
    congr 1
    omega

/-! ## Removals one after another -/

/-- What is left of a list after all removals, each from what the ones before it have left. -/
def cutAll (cs : List Removal) (l : List α) : List α := cs.foldl (fun l c => c.cut l) l

/-- Every removal is of an element that is still there. -/
def Fit : List Removal → List α → Prop
  | [], _ => True
  | c :: cs, l => c.index < l.length ∧ Fit cs (c.cut l)

instance decidableFit : (cs : List Removal) → (l : List α) → Decidable (Fit cs l)
  | [], _ => .isTrue trivial
  | c :: cs, l =>
    have := decidableFit cs (c.cut l)
    inferInstanceAs (Decidable (c.index < l.length ∧ Fit cs (c.cut l)))

/-- Rewinds a cursor after each removal. -/
def rewindAll (cs : List Removal) (cursor : Nat) : PassM Nat :=
  cs.foldlM (fun cursor c => rewind cursor c.index c.inlined) cursor

theorem rewindAll_cons (cs : List Removal) (cursor : Nat) (w : Work) :
    rewindAll (c :: cs) cursor w = rewindAll cs (c.moved cursor) w := by
  rw [rewindAll, List.foldlM_cons]
  simp only [Bind.bind, EStateM.bind, c.rewind_eq]
  rfl

theorem rewindAll_tracks (h : Fit cs l) (hcursor : cursor ≤ l.length) (w : Work) :
    ∃ last, rewindAll cs cursor w = .ok last w ∧ last ≤ (cutAll cs l).length ∧
      (cutAll cs l).take last = cutAll cs (l.take cursor) ∧
      (cutAll cs l).length - last ≤ l.length - cursor := by
  induction cs generalizing l cursor with
  | nil => exact ⟨cursor, rfl, hcursor, rfl, Nat.le_refl _⟩
  | cons c cs ih =>
    obtain ⟨hindex, hrest⟩ := h
    have step := c.tracks_moved hindex hcursor
    obtain ⟨last, hrun, hwithin, hpassed, hshorter⟩ := ih hrest step.within
    refine ⟨last, (c.rewindAll_cons cs cursor w).trans hrun, hwithin, ?_,
      Nat.le_trans hshorter step.shorter⟩
    rw [step.passed] at hpassed
    exact hpassed

end Removal

/-! ## Removals from a block -/

open Routine PassM

variable {w : Work} {r : Routine} {block inst : NodeId} {index : Nat} (settings : Settings)

/-- Removing an instruction is not refused, also from a block that is not part of the tree. -/
theorem Context.vacate_vacates (V : r.Valid) (hi : (r.instructions block)[index]? = some inst) :
    Ends (Context.vacate { settings, inliner := Inliner.singleUse } block index) (w.on r)
      fun count w' => Vacated block index inst count r w'.routine ∧
        w'.routine.isBlock block = true := by
  obtain ⟨hblock, hchild⟩ := getElem?_instructions hi
  have V' := Vacated.valid_deleteAt V hi
  have hblock' := Vacated.isBlock_deleteAt V hi
  refine Ends.bind (Ends.edit (Edit.remove_ok hblock hchild) ?_)
  obtain ⟨count, w', hfold, hmoves⟩ := Inliner.singleUse_moves
    (w := w.on (r.deleteAt block index inst)) V' block index settings.inlining
  refine ⟨count, w', hfold, ?_⟩
  rcases hmoves with ⟨rfl, rfl⟩ | ⟨target, _, hconn, hmoves⟩
  · exact ⟨⟨block, .done⟩, hblock'⟩
  · exact ⟨⟨target, hmoves⟩, (hmoves.isBlock V' hblock' hconn).1⟩

/-- The instructions of the block are what the removal leaves of them, but for the one behind the
    removed one. It is now at the first index that was cut out; if it was a load itself, a value
    may have taken its place. -/
theorem Context.vacate_cuts (V : w.routine.Valid)
    (hindex : index < (w.routine.instructions block).length) :
    ∃ (c : Removal) (w' : Work), c.index = index ∧
      Context.vacate { settings, inliner := Inliner.singleUse } block index w =
        .ok c.inlined w' ∧
      (w'.routine.instructions block).length = (c.cut (w.routine.instructions block)).length ∧
      ∀ i, i ≠ c.first →
        (w'.routine.instructions block)[i]? = (c.cut (w.routine.instructions block))[i]? := by
  have hi := List.getElem?_eq_getElem hindex
  obtain ⟨hblock, _⟩ := getElem?_instructions hi
  obtain ⟨count, w', hrun, hv, hblock'⟩ := Context.vacate_vacates (w := w) settings V hi
  obtain ⟨tail, hchildren, _, htail⟩ := hv.children V hi
  have hle := hv.le
  have hlength := hv.length V hi
  rw [instructions, if_pos hblock] at hindex
  refine ⟨⟨index, count, hle⟩, w', rfl, hrun, ?_⟩
  rw [instructions, if_pos hblock', instructions, if_pos hblock]
  constructor
  · exact Nat.add_right_cancel (hlength.trans (Removal.length_cut ⟨_, _, hle⟩ hindex).symm)
  · intro i hne
    rw [hchildren]
    exact Removal.getElem?_cut_of_ne _ hindex htail hne

/-- The cursor of a scan is rewound to where its instruction is. For every list and every removal
    from it, rewinding is not refused and gives a cursor that is within what is left. It is at the
    same element as before if that is left, else at the one behind the removed one, and there are
    not more elements to come than before. So it is for removals one after another, and the
    instructions of a block from which one is removed are such a list, but for the one into which
    definitions are folded. -/
theorem rewind_tracks_cursor (α : Type u) :
    (∀ (c : Removal) (l : List α) (cursor : Nat) (w : Work), c.index < l.length →
      cursor ≤ l.length → ∃ next, rewind cursor c.index c.inlined w = .ok next w ∧
        c.Tracks l cursor next) ∧
    (∀ (cs : List Removal) (l : List α) (cursor : Nat) (w : Work), Removal.Fit cs l →
      cursor ≤ l.length → ∃ last, Removal.rewindAll cs cursor w = .ok last w ∧
        last ≤ (Removal.cutAll cs l).length ∧
        (Removal.cutAll cs l).take last = Removal.cutAll cs (l.take cursor) ∧
        (Removal.cutAll cs l).length - last ≤ l.length - cursor) ∧
    ∀ (settings : Settings) (block : NodeId) (index : Nat) (w : Work), Reachable w.routine →
      w.routine.validate = .ok () → index < (w.routine.instructions block).length →
      ∃ (c : Removal) (w' : Work), c.index = index ∧
        Context.vacate { settings, inliner := Inliner.singleUse } block index w =
          .ok c.inlined w' ∧
        (w'.routine.instructions block).length = (c.cut (w.routine.instructions block)).length ∧
        ∀ i, i ≠ c.first →
          (w'.routine.instructions block)[i]? = (c.cut (w.routine.instructions block))[i]? := by
  refine ⟨fun c l cursor w hindex hcursor => ?_, fun cs l cursor w hfit hcursor => ?_,
    fun settings block index w hreach hvalid hindex => ?_⟩
  · exact ⟨_, c.rewind_eq cursor w, c.tracks_moved hindex hcursor⟩
  · exact Removal.rewindAll_tracks hfit hcursor w
  · exact Context.vacate_cuts settings ((valid_iff hreach).mp hvalid) hindex

namespace Removal.Sample

/-- The calls that build the routine of two slots with a `nop` behind their definitions:

      stloc s(call Make())
      stloc t(call Make())
      nop
      stobj Item(ldloc s, ldloc t) -/
def spaced : List Primitive :=
  Inliner.Sample.twoSlots ++ [.nop, .insert ⟨1⟩ 2 ⟨9⟩]

end Removal.Sample

set_option maxRecDepth 8000 in
/-- A cursor behind the removed element, one among the elements that are gone, and two removals one
    after another; in the block both definitions are consumed when the `nop` is removed. -/
theorem cursor_rewound :
    let c : Removal := ⟨4, 2, by decide⟩
    let r := Inliner.Sample.build Removal.Sample.spaced
    let w : Work := { routine := r }
    c.cut [10, 11, 12, 13, 14, 15, 16] = [10, 11, 15, 16] ∧
    (∃ next, rewind 6 4 2 w = .ok next w ∧ [10, 11, 15, 16][next]? = some 16) ∧
    (∃ next, rewind 3 4 2 w = .ok next w ∧ [10, 11, 15, 16][next]? = some 15) ∧
    (∃ last, Removal.rewindAll [c, ⟨0, 0, by decide⟩] 6 w = .ok last w ∧
      [11, 15, 16].take last = [11, 15]) ∧
    r.instructions ⟨1⟩ = [⟨3⟩, ⟨5⟩, ⟨9⟩, ⟨8⟩] ∧
    ∃ w', Context.vacate { settings := {}, inliner := Inliner.singleUse } ⟨1⟩ 2 w = .ok 2 w' ∧
      (w'.routine.instructions ⟨1⟩).length = 1 ∧ w'.routine.instructions ⟨1⟩ = [⟨8⟩] := by
  intro c r w
  obtain ⟨hone, hall, hblock⟩ := rewind_tracks_cursor Nat
  obtain ⟨behind, hbehind, tracks⟩ :=
    hone c [10, 11, 12, 13, 14, 15, 16] 6 w (by decide) (by decide)
  obtain ⟨among, hamong, tracks'⟩ :=
    hone c [10, 11, 12, 13, 14, 15, 16] 3 w (by decide) (by decide)
  obtain ⟨last, hlast, _, hpassed, _⟩ :=
    hall [c, ⟨0, 0, by decide⟩] [10, 11, 12, 13, 14, 15, 16] 6 w (by decide) (by decide)
  have hreach : Reachable r := (Reachable.empty _ _).after Removal.Sample.spaced
  have hcall : Context.vacate { settings := {}, inliner := Inliner.singleUse } ⟨1⟩ 2 w = .ok 2 _ :=
    eq_ok_of_answer? (by decide +kernel)
  obtain ⟨⟨index, inlined, hle⟩, w', rfl, hrun, hlength, _⟩ :=
    hblock {} ⟨1⟩ 2 w hreach (by decide +kernel) (by decide +kernel)
  cases hcall.symm.trans hrun
  have hinst : r.instructions ⟨1⟩ = [⟨3⟩, ⟨5⟩, ⟨9⟩, ⟨8⟩] := by decide +kernel
  rw [hinst] at hlength
  exact ⟨rfl, ⟨behind, hbehind, tracks.outside (by decide)⟩,
    ⟨among, hamong, tracks'.inside (by decide) (by decide)⟩, ⟨last, hlast, hpassed⟩, hinst, _, hcall,
    hlength, by decide +kernel⟩

end CilFold
