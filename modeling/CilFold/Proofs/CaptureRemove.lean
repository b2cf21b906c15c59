/-
  The last part of the fold of a capture object: the forwarding stores go, the one at the
  highest position first. A store that is still alive is an instruction of the block it was in
  at the start, so it can be removed; one that went with another store is passed over.
-/
import CilFold.Proofs.CaptureRefer

namespace CilFold

open Routine PassM

/-! ## Lists of pending stores -/

/-- Putting another element into the place of one is taking that one out and adding the other. -/
theorem perm_replace {α : Type} [DecidableEq α] {l : List α} {a b : α} (h : a ∈ l) :
    (l.replace a b).Perm (b :: l.erase a) := by
  induction l with
  | nil => cases h
  | cons x l ih =>
    by_cases hx : x = a
    · subst hx
      rw [List.replace_cons_self, List.erase_cons_head]
    · have hmem : a ∈ l := (List.mem_cons.mp h).resolve_left (Ne.symm hx)
      rw [List.replace_cons, beq_eq_false_iff_ne.mpr (Ne.symm hx),
        List.erase_cons_tail (by simpa using hx)]
      exact ((ih hmem).cons x).trans (List.Perm.swap b x _)

namespace CapturedReceiver

theorem dropStore_perm {stores : List NodeId} {store : NodeId} (h : store ∈ stores) :
    (dropStore stores store).Perm (stores.erase store) := by
  obtain rfl | ⟨front, last, rfl⟩ := List.eq_nil_or_concat stores
  · cases h
  · rw [List.concat_eq_append] at h ⊢
    rw [dropStore, List.getLast?_concat]
    show (((front ++ [last]).replace store last).dropLast).Perm _
    by_cases hfront : store ∈ front
    · rw [List.replace_append_left hfront, List.dropLast_concat, List.erase_append_left _ hfront]
      exact (perm_replace hfront).trans (List.perm_append_singleton last _).symm
    · obtain rfl : store = last := by
        rcases List.mem_append.mp h with h | h
        · exact absurd h hfront
        · exact List.mem_singleton.mp h
      rw [List.replace_append_right hfront, List.replace_cons_self, List.dropLast_concat,
        List.erase_append_right _ hfront, List.erase_cons_head, List.append_nil]

end CapturedReceiver

namespace Routine

variable {r s : Routine} {stores : List NodeId} {placed : PlacedStore} {store : NodeId}

theorem placed?_eq_some : r.placed? store = some placed ↔
    placed.store = store ∧ r.parent? store = some placed.owner ∧
      r.position? store = some placed.position := by
  simp only [placed?, Option.bind_eq_bind, Option.bind_eq_some_iff]
  constructor
  · rintro ⟨owner, ho, position, hp, h⟩
    cases h
    exact ⟨rfl, ho, hp⟩
  · rintro ⟨rfl, ho, hp⟩
    exact ⟨_, ho, _, hp, rfl⟩

/-- Searching through placed stores gives one of them, unless there are none. -/
theorem foldl_placed (best : Option PlacedStore) (l : List PlacedStore) :
    (l.foldl (fun best next => match best with
        | some b => if next.position < b.position then some b else some next
        | none => some next) best = none → best = none ∧ l = []) ∧
      ∀ p, l.foldl (fun best next => match best with
        | some b => if next.position < b.position then some b else some next
        | none => some next) best = some p → best = some p ∨ p ∈ l := by
  induction l generalizing best with
  | nil => exact ⟨fun h => ⟨h, rfl⟩, fun p h => .inl h⟩
  | cons x l ih =>
    obtain ⟨hnone, hsome⟩ := ih (match best with
      | some b => if x.position < b.position then some b else some x
      | none => some x)
    constructor
    · intro h
      obtain ⟨hbest, _⟩ := hnone h
      exfalso
      split at hbest
      · split_ifs at hbest
      · cases hbest
    · intro p h
      rcases hsome p h with hbest | hmem
      · split at hbest
        · split_ifs at hbest
          · exact .inl hbest
          · exact .inr (Option.some.inj hbest ▸ List.mem_cons_self)
        · exact .inr (Option.some.inj hbest ▸ List.mem_cons_self)
      · exact .inr (List.mem_cons_of_mem _ hmem)

theorem lastPlaced?_eq_some (h : r.lastPlaced? stores = some placed) :
    placed.store ∈ stores ∧ r.parent? placed.store = some placed.owner ∧
      r.position? placed.store = some placed.position := by
  rcases (foldl_placed none (stores.filterMap r.placed?)).2 placed h with hnone | hmem
  · cases hnone
  · obtain ⟨store, hs, hp⟩ := List.mem_filterMap.mp hmem
    obtain ⟨rfl, hparent, hposition⟩ := placed?_eq_some.mp hp
    exact ⟨hs, hparent, hposition⟩

theorem lastPlaced?_eq_none (h : r.lastPlaced? stores = none) (hs : store ∈ stores) :
    r.placed? store = none := by
  obtain ⟨_, hnil⟩ := (foldl_placed none (stores.filterMap r.placed?)).1 h
  exact List.filterMap_eq_nil_iff.mp hnil store hs

/-- A node with a parent has a place. -/
theorem Forest.placed?_isSome (F : r.Forest) {owner : NodeId} (hp : r.parent? store = some owner) :
    (r.placed? store).isSome = true := by
  have hmem := F.listed hp
  have hsome : (r.position? store).isSome = true := by
    rw [position?, hp, Option.bind_some, List.isSome_idxOf?]
    exact hmem
  obtain ⟨position, hposition⟩ := Option.isSome_iff_exists.mp hsome
  have hplaced : r.placed? store = some ⟨store, owner, position⟩ :=
    placed?_eq_some.mpr ⟨rfl, hp, hposition⟩
  rw [hplaced]
  rfl

/-- The store that is next to go is still an instruction, if all alive ones are. -/
theorem Kept.lastPlaced (hkept : Kept r s)
    (hstores : ∀ st ∈ stores, r.isConnected st = true ∧
      ∃ owner, r.parent? st = some owner ∧ r.isBlock owner = true)
    (F : s.Forest) (h : s.lastPlaced? stores = some placed) :
    placed.store ∈ stores ∧ s.isConnected placed.owner = true ∧
      (s.instructions placed.owner)[placed.position]? = some placed.store := by
  obtain ⟨hmem, hparent, hposition⟩ := lastPlaced?_eq_some h
  obtain ⟨hconn, owner, hp, hblock⟩ := hstores _ hmem
  have halive := isAlive_of_parent? hparent
  obtain ⟨hp', hblock'⟩ := hkept.slot _ owner hp hblock halive
  obtain rfl := Option.some.inj (hparent.symm.trans hp')
  refine ⟨hmem, (F.shared hparent).symm.trans (hkept.connected _ hconn halive), ?_⟩
  rw [position?, hparent, Option.bind_some, List.idxOf?_eq_some_iff] at hposition
  obtain ⟨hlt, hget, _⟩ := hposition
  rw [instructions, if_pos hblock', List.getElem?_eq_some_iff]
  exact ⟨hlt, hget⟩

end Routine

namespace CapturedReceiver

variable {w₀ w : Work} {r s : Routine} {block : NodeId} {settings : Settings}

/-- The loop over the pending stores keeps an invariant that its steps keep. It ends when none
    of the stores has a place, or when all have been taken out. -/
theorem removeForwards_ends {ctx : Context} {I : List NodeId → Nat → Work → Prop}
    (hstep : ∀ stores next (w : Work) s placed, I stores next (w.on s) →
      s.lastPlaced? stores = some placed →
      Ends (do
        PassM.noteNode name .instructionRemoved placed.position placed.store
        let inlined ← ctx.vacate placed.owner placed.position
        if placed.owner == block then rewind next placed.position inlined else pure next)
        (w.on s) (I (dropStore stores placed.store)))
    {count next : Nat} {stores : List NodeId} (h : I stores next (w.on s)) :
    Ends (removeForwards ctx block count stores next) (w.on s) fun last w' =>
      ∃ left, I left last w' ∧
        (w'.routine.lastPlaced? left = none ∨ left.length + count ≤ stores.length) := by
  induction count generalizing w s stores next with
  | zero => exact Ends.pure ⟨stores, h, .inr (Nat.le_refl _)⟩
  | succ count ih =>
    rw [removeForwards]
    refine Ends.bind (Ends.routine ?_)
    cases hlast : s.lastPlaced? stores with
    | none => exact Ends.pure ⟨stores, h, .inl hlast⟩
    | some placed =>
      obtain ⟨hmem, _⟩ := lastPlaced?_eq_some hlast
      have hlength : (dropStore stores placed.store).length + 1 = stores.length := by
        rw [(dropStore_perm hmem).length_eq, List.length_erase_of_mem hmem]
        exact Nat.sub_add_cancel (List.length_pos_of_mem hmem)
      have hfirst := (hstep stores next w s placed h hlast).andThen fun last w' s' h' => ih h'
      simp only [bind_assoc] at hfirst
      have hbranch : ∀ inlined, (if placed.owner == block then
            rewind next placed.position inlined >>=
              removeForwards ctx block count (dropStore stores placed.store)
          else pure next >>= removeForwards ctx block count (dropStore stores placed.store)) =
          (if placed.owner == block then rewind next placed.position inlined else pure next) >>=
            removeForwards ctx block count (dropStore stores placed.store) := by
        intro inlined
        split <;> rfl
      simp only [← hbranch] at hfirst
      refine Ends.mono hfirst ?_
      rintro last w' s' ⟨left, hI, hnone | hcount⟩
      · exact ⟨left, hI, .inl hnone⟩
      · exact ⟨left, hI, .inr (by omega)⟩

/-! ## With the single-use inliner -/

/-- The cursor is not behind the instructions that were still to be visited: of those in front
    of it none are left out. -/
theorem rewind_ends {next removed inlined length length' : Nat} (hle : inlined ≤ removed)
    (hlength : length' + (inlined + 1) = length) {Q : Nat → Work → Prop}
    (h : ∀ last, length' - last ≤ length - next → Q last w) :
    Ends (rewind next removed inlined) w Q := by
  unfold rewind
  split_ifs with hbehind hamong
  · exact Ends.stepBack (by omega) (h _ (by omega))
  · exact Ends.pure (h _ (by omega))
  · exact Ends.pure (h _ (by omega))

/-- A removal that is not in front of the cursor brings the cursor in front of what it touches. -/
theorem rewind_behind {next removed inlined : Nat} (hle : next ≤ removed) {Q : Nat → Work → Prop}
    (h : ∀ last ≤ next, last ≤ removed - inlined → Q last w) :
    Ends (rewind next removed inlined) w Q := by
  unfold rewind
  rw [if_neg (Nat.not_lt.mpr hle)]
  split_ifs with hamong
  · exact Ends.pure (h _ hamong (Nat.le_refl _))
  · exact Ends.pure (h _ (Nat.le_refl _) (by omega))

/-- What holds while forwarding stores are removed. -/
structure Removing (r : Routine) (w₀ : Work) (block : NodeId) (bound : Nat) (pending : List NodeId)
    (next : Nat) (w : Work) : Prop extends Scanned w₀ block w where
  kept : Kept r w.routine
  stores : ∀ st ∈ pending, r.isConnected st = true ∧
    ∃ owner, r.parent? st = some owner ∧ r.isBlock owner = true
  flat : ∀ st ∈ pending, r.isContainer st = false
  left : (w.routine.instructions block).length - next ≤ bound

theorem remove_step {bound next : Nat} {stores : List NodeId} {placed : PlacedStore}
    (h : Removing r w₀ block bound stores next (w.on s))
    (hlast : s.lastPlaced? stores = some placed) :
    Ends (do
        PassM.noteNode name .instructionRemoved placed.position placed.store
        let inlined ←
          Context.vacate { settings, inliner := Inliner.singleUse } placed.owner placed.position
        if placed.owner == block then rewind next placed.position inlined else pure next)
      (w.on s) (Removing r w₀ block bound (dropStore stores placed.store)) := by
  have V : s.Valid := h.valid
  have hkept : Kept r s := h.kept
  have hleft : (s.instructions block).length - next ≤ bound := h.left
  obtain ⟨hmem, hconn, hi⟩ := hkept.lastPlaced h.stores V.forest hlast
  have hinst : s.isContainer placed.store = false := by
    have halive := isAlive_of_parent? (V.forest.parent?_of_mem
      (List.mem_of_getElem? (getElem?_instructions hi).2))
    rw [isContainer_congr (hkept.op _ (isAlive_of_isConnected (h.stores _ hmem).1) halive)]
    exact h.flat _ hmem
  refine Ends.bind (Ends.noteNode fun e hkind hmethod => ?_)
  refine (Context.vacate_ends V hconn hi).andThen ?_
  rintro inlined w' s' ⟨hv, hlog⟩
  have hv : Vacated placed.owner placed.position placed.store inlined s s' := hv
  have hscanned : Scanned w₀ block (w'.on s') := h.step (hv.valid V hi) (hv.kept V hi)
    ((Logged.single hkind hmethod (.removed hconn hi hinst)).trans hlog)
  have hrest : ∀ st ∈ dropStore stores placed.store, r.isConnected st = true ∧
      ∃ owner, r.parent? st = some owner ∧ r.isBlock owner = true := fun st hst =>
    h.stores st (List.mem_of_mem_erase ((dropStore_perm hmem).mem_iff.mp hst))
  have hflat : ∀ st ∈ dropStore stores placed.store, r.isContainer st = false := fun st hst =>
    h.flat st (List.mem_of_mem_erase ((dropStore_perm hmem).mem_iff.mp hst))
  have hkept' := hkept.trans (hv.kept V hi)
  have hlength := hv.length V hi
  obtain ⟨hb, _⟩ := getElem?_instructions hi
  obtain ⟨hb', _⟩ := hv.block_stays V hi hconn
  split
  · next ho =>
    obtain rfl := beq_iff_eq.mp ho
    refine rewind_ends hv.le hlength fun last hle => ⟨hscanned, hkept', hrest, hflat, ?_⟩
    show (s'.instructions placed.owner).length - last ≤ bound
    rw [instructions, if_pos hb] at hleft
    rw [instructions, if_pos hb']
    exact Nat.le_trans hle hleft
  · next ho =>
    have hne : block ≠ placed.owner := fun he => ho (beq_iff_eq.mpr he.symm)
    refine Ends.pure ⟨hscanned, hkept', hrest, hflat, ?_⟩
    show (s'.instructions block).length - next ≤ bound
    -- the block has kept its instructions, unless it is gone
    by_cases hs' : s'.isBlock block = true
    · have halive' := isAlive_of_isBlock hs'
      have halive := (hv.kept V hi).alive block h.known halive'
      have hs : s.isBlock block = true :=
        (isBlock_congr ((hv.kept V hi).op block halive halive')).symm.trans hs'
      rw [instructions, if_pos hs', hv.children_of_ne V hi hs hne halive']
      rw [instructions, if_pos hs] at hleft
      exact hleft
    · rw [instructions, if_neg hs']
      exact Nat.le_trans (Nat.sub_le _ _) (Nat.zero_le _)

end CapturedReceiver

end CilFold
