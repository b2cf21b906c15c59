/-
  What an instruction shows: its nodes but for those below a block, a container or an `unbox`.

  An operation that is shown nowhere else can come into an instruction by a move, which joins
  two instructions, and by a graft that brings it along. Below an `unbox` operations may be
  copied from other instructions; no instruction comes out from there again.
-/
import CilFold.Proofs.Trimming

namespace CilFold

/-- Whether an operation hides what is below it. -/
def Op.hides : Op → Bool
  | block _ | container | unbox _ => true
  | _ => false

namespace Tree

variable {α : Type}

mutual

/-- The operations that a tree shows. -/
def shown : Tree α → List Op
  | node _ op ts => op :: if op.hides then [] else shownOf ts

/-- The operations that several trees show. -/
def shownOf : List (Tree α) → List Op
  | [] => []
  | t :: ts => shown t ++ shownOf ts

end

theorem shownOf_eq (ts : List (Tree α)) : shownOf ts = ts.flatMap shown := by
  induction ts with
  | nil => rfl
  | cons t ts ih => rw [shownOf, ih, List.flatMap_cons]

theorem shown_node (a : α) (op : Op) (ts : List (Tree α)) :
    (node a op ts).shown = op :: if op.hides then [] else ts.flatMap shown := by
  rw [shown, shownOf_eq]

theorem op_mem_shown (t : Tree α) : t.op ∈ t.shown := by
  obtain ⟨a, op, ts⟩ := t
  rw [shown_node]
  exact List.mem_cons_self

theorem shown_of_hides {t : Tree α} (h : t.op.hides = true) : t.shown = [t.op] := by
  obtain ⟨a, op, ts⟩ := t
  have h : op.hides = true := h
  rw [shown_node, h]
  rfl

end Tree

namespace Routine

variable {r s : Routine} {a block d head i id inst k load owner p target value : NodeId}
  {t u : Tree NodeId} {op : Op} {index : Nat}

/-- A node lies in an instruction, and nothing between them hides it. -/
inductive Shows (r : Routine) (i : NodeId) : NodeId → Prop where
  | here : Shows r i i
  | under {k p : NodeId} {op : Op} : r.parent? k = some p → r.op? p = some op → op.hides = false →
      Shows r i p → Shows r i k

/-- An instruction shows an operation. -/
def Mentions (r : Routine) (i : NodeId) (op : Op) : Prop := ∃ k, r.Shows i k ∧ r.op? k = some op

theorem Mentions.alive (h : r.Mentions i op) : r.isAlive i = true := by
  obtain ⟨k, hk, hop⟩ := h
  have halive := isAlive_of_op? hop
  clear hop
  induction hk with
  | here => exact halive
  | under _ hop _ _ ih => exact ih (isAlive_of_op? hop)

namespace Shows

theorem inside (h : r.Shows i k) : r.Inside i k := by
  induction h with
  | here => exact .here
  | @under k p op hp hop hhides _ ih =>
    refine .under hp ?_ ?_ ih
    · rw [isBlock, hop]
      cases op <;> first | rfl | cases hhides
    · rw [isContainer, hop]
      cases op <;> first | rfl | cases hhides

theorem trans (h : r.Shows i k) (h' : r.Shows k id) : r.Shows i id := by
  induction h' with
  | here => exact h
  | under hp hop hhides _ ih => exact .under hp hop hhides ih

/-- What an operand shows is shown by its parent. -/
theorem of_operand (h : r.Shows i k) (hp : r.parent? i = some p) (hop : r.op? p = some op)
    (hhides : op.hides = false) : r.Shows p k :=
  Shows.trans (.under hp hop hhides .here) h

/-- What is shown is at the top or shown by an operand. -/
theorem cases_top (h : r.Shows i k) : k = i ∨
    ∃ j op, r.parent? j = some i ∧ r.op? i = some op ∧ op.hides = false ∧ r.Shows j k := by
  induction h with
  | here => exact .inl rfl
  | @under k p op hp hop hhides _ ih =>
    rcases ih with rfl | ⟨j, op', hj, hop', hhides', hshows⟩
    · exact .inr ⟨k, op, hp, hop, hhides, .here⟩
    · exact .inr ⟨j, op', hj, hop', hhides', .under hp hop hhides hshows⟩

end Shows

/-- What an instruction shows can be read off its tree. -/
theorem Holds.mentions_iff (h : r.Holds t) (F : r.Forest) :
    r.Mentions t.label op ↔ op ∈ t.shown := by
  induction h with
  | @node id op' ts hop hc hts ih =>
    rw [Tree.shown_node, Tree.label_node, List.mem_cons]
    constructor
    · rintro ⟨k, hk, hkop⟩
      rcases hk.cases_top with rfl | ⟨j, op'', hj, hop'', hhides, hshows⟩
      · exact .inl (Option.some.inj (hkop.symm.trans hop))
      · cases hop.symm.trans hop''
        have hmem := F.listed hj
        rw [hc] at hmem
        obtain ⟨x, hx, rfl⟩ := List.mem_map.mp hmem
        rw [hhides]
        exact .inr (List.mem_flatMap.mpr ⟨x, hx, (ih x hx).mp ⟨k, hshows, hkop⟩⟩)
    · rintro (rfl | hmem)
      · exact ⟨id, .here, hop⟩
      · split_ifs at hmem with hhides
        · cases hmem
        · obtain ⟨x, hx, hmem⟩ := List.mem_flatMap.mp hmem
          obtain ⟨k, hk, hkop⟩ := (ih x hx).mpr hmem
          have hp : r.parent? x.label = some id :=
            F.parent?_of_mem (hc ▸ List.mem_map_of_mem hx)
          exact ⟨k, hk.of_operand hp hop (Bool.eq_false_iff.mpr hhides), hkop⟩

/-! ## Edits -/

/-- What is shown after a graft was shown before, or the place was and it is new. -/
theorem Grafted.shows (G : Grafted r id p u s) (F : r.Forest) (hi : r.isAlive i = true)
    (h : s.Shows i k) : r.isAlive k = true ∧ r.Shows i k ∨ r.Shows i id ∧ s.Shows u.label k := by
  induction h with
  | here => exact .inl ⟨hi, .here⟩
  | @under k q op hq hop hhides _ ih =>
    rcases ih with ⟨halive, hshows⟩ | ⟨hplace, hnew⟩
    · have hqs := isAlive_of_op? hop
      have hqop : r.op? q = some op := (G.kept.op q halive hqs).symm.trans hop
      have hstays := F.encloses_iff.not.mpr ((G.isAlive_iff F halive).mp hqs)
      cases hk : r.isAlive k with
      | true =>
        have hks := F.encloses_iff.not.mpr ((G.isAlive_iff F hk).mp (isAlive_of_parent? hq))
        rw [(G.views k hk).parent, if_neg hks] at hq
        exact .inl ⟨rfl, .under hq hqop hhides hshows⟩
      | false =>
        -- the parent has a new operand, so it is the one over the place
        have hold : k ∉ r.children q := fun hmem => by
          rw [F.alive_of_mem_children hmem] at hk
          cases hk
        have hmem := G.valid.forest.listed hq
        rw [(G.views q halive).children, if_neg hstays] at hmem
        split_ifs at hmem with hqp
        · rcases (mem_replace (F.children_nodup q) (F.listed (hqp ▸ G.place))).mp hmem with h | rfl
          · exact absurd h.1 hold
          · exact .inr ⟨.under (hqp ▸ G.place) hqop hhides hshows, .here⟩
        · exact absurd hmem hold
    · exact .inr ⟨hplace, .under hq hop hhides hnew⟩

/-- A graft brings no operation into an instruction if the place has shown it before. -/
theorem Grafted.mentions (G : Grafted r id p u s) (F : r.Forest) (hi : r.isAlive i = true)
    (hnew : s.Mentions u.label op → r.Mentions id op)
    (h : s.Mentions (if i = id then u.label else i) op) : r.Mentions i op := by
  split_ifs at h with hid
  · exact hid ▸ hnew h
  · obtain ⟨k, hk, hop⟩ := h
    rcases G.shows F hi hk with ⟨halive, hshows⟩ | ⟨hplace, hshows⟩
    · exact ⟨k, hshows, (G.kept.op k halive (isAlive_of_op? hop)).symm.trans hop⟩
    · obtain ⟨j, hj, hjop⟩ := hnew ⟨k, hshows, hop⟩
      exact ⟨j, hplace.trans hj, hjop⟩

theorem Mentions.of_deleteAt (F : r.Forest) (hi : (r.children block)[index]? = some inst)
    (h : (r.deleteAt block index inst).Mentions i op) : r.Mentions i op := by
  have hold := (Trimmed.deleteAt F hi).old
  have v := views_deleteAt F (F.parent?_of_mem (List.mem_of_getElem? hi)) index
  obtain ⟨k, hk, hop⟩ := h
  refine ⟨k, ?_, hold k op hop⟩
  clear hop
  induction hk with
  | here => exact .here
  | @under k q op hq hop hhides _ ih =>
    rw [(v k).parent] at hq
    split_ifs at hq
    exact .under hq (hold q op hop) hhides ih

namespace Movable

variable (M : r.Movable block target index d value load p) (V : r.Valid)
include M V

/-- A move shows what the definition has shown in the instruction around its place. -/
theorem shows (h : (r.move block index d value load p).Shows i k) :
    r.Shows i k ∨ r.Inside i p ∧ r.Shows d k := by
  have F := V.forest
  have hold := (Trimmed.move V M).old
  obtain ⟨v, hstore⟩ := M.store
  induction h with
  | here => exact .inl .here
  | @under k q op hq hop hhides _ ih =>
    rw [(M.views_move F k).parent] at hq
    split_ifs at hq with hgone hvalue
    · rcases ih with hshows | ⟨hin, hshows⟩
      · cases hq
        rw [hvalue]
        exact .inr ⟨hshows.inside, .under (M.parent_value F) hstore rfl .here⟩
      · cases hq
        exact absurd (hshows.inside.above.under M.parent) (M.not_above_load F)
    · rcases ih with hshows | ⟨hin, hshows⟩
      · exact .inl (.under hq (hold q op hop) hhides hshows)
      · exact .inr ⟨hin, .under hq (hold q op hop) hhides hshows⟩

theorem mentions_elsewhere (hne : i ≠ target) (hp : r.parent? i = some owner)
    (hb : r.isBlock owner = true) (h : (r.move block index d value load p).Mentions i op) :
    r.Mentions i op := by
  obtain ⟨k, hk, hop⟩ := h
  rcases M.shows V hk with hshows | ⟨hin, _⟩
  · exact ⟨k, hshows, (Trimmed.move V M).old k op hop⟩
  · exact absurd hin (M.not_inside_slot V hne hp hb)

/-- What the joined instruction shows was in the definition or in the target. -/
theorem mentions_head (hhead : head = target ∨ head = value ∧ load = target)
    (h : (r.move block index d value load p).Mentions head op) :
    r.Mentions d op ∨ r.Mentions target op := by
  obtain ⟨v, hstore⟩ := M.store
  obtain ⟨k, hk, hop⟩ := h
  have hop' := (Trimmed.move V M).old k op hop
  rcases M.shows V hk with hshows | ⟨hin, hshows⟩
  · rcases hhead with rfl | ⟨rfl, _⟩
    · exact .inr ⟨k, hshows, hop'⟩
    · exact .inl ⟨k, hshows.of_operand (M.parent_value V.forest) hstore rfl, hop'⟩
  · exact .inl ⟨k, hshows, hop'⟩

end Movable

end Routine

end CilFold
