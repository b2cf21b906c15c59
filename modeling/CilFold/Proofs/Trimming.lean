/-
  What removing instructions and inlining leave of a routine, seen from other places of it.

  `Trimmed` says that nothing new has come up: what is still alive has its operation, what is
  connected was so before, and blocks stand where they stood. The tree of an instruction in
  which there is no block stays as it is, unless it is the one that definitions were folded
  into (`Vacated.holds`).
-/
import CilFold.Proofs.Inlining
import CilFold.Proofs.Marks

namespace CilFold

/-- No block is in the tree. -/
def Tree.Flat {α : Type} (t : Tree α) : Prop := ∀ u ∈ t.subtrees, u.op.isBlock = false

namespace Routine

variable {r s : Routine} {a block d id inst k load owner p target value : NodeId}
  {t : Tree NodeId} {index count : Nat}

/-! ## Nothing new -/

/-- What is left of a routine after some removals. -/
structure Trimmed (r s : Routine) : Prop extends Kept r s where
  old : ∀ k op, s.op? k = some op → r.op? k = some op
  joined : ∀ k, s.isConnected k = true → r.isConnected k = true
  held : ∀ k, s.isBlock k = true → s.parent? k = r.parent? k

namespace Trimmed

theorem refl (r : Routine) : Trimmed r r :=
  ⟨Kept.refl r, fun _ _ h => h, fun _ h => h, fun _ _ => rfl⟩

theorem isBlock (h : Trimmed r s) (hk : s.isBlock k = true) : r.isBlock k = true := by
  obtain ⟨n, hn, hop⟩ := exists_of_isBlock hk
  rw [Routine.isBlock, h.old k n.op (op?_of_node? hn)]
  exact hop

theorem trans {u : Routine} (h : Trimmed r s) (h' : Trimmed s u) : Trimmed r u :=
  ⟨h.toKept.trans h'.toKept, fun k op hop => h.old k op (h'.old k op hop),
    fun k hk => h.joined k (h'.joined k hk),
    fun k hk => (h'.held k hk).trans (h.held k (h'.isBlock hk))⟩

theorem deleteAt (F : r.Forest) (hi : (r.children block)[index]? = some inst) :
    Trimmed r (r.deleteAt block index inst) := by
  have v := views_deleteAt F (F.parent?_of_mem (List.mem_of_getElem? hi)) index
  refine ⟨Kept.deleteAt F hi, fun k op hop => ?_, fun k hk => ?_, fun k hk => ?_⟩
  · rw [(v k).op] at hop
    split_ifs at hop
    exact hop
  · rw [(v k).connected] at hk
    split_ifs at hk
    exact hk
  · have halive := isAlive_of_isBlock hk
    obtain ⟨op, hop⟩ := exists_op?_of_isAlive halive
    rw [(v k).op] at hop
    split_ifs at hop with hin
    rw [(v k).parent, if_neg hin]

theorem move (V : r.Valid) (M : r.Movable block target index d value load p) :
    Trimmed r (r.move block index d value load p) := by
  have F := V.forest
  have v := M.views_move F
  refine ⟨M.kept_move F, fun k op hop => ?_, fun k hk => ?_, fun k hk => ?_⟩
  · rw [(v k).op] at hop
    split_ifs at hop
    exact hop
  · rw [(v k).connected] at hk
    split_ifs at hk
    exact hk
  · obtain ⟨n, hn, hb⟩ := exists_of_isBlock hk
    have hop := op?_of_node? hn
    rw [(v k).op] at hop
    split_ifs at hop with hgone
    have hvalue : k ≠ value := by
      rintro rfl
      have hno := M.not_block_value V
      rw [Routine.isBlock, hop] at hno
      exact absurd hb (Bool.eq_false_iff.mp hno)
    rw [(v k).parent, if_neg hgone, if_neg hvalue]

end Trimmed

theorem Moves.trimmed (h : Moves block target index count r s) (V : r.Valid) : Trimmed r s := by
  induction h with
  | done => exact Trimmed.refl _
  | step M _ ih => exact (Trimmed.move V M).trans (ih (M.valid_move V))

theorem Vacated.trimmed (h : Vacated block index inst count r s) (V : r.Valid)
    (hi : (r.instructions block)[index]? = some inst) : Trimmed r s := by
  obtain ⟨_, hmoves⟩ := h
  exact (Trimmed.deleteAt V.forest (getElem?_instructions hi).2).trans
    (hmoves.trimmed (valid_deleteAt V hi))

/-! ## Trees of other instructions -/

section Instruction

variable (F : r.Forest) (ht : r.Holds t) (hflat : t.Flat)
include F ht hflat

omit F in
/-- A block is no node of a tree without blocks. -/
theorem not_mem_of_flat (hb : r.isBlock block = true) : block ∉ t.labels := by
  intro hmem
  obtain ⟨u, hu, rfl⟩ := List.mem_map.mp hmem
  rw [isBlock, (ht.subtree hu).op?] at hb
  exact absurd hb (Bool.eq_false_iff.mp (hflat u hu))

/-- An instruction is in such a tree only if it is the top of it. -/
theorem eq_of_mem_flat (hp : r.parent? k = some block) (hb : r.isBlock block = true)
    (hk : k ∈ t.labels) : k = t.label := by
  by_contra hne
  have habove := (F.mem_labels ht).mp hk
  exact not_mem_of_flat ht hflat hb ((F.mem_labels ht).mpr (habove.above_parent (Ne.symm hne) hp))

theorem holds_deleteAt_of_flat (hi : (r.instructions block)[index]? = some inst)
    (hs : (r.deleteAt block index inst).isAlive t.label = true) :
    (r.deleteAt block index inst).Holds t := by
  obtain ⟨hb, hi⟩ := getElem?_instructions hi
  have hp : r.parent? inst = some block := F.parent?_of_mem (List.mem_of_getElem? hi)
  have hbelow : ¬ r.Above inst t.label := by
    rw [← F.encloses_iff]
    intro henc
    obtain ⟨op, hop⟩ := exists_op?_of_isAlive hs
    rw [(views_deleteAt F hp index t.label).op, if_pos henc] at hop
    cases hop
  have hpruned := F.holds_deleteAt hi ht hbelow
  rw [Tree.prune_eq_self] at hpruned
  · exact hpruned
  · intro k hk
    rw [beq_eq_false_iff_ne]
    rintro rfl
    obtain rfl := eq_of_mem_flat F ht hflat hp hb hk
    exact hbelow (Above.refl r t.label)

omit F ht hflat in
/-- What lies in the target without a block in between has no other instruction above it. -/
theorem Inside.above_target (h : r.Inside target k) (ha : r.Above a k)
    (hp : r.parent? a = some owner) (hb : r.isBlock owner = true) : r.Above a target := by
  induction h with
  | here => exact ha
  | @under k q hq hblock _ _ ih =>
    refine ih (ha.above_parent ?_ hq)
    rintro rfl
    rw [Option.some.inj (hp.symm.trans hq), hblock] at hb
    cases hb

theorem holds_move_of_flat (M : r.Movable block target index d value load p)
    (hp : r.parent? t.label = some owner) (hb : r.isBlock owner = true) (hne : t.label ≠ target)
    (hs : (r.move block index d value load p).isAlive t.label = true) :
    (r.move block index d value load p).Holds t := by
  have v := M.views_move F
  have halive : ¬ (t.label = d ∨ t.label = load) := by
    intro hgone
    obtain ⟨op, hop⟩ := exists_op?_of_isAlive hs
    rw [(v t.label).op, if_pos hgone] at hop
    cases hop
  have hblock := not_mem_of_flat ht hflat M.isBlock
  have hd : d ∉ t.labels := fun hmem =>
    halive (.inl (eq_of_mem_flat F ht hflat (M.parent_definition F) M.isBlock hmem).symm)
  have hslot : p ∉ t.labels := by
    intro hmem
    rcases M.slot_cases F with ⟨rfl, _⟩ | ⟨hin, _⟩
    · exact hblock hmem
    · -- the target would be in the tree, and so be its top
      have habove := hin.above_target ((F.mem_labels ht).mp hmem) hp hb
      exact hne (eq_of_mem_flat F ht hflat (M.parent_target F) M.isBlock
        ((F.mem_labels ht).mpr habove)).symm
  have hload : load ∉ t.labels := by
    intro hmem
    have habove := (F.mem_labels ht).mp hmem
    have hl : t.label ≠ load := fun he => halive (.inr he)
    exact hslot ((F.mem_labels ht).mpr (habove.above_parent hl M.parent))
  refine ht.congr fun k hk => ?_
  have hkeep : ¬ (k = d ∨ k = load) := by
    rintro (rfl | rfl)
    · exact hd hk
    · exact hload hk
  have hkb : k ≠ block := fun he => hblock (he ▸ hk)
  have hkp : k ≠ p := fun he => hslot (he ▸ hk)
  rw [(v k).op, (v k).children, if_neg hkeep, if_neg hkeep, if_neg hkb, if_neg hkp]
  exact ⟨rfl, rfl⟩

end Instruction

/-- A node is in one instruction only, without a block on the way. -/
theorem Inside.eq_of_slots {a' c c' : NodeId} (h : r.Inside a k) (h' : r.Inside a' k)
    (hp : r.parent? a = some c) (hc : r.isBlock c = true) (hp' : r.parent? a' = some c')
    (hc' : r.isBlock c' = true) : a = a' := by
  induction h with
  | here =>
    cases h' with
    | here => rfl
    | under hq hblock _ _ =>
      rw [Option.some.inj (hp.symm.trans hq), hblock] at hc
      cases hc
  | under hq hblock _ _ ih =>
    cases h' with
    | here =>
      rw [Option.some.inj (hp'.symm.trans hq), hblock] at hc'
      cases hc'
    | under hq' _ _ hin' =>
      cases hq.symm.trans hq'
      exact ih hin'

/-- The place of a move is in no other instruction than the target. -/
theorem Movable.not_inside_slot (M : r.Movable block target index d value load p) (V : r.Valid)
    (hne : a ≠ target) (hp : r.parent? a = some owner) (hb : r.isBlock owner = true) :
    ¬ r.Inside a p := by
  have F := V.forest
  intro hin
  rcases M.slot_cases F with ⟨rfl, _⟩ | ⟨htarget, _⟩
  · -- above a block there is a container
    have hup : ∀ q, r.parent? p = some q → r.isContainer q = true := fun q hq =>
      (V.inPlace p q ((F.shared hq).symm.trans M.connected) hq).symm.trans M.isBlock
    cases hin with
    | here =>
      have hcontainer := hup owner hp
      rw [not_container_of_block hb] at hcontainer
      cases hcontainer
    | under hq _ hc _ =>
      rw [hup _ hq] at hc
      cases hc
  · exact hne (hin.eq_of_slots htarget hp hb (M.parent_target F) M.isBlock)

/-- Moves leave the trees of instructions alone that are not their target. -/
theorem Moves.holds (h : Moves block target index count r s) (V : r.Valid) (ht : r.Holds t)
    (hflat : t.Flat) (hp : r.parent? t.label = some owner) (hb : r.isBlock owner = true)
    (hne : t.label ≠ target) (hs : s.isAlive t.label = true) : s.Holds t := by
  induction h with
  | done => exact ht
  | step M hmoves ih =>
    have F := V.forest
    have V' := M.valid_move V
    have hkept := M.kept_move F
    have hmid := (hmoves.kept V').alive t.label
      (Nat.lt_of_lt_of_le (index_lt_of_isAlive ht.alive) hkept.size) hs
    obtain ⟨hp', hb'⟩ := hkept.slot t.label owner hp hb hmid
    exact ih V' (holds_move_of_flat F ht hflat M hp hb hne hmid) hp' hb' hs

/-- After a removal, the trees of other instructions are as they were: those of other blocks
    and those in front of the consumed definitions. -/
theorem Vacated.holds (h : Vacated block index inst count r s) (V : r.Valid)
    (hi : (r.instructions block)[index]? = some inst) (ht : r.Holds t) (hflat : t.Flat)
    (hp : r.parent? t.label = some owner) (hb : r.isBlock owner = true)
    (hs : s.isAlive t.label = true)
    (hpos : owner = block → ∃ i < index - count, (s.children block)[i]? = some t.label) :
    s.Holds t := by
  obtain ⟨target, hmoves⟩ := h
  have F := V.forest
  have V' := valid_deleteAt V hi
  have F' := V'.forest
  have hkept := Kept.deleteAt F (getElem?_instructions hi).2
  have hmid := (hmoves.kept V').alive t.label
    (Nat.lt_of_lt_of_le (index_lt_of_isAlive ht.alive) hkept.size) hs
  have ht' := holds_deleteAt_of_flat F ht hflat hi hmid
  obtain ⟨hp', hb'⟩ := hkept.slot t.label owner hp hb hmid
  cases hmoves with
  | done => exact ht'
  | @step _ _ d value load p index count M rest =>
    refine (Moves.step M rest).holds V' ht' hflat hp' hb' ?_ hs
    rintro hlabel
    have htarget := M.target_eq F'
    obtain rfl : owner = block := by
      rw [hlabel, M.parent_target F'] at hp'
      exact (Option.some.inj hp').symm
    obtain ⟨i, hlt, hget⟩ := hpos rfl
    have hlen := length_deleteAt V hi
    obtain ⟨hle, _⟩ := List.getElem?_eq_some_iff.mp (getElem?_instructions hi).2
    obtain ⟨tail, hchildren, _⟩ := (Moves.step M rest).children V' (by omega)
    -- the target stands behind what is in front of the consumed definitions
    rw [hchildren, List.getElem?_append_left (by rw [List.length_take]; omega),
      List.getElem?_take_of_lt hlt, hlabel, ← htarget] at hget
    have hsame := (List.getElem?_inj (by omega) (F'.children_nodup owner)).mp hget
    omega

end Routine

end CilFold
