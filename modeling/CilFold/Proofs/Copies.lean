/-
  Copies of variables. An instruction copies a source to a target if it is
  `stloc target(ldloc source)`, or if it stores the value of such a store, through any number
  of stores. What an edit of the passes makes of copies is said backwards: a copy of the later
  routine is one of the earlier routine, or comes from what the edit has joined.
-/
import CilFold.Proofs.Trimming

namespace CilFold

/-- The copy at the end of a chain of stores: its target and its source. -/
def Tree.copy? {α : Type} : Tree α → Option (VarId × VarId)
  | .node _ (.stloc v) [.node _ (.ldloc u) _] => some (v, u)
  | .node _ (.stloc _) [t] => t.copy?
  | _ => none

namespace Tree

variable {α : Type} {a : α} {t : Tree α} {u v w : VarId}

theorem copy?_of_load (h : t.op = .ldloc u) : (node a (.stloc v) [t]).copy? = some (v, u) := by
  cases t with
  | node b op ts =>
    subst h
    rw [copy?]

theorem copy?_of_store (h : ∀ u, t.op ≠ .ldloc u) : (node a (.stloc v) [t]).copy? = t.copy? := by
  rw [copy?]
  intro b u ts ht
  exact h u (ht ▸ rfl)

theorem copy?_eq_some (h : t.copy? = some (v, u)) :
    ∃ a w x, t = node a (.stloc w) [x] ∧
      (x.op = .ldloc u ∧ w = v ∨ (∀ y, x.op ≠ .ldloc y) ∧ x.copy? = some (v, u)) := by
  unfold copy? at h
  split at h
  · cases h
    exact ⟨_, _, _, rfl, .inl ⟨rfl, rfl⟩⟩
  · next a w x hx =>
    refine ⟨a, w, x, rfl, .inr ⟨fun y hy => ?_, h⟩⟩
    cases x with
    | node b op ts =>
      subst hy
      exact hx b y ts rfl
  · cases h

end Tree

namespace Routine

variable {r s : Routine} {block c d i id inst k load n p target value : NodeId}
  {t u v w x : VarId} {index : Nat}

/-- The node copies the source to the target. -/
inductive Copies (r : Routine) : NodeId → VarId → VarId → Prop where
  | last {id l : NodeId} {t s : VarId} : r.op? id = some (.stloc t) → r.children id = [l] →
      r.op? l = some (.ldloc s) → Copies r id t s
  | next {id c : NodeId} {v t s : VarId} : r.op? id = some (.stloc v) → r.children id = [c] →
      Copies r c t s → Copies r id t s

theorem Copies.alive (h : r.Copies id t u) : r.isAlive id = true := by
  cases h with
  | last hop _ _ => exact isAlive_of_op? hop
  | next hop _ _ => exact isAlive_of_op? hop

theorem Copies.not_ldloc (h : r.Copies id t u) : r.op? id ≠ some (.ldloc v) := by
  cases h with
  | last hop _ _ => rw [hop]; simp
  | next hop _ _ => rw [hop]; simp

/-- Copies can be read off the trees of a routine. -/
theorem Holds.copies_iff {tree : Tree NodeId} (h : r.Holds tree) :
    r.Copies tree.label t u ↔ tree.copy? = some (t, u) := by
  induction h with
  | @node id op ts hop hc hts ih =>
    constructor
    · intro hcopy
      cases hcopy with
      | last hstore hchild hload =>
        obtain ⟨y, rfl, rfl⟩ := List.map_eq_singleton_iff.mp (hc.symm.trans hchild)
        cases hop.symm.trans hstore
        have hy := (hts y (List.mem_singleton_self y)).op?.symm.trans hload
        exact Tree.copy?_of_load (Option.some.inj hy)
      | next hstore hchild hrest =>
        obtain ⟨y, rfl, rfl⟩ := List.map_eq_singleton_iff.mp (hc.symm.trans hchild)
        cases hop.symm.trans hstore
        rw [Tree.copy?_of_store, ← ih y (List.mem_singleton_self y)]
        · exact hrest
        · intro x hx
          exact hrest.not_ldloc ((hts y (List.mem_singleton_self y)).op?.trans (congrArg some hx))
    · intro hcopy
      obtain ⟨_, w, y, heq, hy⟩ := Tree.copy?_eq_some hcopy
      cases heq
      have hmem : y ∈ [y] := List.mem_singleton_self y
      rcases hy with ⟨hload, rfl⟩ | ⟨_, hrest⟩
      · exact .last hop hc ((hts y hmem).op?.trans (congrArg some hload))
      · exact .next hop hc ((ih y hmem).mpr hrest)

/-! ## Edits -/

theorem replace_eq_singleton {α : Type} [DecidableEq α] {l : List α} {a b c : α} (ha : a ∈ l)
    (h : l.replace a b = [c]) : l = [a] ∧ c = b := by
  obtain ⟨y, rfl⟩ := List.length_eq_one_iff.mp (List.length_replace.symm.trans (congrArg _ h))
  obtain rfl := List.mem_singleton.mp ha
  rw [List.replace_cons_self] at h
  exact ⟨rfl, (List.cons.inj h).1.symm⟩

/-- A store that stays has its operation, and its operand unless a load was in the place of it. -/
theorem Grafted.store_operand (G : Grafted r load p (.node n (.ldloc w) []) s) (F : r.Forest)
    (hk : r.isAlive k = true) (hop : s.op? k = some (.stloc x)) (hc : s.children k = [c]) :
    r.op? k = some (.stloc x) ∧
      (r.children k = [c] ∧ r.isAlive c = true ∨ r.children k = [load] ∧ c = n) := by
  have hop' : r.op? k = some (.stloc x) := by
    rw [← G.kept.op k hk (isAlive_of_op? hop)]
    exact hop
  refine ⟨hop', ?_⟩
  have hstays : ¬ r.encloses load k = true := by
    rw [F.encloses_iff]
    exact (G.isAlive_iff F hk).mp (isAlive_of_op? hop)
  rw [(G.views k hk).children, if_neg hstays] at hc
  split_ifs at hc with hkp
  · exact .inr (replace_eq_singleton (F.listed (hkp ▸ G.place)) hc)
  · exact .inl ⟨hc, F.alive_of_mem_children (hc ▸ List.mem_singleton_self c)⟩

/-- A load of the receiver in the place of a load can only change the source of a copy. -/
theorem Grafted.copies (G : Grafted r load p (.node n (.ldloc w) []) s) (F : r.Forest)
    (hop : r.op? load = some (.ldloc v)) (h : s.Copies id t u) (hid : r.isAlive id = true) :
    r.Copies id t u ∨ u = w ∧ r.Copies id t v := by
  have hnew : s.op? n = some (.ldloc w) := G.new.op?
  induction h with
  | last hkop hkc hl =>
    obtain ⟨hkop', ⟨hchild, hc⟩ | ⟨hchild, rfl⟩⟩ := G.store_operand F hid hkop hkc
    · refine .inl (.last hkop' hchild ?_)
      rw [← G.kept.op _ hc (isAlive_of_op? hl)]
      exact hl
    · cases hnew.symm.trans hl
      exact .inr ⟨rfl, .last hkop' hchild hop⟩
  | next hkop hkc hrest ih =>
    obtain ⟨hkop', ⟨hchild, hc⟩ | ⟨hchild, rfl⟩⟩ := G.store_operand F hid hkop hkc
    · rcases ih hc with h | ⟨hu, h⟩
      · exact .inl (.next hkop' hchild h)
      · exact .inr ⟨hu, .next hkop' hchild h⟩
    · exact absurd hnew hrest.not_ldloc

section Removal

variable (F : r.Forest) (hb : r.isBlock block = true)
  (hi : (r.children block)[index]? = some inst)
include F hb hi

theorem store_operand_deleteAt (hop : (r.deleteAt block index inst).op? k = some (.stloc x))
    (hc : (r.deleteAt block index inst).children k = [c]) : r.children k = [c] := by
  have v := views_deleteAt F (F.parent?_of_mem (List.mem_of_getElem? hi)) index k
  have hne : k ≠ block := by
    rintro rfl
    rw [isBlock, (Trimmed.deleteAt F hi).old k _ hop] at hb
    cases hb
  rw [v.children, if_neg hne] at hc
  split_ifs at hc
  exact hc

/-- Without an instruction there are no more copies than with it. -/
theorem Copies.of_deleteAt (h : (r.deleteAt block index inst).Copies id t u) : r.Copies id t u := by
  have hold := (Trimmed.deleteAt F hi).old
  induction h with
  | last hk hkc hl =>
    exact .last (hold _ _ hk) (store_operand_deleteAt F hb hi hk hkc) (hold _ _ hl)
  | next hk hkc _ ih => exact .next (hold _ _ hk) (store_operand_deleteAt F hb hi hk hkc) ih

end Removal

theorem Inside.trans (h : r.Inside i k) (h' : r.Inside k id) : r.Inside i id := by
  induction h' with
  | here => exact h
  | under hp hb hc _ ih => exact .under hp hb hc ih

namespace Movable

variable (M : r.Movable block target index d value load p) (V : r.Valid)
include M V

theorem store_operand (hop : (r.move block index d value load p).op? k = some (.stloc x))
    (hc : (r.move block index d value load p).children k = [c]) :
    r.children k = [c] ∨ k = p ∧ r.children k = [load] ∧ c = value := by
  have F := V.forest
  have hne : k ≠ block := by
    rintro rfl
    have hb := M.isBlock
    rw [Routine.isBlock, (Trimmed.move V M).old k _ hop] at hb
    cases hb
  rw [(M.views_move F k).children, if_neg hne] at hc
  split_ifs at hc with hgone hkp
  · exact .inr ⟨hkp, replace_eq_singleton (F.listed (hkp ▸ M.parent)) hc⟩
  · exact .inl hc

/-- A move can join a copy in the target with one in the definition: the source of a copy that
    is new comes from the definition, its target from the definition or from the place. -/
theorem copies (h : (r.move block index d value load p).Copies id t u) :
    r.Copies id t u ∨ r.Inside id p ∧ (∃ x, r.Copies d x u) ∧
      ((∃ x, r.Copies id t x) ∨ ∃ x, r.Copies d t x) := by
  have F := V.forest
  have hop := (Trimmed.move V M).old
  obtain ⟨y, hload⟩ := M.loads
  obtain ⟨z, hstore⟩ := M.store
  induction h with
  | last hk hkc hl =>
    rcases M.store_operand V hk hkc with hc | ⟨rfl, hc, rfl⟩
    · exact .inl (.last (hop _ _ hk) hc (hop _ _ hl))
    · exact .inr ⟨.here, ⟨z, .last hstore M.value (hop _ _ hl)⟩,
        .inl ⟨y, .last (hop _ _ hk) hc hload⟩⟩
  | @next k c x _ _ hk hkc hrest ih =>
    rcases M.store_operand V hk hkc with hc | ⟨rfl, hc, rfl⟩
    · rcases ih with h | ⟨hin, hsource, htarget⟩
      · exact .inl (.next (hop _ _ hk) hc h)
      · have hp := F.parent?_of_mem (hc ▸ List.mem_singleton_self c)
        have hkop := hop _ _ hk
        have hinside : r.Inside k c :=
          .under hp (by rw [Routine.isBlock, hkop]; rfl) (by rw [isContainer, hkop]; rfl) .here
        refine .inr ⟨hinside.trans hin, hsource, htarget.imp_left ?_⟩
        rintro ⟨x, h⟩
        exact ⟨x, .next hkop hc h⟩
    · rcases ih with h | ⟨hin, _⟩
      · have hd := Copies.next hstore M.value h
        exact .inr ⟨.here, ⟨_, hd⟩, .inr ⟨_, hd⟩⟩
      · exact absurd hin.above (M.not_above_value_slot F)

theorem copies_elsewhere {b : NodeId} (hne : i ≠ target) (hp : r.parent? i = some b)
    (hb : r.isBlock b = true)
    (h : (r.move block index d value load p).Copies i v u) : r.Copies i v u := by
  rcases M.copies V h with h | ⟨hin, _⟩
  · exact h
  · exact absurd hin (M.not_inside_slot V hne hp hb)

/-- What the joined instruction copies, and to where, was in the definition or in the target. -/
theorem copies_head {head : NodeId} (hhead : head = target ∨ head = value ∧ load = target)
    (h : (r.move block index d value load p).Copies head t u) :
    (∃ i x, (i = d ∨ i = target) ∧ r.Copies i x u) ∧
      ∃ i x, (i = d ∨ i = target) ∧ r.Copies i t x := by
  obtain ⟨v, hstore⟩ := M.store
  rcases M.copies V h with hcopy | ⟨hin, ⟨x, hsource⟩, htarget⟩
  · rcases hhead with rfl | ⟨rfl, _⟩
    · exact ⟨⟨head, t, .inr rfl, hcopy⟩, head, u, .inr rfl, hcopy⟩
    · have hd : r.Copies d t u := Copies.next hstore M.value hcopy
      exact ⟨⟨d, t, .inl rfl, hd⟩, d, u, .inl rfl, hd⟩
  · rcases hhead with rfl | ⟨rfl, _⟩
    · refine ⟨⟨d, x, .inl rfl, hsource⟩, ?_⟩
      rcases htarget with ⟨y, htarget⟩ | ⟨y, htarget⟩
      · exact ⟨head, y, .inr rfl, htarget⟩
      · exact ⟨d, y, .inl rfl, htarget⟩
    · exact absurd hin.above (M.not_above_value_slot V.forest)

end Movable

end Routine

end CilFold
