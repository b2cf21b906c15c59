/-
  Whether an instruction is a self-store depends on its tree and on the names and types of the
  variables only (`isRedundant_congr`). The comparison of subtrees walks down with a bound, the
  size of the arena; on trees that are not deeper than the bound it does not matter.
-/
import CilFold.Pass.SelfStore
import CilFold.Proofs.Shapes

namespace CilFold

/-! ## The comparison of trees -/

theorem all_congr {α : Type} {l : List α} {f g : α → Bool} (h : ∀ a ∈ l, f a = g a) :
    l.all f = l.all g := by
  rw [Bool.eq_iff_iff, List.all_eq_true, List.all_eq_true]
  exact forall₂_congr fun a ha => by rw [h a ha]

/-- Whether two trees of at most `depth` levels have one shape with the same operands. -/
def Tree.sameTo : Nat → Tree NodeId → Tree NodeId → Bool
  | 0, _, _ => false
  | depth + 1, t, u =>
    t.label == u.label ||
      t.op.alike u.op && t.operands.length == u.operands.length &&
        (t.operands.zip u.operands).all fun pair => pair.1.sameTo depth pair.2

/-- The depth does not matter if it is enough. -/
theorem Tree.sameTo_eq_of_within {t : Tree NodeId} {d e : Nat} (hd : t.Within d) (he : t.Within e)
    (u : Tree NodeId) : t.sameTo d u = t.sameTo e u := by
  induction t generalizing d e u with
  | node a op ts ih =>
    cases d with
    | zero => exact absurd hd id
    | succ d =>
      cases e with
      | zero => exact absurd he id
      | succ e =>
        have hall : ((node a op ts).operands.zip u.operands).all
              (fun pair => pair.1.sameTo d pair.2) =
            ((node a op ts).operands.zip u.operands).all fun pair => pair.1.sameTo e pair.2 := by
          refine all_congr fun pair hpair => ?_
          have hmem := (List.of_mem_zip hpair).1
          exact ih pair.1 hmem (hd pair.1 hmem) (he pair.1 hmem) pair.2
        rw [sameTo, sameTo, hall]

namespace Routine

variable {r s : Routine} {id k : NodeId} {t u : Tree NodeId} {settings : Settings}

theorem sameTreeTo_eq (depth : Nat) (ht : r.Holds t) (hu : r.Holds u) :
    r.sameTreeTo depth t.label u.label = t.sameTo depth u := by
  induction depth generalizing t u with
  | zero => rfl
  | succ depth ih =>
    obtain ⟨n, hn, hnop⟩ := Option.map_eq_some_iff.mp ht.op?
    obtain ⟨m, hm, hmop⟩ := Option.map_eq_some_iff.mp hu.op?
    have hnc : n.children = t.operands.map Tree.label :=
      (children_of_node? hn).symm.trans ht.children
    have hmc : m.children = u.operands.map Tree.label :=
      (children_of_node? hm).symm.trans hu.children
    rw [sameTreeTo, Tree.sameTo]
    by_cases hl : t.label = u.label
    · rw [if_pos hl, ht.alive, hl, beq_self_eq_true, Bool.true_or]
    · rw [if_neg hl, beq_eq_false_iff_ne.mpr hl, Bool.false_or, hn, hm]
      show (n.op.alike m.op && n.children.length == m.children.length &&
        (n.children.zip m.children).all fun pair => r.sameTreeTo depth pair.1 pair.2) = _
      rw [hnop, hmop, hnc, hmc, List.length_map, List.length_map, List.zip_map, List.all_map]
      congr 1
      refine all_congr fun pair hpair => ?_
      obtain ⟨h₁, h₂⟩ := List.of_mem_zip hpair
      exact ih (ht.operand h₁) (hu.operand h₂)

theorem sameTree_congr (F : r.Forest) (F' : s.Forest) (ht : r.Holds t) (ht' : s.Holds t)
    (hu : r.Holds u) (hu' : s.Holds u) :
    s.sameTree t.label u.label = r.sameTree t.label u.label := by
  rw [sameTree, sameTree, sameTreeTo_eq _ ht hu, sameTreeTo_eq _ ht' hu']
  exact Tree.sameTo_eq_of_within (F'.within ht') (F.within ht) u

/-! ## Self-stores -/

section Node

variable (hop : s.op? k = r.op? k) (hc : s.children k = r.children k)
include hop hc

theorem stloc?_congr : s.stloc? k = r.stloc? k := by
  ext ⟨v, value⟩
  rw [stloc?_eq_some, stloc?_eq_some, hop, hc]

theorem stobj?_congr : s.stobj? k = r.stobj? k := by
  ext ⟨address, value, type⟩
  rw [stobj?_eq_some, stobj?_eq_some, hop, hc]

theorem ldobj?_congr : s.ldobj? k = r.ldobj? k := by
  ext ⟨address, type⟩
  rw [ldobj?_eq_some, ldobj?_eq_some, hop, hc]

theorem ldflda?_congr : s.ldflda? k = r.ldflda? k := by
  ext ⟨target, field⟩
  rw [ldflda?_eq_some, ldflda?_eq_some, hop, hc]

end Node

/-- A variable keeps its type and its name. -/
theorem SameHead.declared (h : SameHead r s) (v : VarId) :
    (r.var? v = none ∧ s.var? v = none) ∨
      ∃ x y, r.var? v = some x ∧ s.var? v = some y ∧ y.type = x.type ∧ y.name = x.name := by
  have hbare := h.var? v
  cases hx : r.var? v with
  | none =>
    rw [hx, Option.map_none, Option.map_eq_none_iff] at hbare
    exact .inl ⟨rfl, hbare⟩
  | some x =>
    rw [hx, Option.map_some, Option.map_eq_some_iff] at hbare
    obtain ⟨y, hy, hyx⟩ := hbare
    have htype := congrArg Variable.type hyx
    have hname := congrArg Variable.name hyx
    exact .inr ⟨x, y, rfl, hy, htype, hname⟩

section Congr

variable (ht : r.Holds t) (ht' : s.Holds t)
include ht ht'

theorem node_congr (hk : k ∈ t.labels) : s.op? k = r.op? k ∧ s.children k = r.children k := by
  obtain ⟨u, hu, rfl⟩ := List.mem_map.mp hk
  have hr := ht.subtree hu
  have hs := ht'.subtree hu
  exact ⟨hs.op?.trans hr.op?.symm, hs.children.trans hr.children.symm⟩

theorem refillsField_congr (F : r.Forest) (F' : s.Forest) :
    s.refillsField t.label = r.refillsField t.label := by
  have hnode := fun k => node_congr (k := k) ht ht'
  have hbelow : ∀ {k c}, k ∈ t.labels → c ∈ r.children k → c ∈ t.labels := fun hk hc =>
    (F.mem_labels ht).mpr (((F.mem_labels ht).mp hk).under (F.parent?_of_mem hc))
  have htop := t.label_mem_labels
  unfold refillsField
  rw [stobj?_congr (hnode _ htop).1 (hnode _ htop).2]
  cases hst : r.stobj? t.label with
  | none => rfl
  | some parts =>
    obtain ⟨target, value, storeType⟩ := parts
    obtain ⟨_, hc⟩ := stobj?_eq_some.mp hst
    have htarget := hbelow htop (hc ▸ List.mem_cons_self)
    have hvalue := hbelow htop (hc ▸ List.mem_cons_of_mem _ List.mem_cons_self)
    simp only
    rw [ldobj?_congr (hnode _ hvalue).1 (hnode _ hvalue).2,
      ldflda?_congr (hnode _ htarget).1 (hnode _ htarget).2]
    cases hld : r.ldobj? value with
    | none => rfl
    | some parts =>
      obtain ⟨source, loadType⟩ := parts
      have hsource := hbelow hvalue ((ldobj?_eq_some.mp hld).2 ▸ List.mem_cons_self)
      simp only
      rw [ldflda?_congr (hnode _ hsource).1 (hnode _ hsource).2]
      cases hta : r.ldflda? target with
      | none => rfl
      | some parts =>
        cases hso : r.ldflda? source with
        | none => rfl
        | some parts' =>
          have hx := hbelow htarget ((ldflda?_eq_some.mp hta).2 ▸ List.mem_cons_self)
          have hy := hbelow hsource ((ldflda?_eq_some.mp hso).2 ▸ List.mem_cons_self)
          obtain ⟨x, hx, hxl⟩ := List.mem_map.mp hx
          obtain ⟨y, hy, hyl⟩ := List.mem_map.mp hy
          simp only
          rw [← hxl, ← hyl, sameTree_congr F F' (ht.subtree hx) (ht'.subtree hx) (ht.subtree hy)
            (ht'.subtree hy)]

theorem copiesNamesake_congr (F : r.Forest) (head : SameHead r s) :
    s.copiesNamesake t.label = r.copiesNamesake t.label := by
  have htop := node_congr ht ht' t.label_mem_labels
  unfold copiesNamesake
  rw [stloc?_congr htop.1 htop.2]
  cases hst : r.stloc? t.label with
  | none => rfl
  | some parts =>
    obtain ⟨target, value⟩ := parts
    have hmem : value ∈ r.children t.label := (stloc?_eq_some.mp hst).2 ▸ List.mem_cons_self
    have hvalue : value ∈ t.labels :=
      (F.mem_labels ht).mpr ((Above.refl r t.label).under (F.parent?_of_mem hmem))
    have hload : s.ldloc? value = r.ldloc? value := by
      rw [ldloc?, ldloc?, (node_congr ht ht' hvalue).1]
    simp only
    rw [hload]
    cases r.ldloc? value with
    | none =>
      cases s.var? target <;> cases r.var? target <;> rfl
    | some source =>
      rcases head.declared target with ⟨hx, hx'⟩ | ⟨x, x', hx, hx', hxt, hxn⟩
      · rw [hx, hx']
      · rcases head.declared source with ⟨hy, hy'⟩ | ⟨y, y', hy, hy', hyt, hyn⟩
        · simp only [Option.bind_some, hx, hx', hy, hy']
        · simp only [Option.bind_some, hx, hx', hy, hy', hxt, hxn, hyt, hyn]

theorem isRedundant_congr (F : r.Forest) (F' : s.Forest) (head : SameHead r s) :
    s.isRedundant settings t.label = r.isRedundant settings t.label := by
  rw [isRedundant, isRedundant, refillsField_congr ht ht' F F', copiesNamesake_congr ht ht' F head]

end Congr

end Routine

end CilFold
