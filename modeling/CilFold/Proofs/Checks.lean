/-
  What the checks of the edits accept. Each check is turned into the condition under which it
  passes; on a forest the test by the topmost node of a tree means that the new node does not
  lie above its place, and a node with a parent is listed there.
-/
import CilFold.Proofs.Clone

namespace CilFold

/-! ## Chains of checks -/

section Except

variable {ε α β : Type} {x : Except ε α} {f : α → Except ε β} {a : α} {b : β} {e : ε}

/-- A chain passes if its first check and the rest do. -/
theorem bind_eq_ok : (x >>= f) = .ok b ↔ ∃ a, x = .ok a ∧ f a = .ok b := by
  cases x with
  | error _ => exact ⟨fun h => (nomatch h), fun ⟨_, h, _⟩ => (nomatch h)⟩
  | ok a =>
    refine ⟨fun h => ⟨a, rfl, h⟩, ?_⟩
    rintro ⟨_, ha, h⟩
    cases ha
    exact h

theorem pure_eq_ok {a' : α} : (pure a : Except ε α) = .ok a' ↔ a = a' :=
  ⟨Except.ok.inj, congrArg Except.ok⟩

/-- A refusal passes if there is no reason for it. -/
theorem refuse_eq_ok {c : Prop} [Decidable c] :
    (if c then throw e else x) = .ok a ↔ ¬ c ∧ x = .ok a := by
  by_cases hc : c
  · rw [if_pos hc]
    exact ⟨fun h => (nomatch h), fun h => absurd hc h.1⟩
  · rw [if_neg hc]
    exact (and_iff_right hc).symm

theorem refuse_bind_eq_ok {c : Prop} [Decidable c] {g : Unit → Except ε α} :
    (if c then throw e >>= g else x) = .ok a ↔ ¬ c ∧ x = .ok a := refuse_eq_ok

theorem accept_eq_ok {c : Prop} [Decidable c] :
    (if c then x else throw e) = .ok a ↔ c ∧ x = .ok a := by
  by_cases hc : c
  · rw [if_pos hc]
    exact (and_iff_right hc).symm
  · rw [if_neg hc]
    exact ⟨fun h => (nomatch h), fun h => absurd h.1 hc⟩

end Except

namespace Routine

variable {r : Routine} {block container id inst new p : NodeId} {n : Node}

/-! ## Checks of one node -/

theorem find_ok : r.find id = .ok n ↔ r.node? id = some n := by
  unfold find
  cases r.node? id <;> simp

theorem checkDetached_ok :
    r.checkDetached id = .ok n ↔
      r.node? id = some n ∧ n.parent = none ∧ n.connected = false ∧ id ≠ r.body := by
  simp only [checkDetached, bind_eq_ok, find_ok, refuse_bind_eq_ok, pure_eq_ok, Bool.not_eq_true,
    Bool.or_eq_false_iff, Option.isSome_eq_false_iff, Option.isNone_iff_eq_none,
    beq_eq_false_iff_ne]
  constructor
  · rintro ⟨m, hm, ⟨⟨hp, hc⟩, hb⟩, rfl⟩
    exact ⟨hm, hp, hc, hb⟩
  · rintro ⟨hn, hp, hc, hb⟩
    exact ⟨n, hn, ⟨⟨hp, hc⟩, hb⟩, rfl⟩

theorem checkBlock_ok : r.checkBlock id = .ok n ↔ r.node? id = some n ∧ n.op.isBlock = true := by
  simp only [checkBlock, bind_eq_ok, find_ok, accept_eq_ok, pure_eq_ok]
  constructor
  · rintro ⟨m, hm, hb, rfl⟩
    exact ⟨hm, hb⟩
  · rintro ⟨hn, hb⟩
    exact ⟨n, hn, hb, rfl⟩

theorem checkAttached_ok : r.checkAttached id = .ok p ↔ r.parent? id = some p := by
  simp only [checkAttached, bind_eq_ok, find_ok, parent?, Option.bind_eq_some_iff]
  refine exists_congr fun m => and_congr_right fun _ => ?_
  cases m.parent with
  | none => constructor <;> intro h <;> cases h
  | some q => exact pure_eq_ok.trans Option.some_inj.symm

theorem checkListed_ok : r.checkListed id p = .ok () ↔ id ∈ r.children p := by
  unfold checkListed
  by_cases h : id ∈ r.children p <;> simp [h]

/-- A number of operands passes the check exactly if it is one that the operation may have;
    blocks and containers start empty. -/
theorem checkArity_ok {op : Op} {count : Nat} :
    checkArity op count = .ok () ↔
      (∀ arity, op.arity? = some arity → count = arity) ∧ (op = .ret → count ≤ 1) := by
  unfold checkArity
  cases ha : op.arity? with
  | some arity =>
    have hne : op ≠ .ret := by
      rintro rfl
      cases ha
    by_cases hc : arity = count
    · simp [hc, hne]
    · simp [hc, Ne.symm hc]
  | none =>
    by_cases hr : op = .ret ∧ 1 < count
    · obtain ⟨hop, hlt⟩ := hr
      simp [hop, hlt]
    · have hle : op = .ret → count ≤ 1 := fun h => Nat.le_of_not_lt fun hlt => hr ⟨h, hlt⟩
      simp only [if_neg hr, true_iff]
      exact ⟨fun _ h => (nomatch h), hle⟩

theorem fits_of_checkArity {op : Op} {count : Nat} (h : checkArity op count = .ok ()) :
    op.Fits count := fun _ _ => checkArity_ok.mp h

theorem exists_of_isBlock (h : r.isBlock id = true) :
    ∃ n, r.node? id = some n ∧ n.op.isBlock = true := by
  obtain ⟨op, hop, hb⟩ := (Option.any_eq_true _ _).mp h
  obtain ⟨n, hn, rfl⟩ := Option.map_eq_some_iff.mp hop
  exact ⟨n, hn, hb⟩

theorem isBlock_of_node? (h : r.node? id = some n) : r.isBlock id = n.op.isBlock := by
  rw [isBlock, op?_of_node? h, Option.any_some]

theorem isContainer_of_node? (h : r.node? id = some n) : r.isContainer id = n.op.isContainer := by
  rw [isContainer, op?_of_node? h, Option.any_some]

theorem checkRemove_ok {index : Nat} :
    r.checkRemove block index = .ok inst ↔
      r.isBlock block = true ∧ (r.children block)[index]? = some inst := by
  simp only [checkRemove, bind_eq_ok, checkBlock_ok]
  constructor
  · rintro ⟨m, ⟨hm, hb⟩, hi⟩
    rw [isBlock_of_node? hm, children_of_node? hm]
    refine ⟨hb, ?_⟩
    split at hi
    · next i hget => rw [hget, pure_eq_ok.mp hi]
    · cases hi
  · rintro ⟨hb, hi⟩
    obtain ⟨m, hm, hmb⟩ := exists_of_isBlock hb
    rw [children_of_node? hm] at hi
    refine ⟨m, ⟨hm, hmb⟩, ?_⟩
    rw [hi]
    rfl

/-! ## Checks on a forest -/

section Forest

variable (F : r.Forest)
include F

theorem exists_checkDetached_iff : (∃ n, r.checkDetached id = .ok n) ↔ r.Detached id := by
  simp only [checkDetached_ok]
  constructor
  · rintro ⟨n, hn, hp, hc, _⟩
    exact Detached.of_node? hn hp hc
  · intro h
    obtain ⟨n, hn⟩ := isAlive_iff.mp h.alive
    exact ⟨n, hn, (parent?_of_node? hn).symm.trans h.top,
      (isConnected_of_node? hn).symm.trans h.loose, h.ne_body F⟩

theorem checkOperands_ok {met ids : List NodeId} :
    r.checkOperands met ids = .ok () ↔ ids.Nodup ∧ ∀ id ∈ ids, id ∉ met ∧ r.Detached id := by
  induction ids generalizing met with
  | nil => simp [checkOperands]
  | cons id ids ih =>
    simp only [checkOperands, bind_eq_ok, refuse_bind_eq_ok, ih, exists_and_right,
      exists_checkDetached_iff F, List.contains_iff_mem, List.nodup_cons, List.mem_cons,
      forall_eq_or_imp, not_or]
    constructor
    · rintro ⟨hd, hm, hnd, hall⟩
      exact ⟨⟨fun h => (hall id h).1.1 rfl, hnd⟩, ⟨hm, hd⟩,
        fun k hk => ⟨(hall k hk).1.2, (hall k hk).2⟩⟩
    · rintro ⟨⟨hid, hnd⟩, ⟨hm, hd⟩, hall⟩
      refine ⟨hd, hm, hnd, fun k hk => ⟨⟨?_, (hall k hk).1⟩, (hall k hk).2⟩⟩
      rintro rfl
      exact hid hk

/-- An instruction can be inserted if it is the top of a tree outside the routine's that the
    block does not belong to, and no block itself. -/
theorem checkInsert_ok {index : Nat} :
    r.checkInsert block index inst = .ok () ↔
      r.isBlock block = true ∧ index ≤ (r.children block).length ∧ r.Detached inst ∧
        r.isBlock inst = false ∧ ¬ r.Above inst block := by
  simp only [checkInsert, bind_eq_ok, checkBlock_ok, refuse_bind_eq_ok, refuse_eq_ok, pure_eq_ok,
    and_true, Nat.not_lt, beq_iff_eq]
  constructor
  · rintro ⟨b, ⟨hb, hbb⟩, hle, m, hm, hmb, htop⟩
    have hd := (exists_checkDetached_iff F).mp ⟨m, hm⟩
    rw [isBlock_of_node? hb, children_of_node? hb, isBlock_of_node? (checkDetached_ok.mp hm).1]
    refine ⟨hbb, hle, hd, Bool.eq_false_iff.mpr hmb, ?_⟩
    rwa [← F.topOf_eq_iff hd.top]
  · rintro ⟨hb, hle, hd, hmb, habove⟩
    obtain ⟨b, hb, hbb⟩ := exists_of_isBlock hb
    obtain ⟨m, hm⟩ := (exists_checkDetached_iff F).mpr hd
    rw [isBlock_of_node? (checkDetached_ok.mp hm).1] at hmb
    rw [children_of_node? hb] at hle
    refine ⟨b, ⟨hb, hbb⟩, hle, m, hm, Bool.eq_false_iff.mp hmb, ?_⟩
    rwa [F.topOf_eq_iff hd.top]

/-- A node can take over the slot of another one if it is the top of a tree outside the
    routine's that the other one does not belong to, and fits the place. -/
theorem checkReplace_ok :
    r.checkReplace id new = .ok p ↔
      r.parent? id = some p ∧ r.Detached new ∧ ¬ r.Above new id ∧
        r.isBlock new = r.isContainer p := by
  simp only [checkReplace, bind_eq_ok, checkAttached_ok, find_ok, refuse_bind_eq_ok, pure_eq_ok,
    beq_iff_eq, bne_iff_ne, ne_eq, Decidable.not_not]
  constructor
  · rintro ⟨q, hq, m, hm, htop, pn, hpn, hrole, _, _, rfl⟩
    have hd := (exists_checkDetached_iff F).mp ⟨m, hm⟩
    refine ⟨hq, hd, ?_, ?_⟩
    · rwa [← F.topOf_eq_iff hd.top]
    · rw [isBlock_of_node? (checkDetached_ok.mp hm).1, isContainer_of_node? hpn, hrole]
  · rintro ⟨hp, hd, habove, hrole⟩
    obtain ⟨m, hm⟩ := (exists_checkDetached_iff F).mpr hd
    obtain ⟨pn, hpn⟩ := F.exists_parent_node? hp
    rw [isBlock_of_node? (checkDetached_ok.mp hm).1, isContainer_of_node? hpn] at hrole
    refine ⟨p, hp, m, hm, ?_, pn, hpn, hrole, (), checkListed_ok.mpr (F.listed hp), rfl⟩
    rwa [F.topOf_eq_iff hd.top]

/-- A node can be taken out of its slot if it is an operand. -/
theorem checkExtract_ok :
    r.checkExtract id = .ok p ↔
      r.parent? id = some p ∧ r.isBlock p = false ∧ r.isContainer p = false := by
  simp only [checkExtract, bind_eq_ok, checkAttached_ok, find_ok, refuse_bind_eq_ok, pure_eq_ok,
    Bool.not_eq_true, Bool.or_eq_false_iff]
  constructor
  · rintro ⟨q, hq, pn, hpn, ⟨hb, hc⟩, _, _, rfl⟩
    rw [isBlock_of_node? hpn, isContainer_of_node? hpn]
    exact ⟨hq, hb, hc⟩
  · rintro ⟨hp, hb, hc⟩
    obtain ⟨pn, hpn⟩ := F.exists_parent_node? hp
    rw [isBlock_of_node? hpn] at hb
    rw [isContainer_of_node? hpn] at hc
    exact ⟨p, hp, pn, hpn, ⟨hb, hc⟩, (), checkListed_ok.mpr (F.listed hp), rfl⟩

end Forest

end Routine

end CilFold
