/-
  Substitution of variables for others in a tree. The loads of a variable become fresh loads of
  the one that stands in for it, and its stores are dropped. Nothing is substituted twice, so
  that two substitutions are one as long as the second leaves alone what the first puts in
  (`strip_strip`). To substitute for one variable is to plant loads and then to prune its store,
  in this order (`strip_plantAt`, `strip_eq_prune`).
-/
import CilFold.Proofs.Tree

namespace CilFold

/-- The variable that stands in for the one that an operation loads. -/
def Op.standIn? (ρ : VarId → Option VarId) : Op → Option VarId
  | .ldloc v => ρ v
  | _ => none

/-- Whether an operation stores a variable that another one stands in for. -/
def Op.isReplacedStore (ρ : VarId → Option VarId) : Op → Bool
  | .stloc v => (ρ v).isSome
  | _ => false

/-- The substitution of one variable for another. -/
def single (var this : VarId) (v : VarId) : Option VarId := if v = var then some this else none

theorem single_self (var this : VarId) : single var this var = some this := if_pos rfl

theorem single_of_ne {var this v : VarId} (h : v ≠ var) : single var this v = none := if_neg h

namespace Tree

variable {α β : Type} {ρ σ : VarId → Option VarId} {a : Option α} {op : Op}
  {t : Tree (Option α)} {ts : List (Tree (Option α))} {var this : VarId}

mutual

/-- Puts fresh loads in the place of the loads of the variables that others stand in for, and
    drops the stores of these variables. -/
def strip (ρ : VarId → Option VarId) : Tree (Option α) → Tree (Option α)
  | node a op ts =>
    match op.standIn? ρ with
    | some this => node none (.ldloc this) []
    | none => node a op (stripAll ρ ts)

/-- Drops trees that store such a variable, and substitutes in the others. -/
def stripAll (ρ : VarId → Option VarId) : List (Tree (Option α)) → List (Tree (Option α))
  | [] => []
  | t :: ts =>
    if t.op.isReplacedStore ρ then stripAll ρ ts else strip ρ t :: stripAll ρ ts

end

theorem stripAll_eq (ρ : VarId → Option VarId) (ts : List (Tree (Option α))) :
    stripAll ρ ts =
      (ts.filter fun t => !t.op.isReplacedStore ρ).map (strip ρ) := by
  induction ts with
  | nil => rfl
  | cons t ts ih =>
    rw [stripAll, ih, List.filter_cons]
    cases t.op.isReplacedStore ρ <;> rfl

theorem strip_of_some (h : op.standIn? ρ = some this) :
    (node a op ts).strip ρ = node none (.ldloc this) [] := by
  simp only [strip, h]

theorem strip_of_none (h : op.standIn? ρ = none) : (node a op ts).strip ρ =
    node a op ((ts.filter fun t => !t.op.isReplacedStore ρ).map (strip ρ)) := by
  simp only [strip, h, stripAll_eq]

/-- A substitution puts in no stores. -/
theorem isReplacedStore_strip (t : Tree (Option α)) :
    (t.strip ρ).op.isReplacedStore σ = t.op.isReplacedStore σ := by
  obtain ⟨a, op, ts⟩ := t
  cases h : op.standIn? ρ with
  | none => rw [strip_of_none h, op_node, op_node]
  | some this =>
    rw [strip_of_some h]
    cases op <;> first | rfl | cases h

theorem strip_none (t : Tree (Option α)) : t.strip (fun _ => none) = t := by
  induction t with
  | node a op ts ih =>
    have hload : op.standIn? (fun _ => none) = none := by cases op <;> rfl
    have hstore : ∀ t ∈ ts, (!t.op.isReplacedStore fun _ => none) = true := by
      intro t _
      cases t.op <;> rfl
    rw [strip_of_none hload, List.filter_eq_self.mpr hstore, List.map_congr_left ih,
      List.map_id']

/-- Two substitutions are one if the second does not concern what the first puts in. -/
theorem strip_strip (h : ∀ v this, ρ v = some this → σ this = none)
    (t : Tree (Option α)) :
    (t.strip ρ).strip σ = t.strip fun v => (ρ v).or (σ v) := by
  induction t with
  | node a op ts ih =>
    have hload : op.standIn? (fun v => (ρ v).or (σ v)) = (op.standIn? ρ).or (op.standIn? σ) := by
      cases op <;> rfl
    cases hρ : op.standIn? ρ with
    | some this =>
      have hstays : (Op.ldloc this).standIn? σ = none := by
        cases op with
        | ldloc v => exact h v this hρ
        | _ => cases hρ
      rw [strip_of_some hρ, strip_of_none hstays,
        strip_of_some (hload.trans (by rw [hρ]; rfl))]
      rfl
    | none =>
      rw [hρ, Option.none_or] at hload
      rw [strip_of_none hρ]
      cases hσ : op.standIn? σ with
      | some this => rw [strip_of_some hσ, strip_of_some (hload.trans hσ)]
      | none =>
        have hfilter : ts.filter (fun t => !t.op.isReplacedStore fun v => (ρ v).or (σ v)) =
            ts.filter fun t => ((fun u => !u.op.isReplacedStore σ) ∘ strip ρ) t &&
              !t.op.isReplacedStore ρ := by
          refine List.filter_congr fun t _ => ?_
          rw [Function.comp_apply, isReplacedStore_strip]
          cases t.op with
          | stloc v => simp only [Op.isReplacedStore, Option.isSome_or, Bool.not_or, Bool.and_comm]
          | _ => rfl
        rw [strip_of_none hσ, strip_of_none (hload.trans hσ), List.filter_map,
          List.filter_filter, List.map_map, hfilter]
        exact congrArg (node a op)
          (List.map_congr_left fun t ht => ih t (List.mem_of_mem_filter ht))

/-- Substitution goes along with a change of the labels that gives none to what has none. -/
theorem map_strip {o : Option α → Option β} (ho : o none = none) (t : Tree (Option α)) :
    (t.strip ρ).map o = (t.map o).strip ρ := by
  induction t with
  | node a op ts ih =>
    rw [map_node]
    cases h : op.standIn? ρ with
    | some this => rw [strip_of_some h, strip_of_some h, map_node, ho, List.map_nil]
    | none =>
      have hfilter : ts.filter (fun t => !t.op.isReplacedStore ρ) =
          ts.filter ((fun t => !t.op.isReplacedStore ρ) ∘ map o) :=
        List.filter_congr fun t _ => by rw [Function.comp_apply, op_map]
      rw [strip_of_none h, strip_of_none h, map_node, List.filter_map, List.map_map,
        List.map_map, ← hfilter]
      exact congrArg (node (o a) op)
        (List.map_congr_left fun t ht => ih t (List.mem_of_mem_filter ht))

/-- A load after the substitution has been one before it. -/
theorem load_of_strip {b : Option α} {us : List (Tree (Option α))}
    (h : t.strip ρ = node b (.ldloc this) us) :
    ∃ v, t.op = .ldloc v ∧ (v = this ∨ ρ v = some this) := by
  obtain ⟨a, op, ts⟩ := t
  cases hρ : op.standIn? ρ with
  | some u =>
    rw [strip_of_some hρ] at h
    cases op with
    | ldloc v =>
      cases h
      exact ⟨v, rfl, .inr hρ⟩
    | _ => cases hρ
  | none =>
    rw [strip_of_none hρ] at h
    cases h
    exact ⟨this, rfl, .inl rfl⟩

/-- A fresh load of the stand-in, planted in the place of a load, makes no difference to the
    substitution. -/
theorem strip_plantAt [DecidableEq α] {load : α} (hne : this ≠ var)
    (h : ∀ u ∈ t.subtrees, u.label = some load → u.op = .ldloc var) :
    (t.plantAt (some load) (node none (.ldloc this) [])).strip (single var this) =
      t.strip (single var this) := by
  induction t with
  | node a op ts ih =>
    obtain ⟨htop, hts⟩ := forall_subtrees_node.mp h
    by_cases ha : a = some load
    · obtain rfl : op = .ldloc var := htop ha
      have hself : (Op.ldloc var).standIn? (single var this) = some this := single_self var this
      have hother : (Op.ldloc this).standIn? (single var this) = none := single_of_ne hne
      have hlabel : (node a (Op.ldloc var) ts).label = some load := ha
      rw [plantAt_top hlabel, strip_of_some hself, strip_of_none hother]
      rfl
    · have hop : ∀ t ∈ ts,
          (t.plantAt (some load) (node none (.ldloc this) [])).op.isReplacedStore (single var this) =
            t.op.isReplacedStore (single var this) := by
        intro t ht
        by_cases hl : t.label = some load
        · rw [plantAt_top hl, hts t ht t t.mem_subtrees_self hl]
          rfl
        · obtain ⟨b, op', us⟩ := t
          have hb : b ≠ some load := hl
          rw [plantAt_node hb, op_node, op_node]
      rw [plantAt_node ha]
      cases hσ : op.standIn? (single var this) with
      | some u => rw [strip_of_some hσ, strip_of_some hσ]
      | none =>
        rw [strip_of_none hσ, strip_of_none hσ, List.filter_map, List.map_map]
        have hfilter : ts.filter ((fun t => !t.op.isReplacedStore (single var this)) ∘
            fun t => t.plantAt (some load) (node none (.ldloc this) [])) =
              ts.filter fun t => !t.op.isReplacedStore (single var this) :=
          List.filter_congr fun t ht => by rw [Function.comp_apply, hop t ht]
        rw [hfilter]
        refine congrArg (node a op) (List.map_congr_left fun t ht => ?_)
        have hmem := List.mem_of_mem_filter ht
        exact ih t hmem (hts t hmem)

/-- Where the variable is not loaded, only its store goes. -/
theorem strip_eq_prune [DecidableEq α]
    (h : ∀ u ∈ t.subtrees, u.op ≠ .ldloc var ∧ (u.op = .stloc var ↔ u.label = a)) :
    t.strip (single var this) = t.prune (· == a) := by
  induction t with
  | node b op ts ih =>
    obtain ⟨⟨hload, _⟩, hts⟩ := forall_subtrees_node.mp h
    have hnone : op.standIn? (single var this) = none := by
      cases op with
      | ldloc v => exact single_of_ne fun he => hload (congrArg Op.ldloc he)
      | _ => rfl
    have hfilter : ts.filter (fun t => !t.op.isReplacedStore (single var this)) =
        ts.filter fun t => !(t.label == a) := by
      refine List.filter_congr fun t ht => congrArg _ ?_
      rw [Bool.eq_iff_iff, beq_iff_eq, ← (hts t ht t t.mem_subtrees_self).2]
      cases t.op with
      | stloc v => by_cases hv : v = var <;> simp [Op.isReplacedStore, single, hv]
      | _ => simp [Op.isReplacedStore]
    rw [strip_of_none hnone, prune_node, hfilter]
    refine congrArg (node b op) (List.map_congr_left fun t ht => ?_)
    have hmem := List.mem_of_mem_filter ht
    exact ih t hmem (hts t hmem)

end Tree

end CilFold
