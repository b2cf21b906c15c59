/-
  Operation trees on their own, without an arena. Each node bears a label, for trees read off
  an arena its handle.

  `Tree.rewrite σ` replaces, from the top down, each subtree that `σ` has something for; it
  looks neither into what it replaces nor into what it puts there. `Tree.plant` does so by the
  labels alone, and `Tree.prune` drops operands by their labels. The edits of a routine act on
  its trees in the last two ways, one node at a time; `plant_plant` and `prune_prune` put the
  steps together.
-/
import Mathlib.Data.List.Nodup
import Mathlib.Data.List.Perm.Basic
import CilFold.Operation

namespace CilFold

/-- An operation over the trees of its operands. -/
inductive Tree (α : Type) where
  | node (label : α) (op : Op) (operands : List (Tree α))

namespace Tree

variable {α β : Type}

/-- The label of the topmost node. -/
def label : Tree α → α
  | node a _ _ => a

/-- The operation of the topmost node. -/
def op : Tree α → Op
  | node _ op _ => op

/-- The trees of the operands. -/
def operands : Tree α → List (Tree α)
  | node _ _ ts => ts

@[simp] theorem label_node (a : α) (op : Op) (ts : List (Tree α)) : (node a op ts).label = a := rfl

@[simp] theorem op_node (a : α) (op : Op) (ts : List (Tree α)) : (node a op ts).op = op := rfl

@[simp] theorem operands_node (a : α) (op : Op) (ts : List (Tree α)) :
    (node a op ts).operands = ts := rfl

/-- Induction over a tree: what holds of a node if it holds of its operands holds of it. -/
@[induction_eliminator]
theorem induction {motive : Tree α → Prop}
    (node : ∀ a op ts, (∀ t ∈ ts, motive t) → motive (.node a op ts)) (t : Tree α) : motive t :=
  @Tree.rec α motive (fun ts => ∀ t ∈ ts, motive t) node
    (fun _ h => absurd h List.not_mem_nil)
    (fun _ _ ht hts _ h => (List.mem_cons.mp h).elim (fun he => he ▸ ht) (hts _)) t

/-! ## Subtrees -/

mutual

/-- A tree and everything below it, each subtree before those of its operands. -/
def subtrees : Tree α → List (Tree α)
  | node a op ts => node a op ts :: subtreesOf ts

/-- The subtrees of several trees. -/
def subtreesOf : List (Tree α) → List (Tree α)
  | [] => []
  | t :: ts => subtrees t ++ subtreesOf ts

end

/-- The labels of a tree, each node before its operands. -/
def labels (t : Tree α) : List α := t.subtrees.map label

theorem subtreesOf_eq (ts : List (Tree α)) : subtreesOf ts = ts.flatMap subtrees := by
  induction ts with
  | nil => rfl
  | cons t ts ih => rw [subtreesOf, ih, List.flatMap_cons]

theorem subtrees_node (a : α) (op : Op) (ts : List (Tree α)) :
    (node a op ts).subtrees = node a op ts :: ts.flatMap subtrees := by
  rw [subtrees, subtreesOf_eq]

theorem labels_node (a : α) (op : Op) (ts : List (Tree α)) :
    (node a op ts).labels = a :: ts.flatMap labels := by
  rw [labels, subtrees_node, List.map_cons, List.map_flatMap]
  rfl

theorem mem_subtrees_node {a : α} {op : Op} {ts : List (Tree α)} {u : Tree α} :
    u ∈ (node a op ts).subtrees ↔ u = node a op ts ∨ ∃ t ∈ ts, u ∈ t.subtrees := by
  rw [subtrees_node, List.mem_cons, List.mem_flatMap]

theorem mem_labels_node {a x : α} {op : Op} {ts : List (Tree α)} :
    x ∈ (node a op ts).labels ↔ x = a ∨ ∃ t ∈ ts, x ∈ t.labels := by
  rw [labels_node, List.mem_cons, List.mem_flatMap]

theorem mem_subtrees_self (t : Tree α) : t ∈ t.subtrees := by
  cases t with
  | node a op ts => exact mem_subtrees_node.mpr (.inl rfl)

theorem label_mem_labels (t : Tree α) : t.label ∈ t.labels :=
  List.mem_map_of_mem (mem_subtrees_self t)

/-- What holds at every subtree holds at the top and in the operands. -/
theorem forall_subtrees_node {P : Tree α → Prop} {a : α} {op : Op} {ts : List (Tree α)} :
    (∀ u ∈ (node a op ts).subtrees, P u) ↔ P (node a op ts) ∧ ∀ t ∈ ts, ∀ u ∈ t.subtrees, P u := by
  constructor
  · intro h
    refine ⟨h _ (mem_subtrees_self _), fun t ht u hu => h u ?_⟩
    exact mem_subtrees_node.mpr (.inr ⟨t, ht, hu⟩)
  · rintro ⟨htop, hts⟩ u hu
    rcases mem_subtrees_node.mp hu with rfl | ⟨t, ht, hu⟩
    · exact htop
    · exact hts t ht u hu

/-- Blocks stand in containers, and nothing else does. -/
def Placed (t : Tree α) : Prop :=
  ∀ u ∈ t.subtrees, ∀ w ∈ u.operands, w.op.isBlock = u.op.isContainer

theorem placed_leaf {a : α} {op : Op} : (node a op []).Placed := by
  intro u hu w hw
  rcases mem_subtrees_node.mp hu with rfl | ⟨t, ht, _⟩
  · exact absurd hw List.not_mem_nil
  · exact absurd ht List.not_mem_nil

/-- Neither a block nor a container is in the tree. -/
def Plain (t : Tree α) : Prop :=
  ∀ u ∈ t.subtrees, u.op.isBlock = false ∧ u.op.isContainer = false

@[simp] theorem plain_node {a : α} {op : Op} {ts : List (Tree α)} :
    (node a op ts).Plain ↔
      (op.isBlock = false ∧ op.isContainer = false) ∧ ∀ t ∈ ts, t.Plain :=
  forall_subtrees_node

theorem plain_leaf {a : α} {op : Op} (hb : op.isBlock = false) (hc : op.isContainer = false) :
    (node a op []).Plain := plain_node.mpr ⟨⟨hb, hc⟩, fun _ ht => absurd ht List.not_mem_nil⟩

/-- The tree has at most that many levels. -/
def Within : Nat → Tree α → Prop
  | 0, _ => False
  | depth + 1, t => ∀ u ∈ t.operands, Within depth u

/-! ## The order of evaluation -/

mutual

/-- The nodes of a tree with their operations in the order of their evaluation: the operands
    from left to right, then the node. -/
def steps : Tree α → List (α × Op)
  | node a op ts => stepsOf ts ++ [(a, op)]

/-- The steps of several trees. -/
def stepsOf : List (Tree α) → List (α × Op)
  | [] => []
  | t :: ts => steps t ++ stepsOf ts

end

theorem stepsOf_eq (ts : List (Tree α)) : stepsOf ts = ts.flatMap steps := by
  induction ts with
  | nil => rfl
  | cons t ts ih => rw [stepsOf, ih, List.flatMap_cons]

theorem steps_node (a : α) (op : Op) (ts : List (Tree α)) :
    (node a op ts).steps = ts.flatMap steps ++ [(a, op)] := by
  rw [steps, stepsOf_eq]

/-- The order of evaluation lists the same nodes as the order from the top down. -/
theorem steps_perm (t : Tree α) : (t.steps.map Prod.fst).Perm t.labels := by
  induction t with
  | node a op ts ih =>
    rw [steps_node, labels_node, List.map_append, List.map_flatMap]
    have hts : (ts.flatMap fun t => t.steps.map Prod.fst).Perm (ts.flatMap labels) :=
      List.Perm.flatMap_left ts ih
    exact (hts.append_right [a]).trans List.perm_append_comm

/-- Each step is the top of a subtree. -/
theorem exists_subtree_of_step {t : Tree α} {step : α × Op} (h : step ∈ t.steps) :
    ∃ u ∈ t.subtrees, step = (u.label, u.op) := by
  induction t with
  | node a op ts ih =>
    rw [steps_node, List.mem_append, List.mem_flatMap, List.mem_singleton] at h
    rcases h with ⟨t, ht, h⟩ | rfl
    · obtain ⟨u, hu, rfl⟩ := ih t ht h
      exact ⟨u, mem_subtrees_node.mpr (.inr ⟨t, ht, hu⟩), rfl⟩
    · exact ⟨_, mem_subtrees_self _, rfl⟩

/-! ## Relabelling -/

mutual

/-- Changes the labels. -/
def map (f : α → β) : Tree α → Tree β
  | node a op ts => node (f a) op (mapAll f ts)

/-- Changes the labels of several trees. -/
def mapAll (f : α → β) : List (Tree α) → List (Tree β)
  | [] => []
  | t :: ts => map f t :: mapAll f ts

end

theorem mapAll_eq (f : α → β) (ts : List (Tree α)) : mapAll f ts = ts.map (map f) := by
  induction ts with
  | nil => rfl
  | cons t ts ih => rw [mapAll, ih, List.map_cons]

theorem map_node (f : α → β) (a : α) (op : Op) (ts : List (Tree α)) :
    (node a op ts).map f = node (f a) op (ts.map (map f)) := by
  rw [map, mapAll_eq]

@[simp] theorem label_map (f : α → β) (t : Tree α) : (t.map f).label = f t.label := by
  cases t; rfl

@[simp] theorem op_map (f : α → β) (t : Tree α) : (t.map f).op = t.op := by
  cases t; rfl

@[simp] theorem operands_map (f : α → β) (t : Tree α) :
    (t.map f).operands = t.operands.map (map f) := by
  cases t; rw [map_node]; rfl

/-- The bare operations of a tree. -/
def bare (t : Tree α) : Tree Unit := t.map fun _ => ()

theorem bare_node (a : α) (op : Op) (ts : List (Tree α)) :
    (node a op ts).bare = node () op (ts.map bare) := map_node _ a op ts

@[simp] theorem op_bare (t : Tree α) : t.bare.op = t.op := op_map _ t

/-- A tree like a leaf is a leaf. -/
theorem exists_leaf_of_bare {t : Tree α} {b : β} {op : Op} (h : t.bare = (node b op []).bare) :
    ∃ a, t = node a op [] := by
  obtain ⟨a, op', ts⟩ := t
  rw [bare_node, bare_node, node.injEq] at h
  obtain ⟨_, rfl, hts⟩ := h
  rw [List.map_eq_nil_iff.mp hts]
  exact ⟨a, rfl⟩

/-- Where blocks stand is a matter of the operations. -/
theorem placed_bare {t : Tree α} : t.bare.Placed ↔ t.Placed := by
  induction t with
  | node a op ts ih =>
    rw [Placed, Placed, bare_node, forall_subtrees_node, forall_subtrees_node]
    refine and_congr ?_ ?_
    · simp
    · rw [List.forall_mem_map]
      exact forall₂_congr ih

theorem map_congr {f g : α → β} {t : Tree α} (h : ∀ a ∈ t.labels, f a = g a) :
    t.map f = t.map g := by
  induction t with
  | node a op ts ih =>
    rw [map_node, map_node, h a (label_mem_labels _), List.map_congr_left fun t ht =>
      ih t ht fun x hx => h x (mem_labels_node.mpr (.inr ⟨t, ht, hx⟩))]

theorem map_map {γ : Type} (f : α → β) (g : β → γ) (t : Tree α) :
    (t.map f).map g = t.map (g ∘ f) := by
  induction t with
  | node a op ts ih =>
    rw [map_node, map_node, map_node, List.map_map]
    exact congrArg (node (g (f a)) op) (List.map_congr_left ih)

theorem subtrees_map (f : α → β) (t : Tree α) : (t.map f).subtrees = t.subtrees.map (map f) := by
  induction t with
  | node a op ts ih =>
    rw [map_node, subtrees_node, subtrees_node, List.map_cons, map_node, List.flatMap_map,
      List.map_flatMap, List.flatMap_congr ih]

theorem plain_bare {t : Tree α} : t.bare.Plain ↔ t.Plain := by
  rw [Plain, bare, subtrees_map]
  simp only [List.forall_mem_map, op_map]
  rfl

theorem labels_map (f : α → β) (t : Tree α) : (t.map f).labels = t.labels.map f := by
  rw [labels, labels, subtrees_map, List.map_map, List.map_map]
  exact List.map_congr_left fun u _ => label_map f u

theorem length_labels_bare (t : Tree α) : t.bare.labels.length = t.labels.length := by
  rw [bare, labels_map, List.length_map]

/-- The tree with none of its nodes known from before. -/
def anew (t : Tree α) : Tree (Option β) := t.map fun _ => none

/-- A tree made of new nodes is known by its operations. -/
theorem anew_congr {γ : Type} {t : Tree α} {u : Tree γ} (h : t.bare = u.bare) :
    (t.anew : Tree (Option β)) = u.anew := by
  have hbare := congrArg (map fun _ => (none : Option β)) h
  rw [bare, map_map, bare, map_map] at hbare
  exact hbare

theorem anew_map {γ : Type} (f : α → γ) (t : Tree α) :
    ((t.map f).anew : Tree (Option β)) = t.anew :=
  map_map f _ t

theorem labels_anew {t : Tree α} {a : Option β} (h : a ∈ t.anew.labels) : a = none := by
  rw [anew, labels_map] at h
  obtain ⟨_, _, rfl⟩ := List.mem_map.mp h
  rfl

theorem anew_node (a : α) (op : Op) (ts : List (Tree α)) :
    ((node a op ts).anew : Tree (Option β)) = node none op (ts.map anew) := map_node _ a op ts

/-! ## Rewriting -/

mutual

/-- Replaces, from the top down, each subtree that `σ` has something for. Nothing is looked
    for in what is replaced, nor in what comes in its place. -/
def rewrite (σ : Tree α → Option (Tree α)) : Tree α → Tree α
  | node a op ts =>
    match σ (node a op ts) with
    | some u => u
    | none => node a op (rewriteAll σ ts)

/-- Rewrites several trees. -/
def rewriteAll (σ : Tree α → Option (Tree α)) : List (Tree α) → List (Tree α)
  | [] => []
  | t :: ts => rewrite σ t :: rewriteAll σ ts

end

variable {σ τ : Tree α → Option (Tree α)}

theorem rewriteAll_eq (σ : Tree α → Option (Tree α)) (ts : List (Tree α)) :
    rewriteAll σ ts = ts.map (rewrite σ) := by
  induction ts with
  | nil => rfl
  | cons t ts ih => rw [rewriteAll, ih, List.map_cons]

theorem rewrite_of_some {t u : Tree α} (h : σ t = some u) : t.rewrite σ = u := by
  cases t with
  | node a op ts => rw [rewrite, h]

theorem rewrite_node_of_none {a : α} {op : Op} {ts : List (Tree α)} (h : σ (node a op ts) = none) :
    (node a op ts).rewrite σ = node a op (ts.map (rewrite σ)) := by
  rw [rewrite, h, rewriteAll_eq]

/-- Rewriting leaves a tree alone that it has nothing for. -/
theorem rewrite_eq_self {t : Tree α} (h : ∀ u ∈ t.subtrees, σ u = none) : t.rewrite σ = t := by
  induction t with
  | node a op ts ih =>
    obtain ⟨htop, hts⟩ := forall_subtrees_node.mp h
    rw [rewrite_node_of_none htop, List.map_congr_left fun t ht => ih t ht (hts t ht), List.map_id']

theorem rewrite_congr {t : Tree α} (h : ∀ u ∈ t.subtrees, σ u = τ u) :
    t.rewrite σ = t.rewrite τ := by
  induction t with
  | node a op ts ih =>
    obtain ⟨htop, hts⟩ := forall_subtrees_node.mp h
    cases hτ : τ (node a op ts) with
    | some u => rw [rewrite_of_some (htop.trans hτ), rewrite_of_some hτ]
    | none =>
      rw [rewrite_node_of_none (htop.trans hτ), rewrite_node_of_none hτ,
        List.map_congr_left fun t ht => ih t ht (hts t ht)]

/-- What is in a rewritten tree was there before, under the same label, or came with what was
    put into it. -/
theorem mem_subtrees_rewrite {t u : Tree α} (h : u ∈ (t.rewrite σ).subtrees) :
    u.label ∈ t.labels ∨ ∃ x ∈ t.subtrees, ∃ y, σ x = some y ∧ u ∈ y.subtrees := by
  induction t with
  | node a op ts ih =>
    cases hσ : σ (node a op ts) with
    | some y =>
      rw [rewrite_of_some hσ] at h
      exact .inr ⟨_, mem_subtrees_self _, y, hσ, h⟩
    | none =>
      rw [rewrite_node_of_none hσ] at h
      rcases mem_subtrees_node.mp h with rfl | ⟨_, hw, hu⟩
      · exact .inl (label_mem_labels (node a op ts))
      · obtain ⟨t, ht, rfl⟩ := List.mem_map.mp hw
        rcases ih t ht hu with hl | ⟨x, hx, hy⟩
        · exact .inl (mem_labels_node.mpr (.inr ⟨t, ht, hl⟩))
        · exact .inr ⟨x, mem_subtrees_node.mpr (.inr ⟨t, ht, hx⟩), hy⟩

/-! ## Planting and pruning by labels -/

/-- Replaces, from the top down, each subtree whose label `f` has something for. -/
def plant (f : α → Option (Tree α)) (t : Tree α) : Tree α := t.rewrite fun u => f u.label

section Plant

variable {f g : α → Option (Tree α)} {t u : Tree α}

theorem plant_of_some (h : f t.label = some u) : t.plant f = u :=
  rewrite_of_some (σ := fun u => f u.label) h

theorem plant_node_of_none {a : α} {op : Op} {ts : List (Tree α)} (h : f a = none) :
    (node a op ts).plant f = node a op (ts.map (plant f)) :=
  rewrite_node_of_none (σ := fun u => f u.label) h

theorem plant_eq_self (h : ∀ a ∈ t.labels, f a = none) : t.plant f = t :=
  rewrite_eq_self fun _ hu => h _ (List.mem_map_of_mem hu)

theorem plant_congr (h : ∀ a ∈ t.labels, f a = g a) : t.plant f = t.plant g :=
  rewrite_congr fun _ hu => h _ (List.mem_map_of_mem hu)

/-- Two plantings are one, in which the second also looks into what the first one puts. -/
theorem plant_plant (f g : α → Option (Tree α)) (t : Tree α) :
    (t.plant f).plant g = t.plant fun a => ((f a).map (plant g)).or (g a) := by
  induction t with
  | node a op ts ih =>
    cases hf : f a with
    | some u =>
      have hboth : ((f a).map (plant g)).or (g a) = some (u.plant g) := by rw [hf]; rfl
      rw [plant_of_some (t := node a op ts) hf, plant_of_some (t := node a op ts) hboth]
    | none =>
      have hboth : ((f a).map (plant g)).or (g a) = g a := by rw [hf]; rfl
      rw [plant_node_of_none hf]
      cases hg : g a with
      | some w =>
        rw [plant_of_some (t := node a op _) hg, plant_of_some (t := node a op ts) (hboth.trans hg)]
      | none =>
        rw [plant_node_of_none hg, plant_node_of_none (hboth.trans hg), List.map_map]
        exact congrArg (node a op) (List.map_congr_left ih)

/-- Planting goes along with a change of the labels. -/
theorem map_plant {o : α → β} {g : β → Option (Tree β)}
    (h : ∀ a ∈ t.labels, g (o a) = (f a).map (map o)) : (t.plant f).map o = (t.map o).plant g := by
  induction t with
  | node a op ts ih =>
    have htop := h a (label_mem_labels _)
    have hts := fun t ht => ih t ht fun x hx => h x (mem_labels_node.mpr (.inr ⟨t, ht, hx⟩))
    cases hf : f a with
    | some u =>
      rw [hf] at htop
      rw [plant_of_some (t := node a op ts) hf, plant_of_some]
      rw [label_map, label_node, htop]
      rfl
    | none =>
      rw [hf] at htop
      rw [plant_node_of_none hf, map_node, map_node, plant_node_of_none htop, List.map_map,
        List.map_map]
      exact congrArg (node (o a) op) (List.map_congr_left hts)

/-- Rewriting by shapes is planting by labels if both agree on the way down, up to places that
    the rewriting leaves alone and in which there is nothing to plant. -/
theorem rewrite_eq_plant {P : Tree α → Prop} (htop : P t)
    (h : ∀ u, P u → σ u = f u.label ∧ (∀ w ∈ u.operands, P w) ∨
      σ u = some u ∧ ∀ a ∈ u.labels, f a = none) : t.rewrite σ = t.plant f := by
  induction t with
  | node a op ts ih =>
    rcases h _ htop with ⟨hσ, hts⟩ | ⟨hσ, hf⟩
    · cases hf : f a with
      | some u => rw [rewrite_of_some (hσ.trans hf), plant_of_some (t := node a op ts) hf]
      | none =>
        rw [rewrite_node_of_none (hσ.trans hf), plant_node_of_none hf,
          List.map_congr_left fun t ht => ih t ht (hts t ht)]
    · rw [rewrite_of_some hσ, plant_eq_self hf]

/-- Puts a tree into the place of the subtrees with a given label. -/
def plantAt [DecidableEq α] (a : α) (t u : Tree α) : Tree α :=
  t.plant fun x => if x = a then some u else none

variable [DecidableEq α] {a : α}

theorem plantAt_top (h : t.label = a) : t.plantAt a u = u :=
  plant_of_some (f := fun x => if x = a then some u else none) (if_pos h)

theorem plantAt_node {op : Op} {ts : List (Tree α)} {b : α} (h : a ≠ b) :
    (node a op ts).plantAt b u = node a op (ts.map fun t => t.plantAt b u) :=
  plant_node_of_none (f := fun x => if x = b then some u else none) (if_neg h)

theorem label_plantAt (a : α) (t u : Tree α) :
    (t.plantAt a u).label = if t.label = a then u.label else t.label := by
  split_ifs with h
  · rw [plantAt_top h]
  · cases t with
    | node x op ts =>
      have hx : x ≠ a := h
      rw [plantAt_node hx, label_node, label_node]

/-- A tree with another one planted in it has its top from one of the two. -/
theorem plantAt_eq_node {op : Op} {ts : List (Tree α)} {b : α}
    (h : t.plantAt a u = node b op ts) : t.label = a ∧ u = node b op ts ∨
      ∃ us, t = node b op us ∧ us.map (fun t => t.plantAt a u) = ts := by
  by_cases hl : t.label = a
  · rw [plantAt_top hl] at h
    exact .inl ⟨hl, h⟩
  · obtain ⟨x, op', us⟩ := t
    have hx : x ≠ a := hl
    rw [plantAt_node hx] at h
    cases h
    exact .inr ⟨us, rfl, rfl⟩

/-- What is planted before other things is one of them. -/
theorem plant_plantAt (a : α) (t u : Tree α) :
    (t.plantAt a u).plant f = t.plant fun x => if x = a then some (u.plant f) else f x := by
  rw [plantAt, plant_plant]
  refine plant_congr fun x _ => ?_
  split_ifs <;> rfl

theorem map_plantAt [DecidableEq β] {o : α → β} (h : ∀ x ∈ t.labels, o x = o a → x = a) :
    (t.plantAt a u).map o = (t.map o).plantAt (o a) (u.map o) := by
  refine map_plant fun x hx => ?_
  by_cases hxa : x = a
  · rw [if_pos hxa, if_pos (congrArg o hxa)]
    rfl
  · rw [if_neg hxa, if_neg fun he => hxa (h x hx he)]
    rfl

end Plant

mutual

/-- Drops the operands with a given label, on all levels. -/
def prune (gone : α → Bool) : Tree α → Tree α
  | node a op ts => node a op (pruneAll gone ts)

/-- Drops trees with a given label, and prunes the others. -/
def pruneAll (gone : α → Bool) : List (Tree α) → List (Tree α)
  | [] => []
  | t :: ts => if gone t.label then pruneAll gone ts else prune gone t :: pruneAll gone ts

end

section Prune

variable {gone : α → Bool} {t : Tree α}

theorem pruneAll_eq (gone : α → Bool) (ts : List (Tree α)) :
    pruneAll gone ts = (ts.filter fun t => !gone t.label).map (prune gone) := by
  induction ts with
  | nil => rfl
  | cons t ts ih =>
    rw [pruneAll, ih, List.filter_cons]
    cases gone t.label <;> rfl

theorem prune_node (gone : α → Bool) (a : α) (op : Op) (ts : List (Tree α)) :
    (node a op ts).prune gone =
      node a op ((ts.filter fun t => !gone t.label).map (prune gone)) := by
  rw [prune, pruneAll_eq]

@[simp] theorem label_prune (gone : α → Bool) (t : Tree α) : (t.prune gone).label = t.label := by
  cases t; rfl

theorem prune_congr {gone' : α → Bool} (h : ∀ a ∈ t.labels, gone a = gone' a) :
    t.prune gone = t.prune gone' := by
  induction t with
  | node a op ts ih =>
    have hts : ∀ t ∈ ts, ∀ x ∈ t.labels, gone x = gone' x := fun t ht x hx =>
      h x (mem_labels_node.mpr (.inr ⟨t, ht, hx⟩))
    rw [prune_node, prune_node, List.filter_congr fun t ht => by rw [hts t ht _ t.label_mem_labels],
      List.map_congr_left fun t ht => ih t (List.mem_of_mem_filter ht)
        (hts t (List.mem_of_mem_filter ht))]

theorem prune_eq_self (h : ∀ a ∈ t.labels, gone a = false) : t.prune gone = t := by
  induction t with
  | node a op ts ih =>
    have hts : ∀ t ∈ ts, ∀ x ∈ t.labels, gone x = false := fun t ht x hx =>
      h x (mem_labels_node.mpr (.inr ⟨t, ht, hx⟩))
    rw [prune_node, List.filter_eq_self.mpr fun t ht => by rw [hts t ht _ t.label_mem_labels]; rfl,
      List.map_congr_left fun t ht => ih t ht (hts t ht), List.map_id']

theorem prune_prune (gone gone' : α → Bool) (t : Tree α) :
    (t.prune gone).prune gone' = t.prune fun a => gone a || gone' a := by
  induction t with
  | node a op ts ih =>
    have hfilter : ts.filter (fun t => !(gone t.label || gone' t.label)) =
        ts.filter fun t => ((fun u => !gone' u.label) ∘ prune gone) t && !gone t.label := by
      refine List.filter_congr fun t _ => ?_
      rw [Function.comp_apply, label_prune, Bool.not_or, Bool.and_comm]
    rw [prune_node, prune_node, prune_node, List.filter_map, List.filter_filter, List.map_map,
      hfilter]
    exact congrArg (node a op) (List.map_congr_left fun t ht => ih t (List.mem_of_mem_filter ht))

theorem map_prune {o : α → β} {gone' : β → Bool} (h : ∀ a ∈ t.labels, gone' (o a) = gone a) :
    (t.prune gone).map o = (t.map o).prune gone' := by
  induction t with
  | node a op ts ih =>
    have hts : ∀ t ∈ ts, ∀ x ∈ t.labels, gone' (o x) = gone x := fun t ht x hx =>
      h x (mem_labels_node.mpr (.inr ⟨t, ht, hx⟩))
    rw [prune_node, map_node, map_node, prune_node, List.filter_map, List.map_map, List.map_map]
    congr 1
    have hfilter : ts.filter (fun t => !gone t.label) =
        ts.filter ((fun t => !gone' t.label) ∘ map o) := by
      refine List.filter_congr fun t ht => ?_
      rw [Function.comp_apply, label_map, hts t ht _ t.label_mem_labels]
    rw [← hfilter]
    exact List.map_congr_left fun t ht => ih t (List.mem_of_mem_filter ht)
      (hts t (List.mem_of_mem_filter ht))

end Prune

end Tree

end CilFold
