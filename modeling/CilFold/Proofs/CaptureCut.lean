/-
  A fold, read as one rewriting of a smaller tree. The recorded stores are left alone while the
  references are replaced, and go in the end; they may as well go first (`folded_eq`). What is
  left of the tree has no store to be passed over: every reference in it is replaced, and what
  the fold does to a node does not depend on where the node stands.

  Cutting trees out of a tree goes along with rewriting it if the rewriting neither looks into
  what is cut out nor changes what is to be cut out (`prune_rewrite`).
-/
import CilFold.Proofs.CaptureRefer

namespace CilFold

/-! ## Rewriting and pruning -/

namespace Tree

variable {α : Type} {σ τ : Tree α → Option (Tree α)} {gone : α → Bool} {t u : Tree α}

theorem mem_subtrees_trans {w : Tree α} (hw : w ∈ u.subtrees) (hu : u ∈ t.subtrees) :
    w ∈ t.subtrees := by
  induction t with
  | node a op ts ih =>
    rcases mem_subtrees_node.mp hu with rfl | ⟨t, ht, hu⟩
    · exact hw
    · exact mem_subtrees_node.mpr (.inr ⟨t, ht, ih t ht hu⟩)

theorem mem_subtrees_of_operand {w : Tree α} (hw : w ∈ u.operands) (hu : u ∈ t.subtrees) :
    w ∈ t.subtrees := by
  refine mem_subtrees_trans ?_ hu
  cases u with
  | node a op ts => exact mem_subtrees_node.mpr (.inr ⟨w, hw, mem_subtrees_self w⟩)

/-- What is in a rewritten tree was there before, over operands that are rewritten themselves, or
    came with what was put into the tree. -/
theorem cases_of_mem_rewrite (h : u ∈ (t.rewrite σ).subtrees) :
    (∃ x ∈ t.subtrees, σ x = none ∧ u = node x.label x.op (x.operands.map (rewrite σ))) ∨
      ∃ x ∈ t.subtrees, ∃ y, σ x = some y ∧ u ∈ y.subtrees := by
  induction t with
  | node a op ts ih =>
    cases hσ : σ (node a op ts) with
    | some y =>
      rw [rewrite_of_some hσ] at h
      exact .inr ⟨_, mem_subtrees_self _, y, hσ, h⟩
    | none =>
      rw [rewrite_node_of_none hσ] at h
      rcases mem_subtrees_node.mp h with rfl | ⟨_, hw, hu⟩
      · exact .inl ⟨_, mem_subtrees_self _, hσ, rfl⟩
      · obtain ⟨t, ht, rfl⟩ := List.mem_map.mp hw
        have hup : ∀ x ∈ t.subtrees, x ∈ (node a op ts).subtrees := fun x hx =>
          mem_subtrees_node.mpr (.inr ⟨t, ht, hx⟩)
        rcases ih t ht hu with ⟨x, hx, hu⟩ | ⟨x, hx, hu⟩
        · exact .inl ⟨x, hup x hx, hu⟩
        · exact .inr ⟨x, hup x hx, hu⟩

/-- What lies in no place that is replaced is rewritten where it stands. -/
theorem rewrite_mem_subtrees (hu : u ∈ t.subtrees)
    (h : ∀ x ∈ t.subtrees, u ∈ x.subtrees → u ≠ x → σ x = none) :
    u.rewrite σ ∈ (t.rewrite σ).subtrees := by
  induction t with
  | node a op ts ih =>
    by_cases htop : u = node a op ts
    · rw [htop]
      exact mem_subtrees_self _
    · obtain ⟨t, ht, hu'⟩ := (mem_subtrees_node.mp hu).resolve_left htop
      rw [rewrite_node_of_none (h _ (mem_subtrees_self _) hu htop)]
      refine mem_subtrees_node.mpr (.inr ⟨_, List.mem_map_of_mem ht, ih t ht hu' fun x hx => ?_⟩)
      exact h x (mem_subtrees_node.mpr (.inr ⟨t, ht, hx⟩))

/-- What lies in no tree that is cut out is pruned where it stands. -/
theorem prune_mem_subtrees (hu : u ∈ t.subtrees)
    (h : ∀ x ∈ t.subtrees, u ∈ x.subtrees → gone x.label = false) :
    u.prune gone ∈ (t.prune gone).subtrees := by
  induction t with
  | node a op ts ih =>
    rcases mem_subtrees_node.mp hu with rfl | ⟨t, ht, hu⟩
    · exact mem_subtrees_self _
    · have hup : ∀ x ∈ t.subtrees, x ∈ (node a op ts).subtrees := fun x hx =>
        mem_subtrees_node.mpr (.inr ⟨t, ht, hx⟩)
      have hstays : gone t.label = false := h t (hup t t.mem_subtrees_self) hu
      rw [prune_node]
      refine mem_subtrees_node.mpr (.inr ⟨t.prune gone, List.mem_map_of_mem ?_,
        ih t ht hu fun x hx => h x (hup x hx)⟩)
      exact List.mem_filter.mpr ⟨ht, by rw [hstays]; rfl⟩

theorem exists_of_mem_prune (h : u ∈ (t.prune gone).subtrees) :
    ∃ x ∈ t.subtrees, u = x.prune gone := by
  induction t with
  | node a op ts ih =>
    rw [prune_node] at h
    rcases mem_subtrees_node.mp h with rfl | ⟨_, hw, hu⟩
    · exact ⟨_, mem_subtrees_self _, (prune_node gone a op ts).symm⟩
    · obtain ⟨t, ht, rfl⟩ := List.mem_map.mp hw
      have ht := List.mem_of_mem_filter ht
      obtain ⟨x, hx, hux⟩ := ih t ht hu
      exact ⟨x, mem_subtrees_node.mpr (.inr ⟨t, ht, hx⟩), hux⟩

/-- No label of a pruned tree is cut out, but perhaps that of its top. -/
theorem gone_of_mem_prune {a : α} (h : a ∈ (t.prune gone).labels) :
    a = t.label ∨ gone a = false := by
  induction t with
  | node b op ts ih =>
    rw [prune_node] at h
    rcases mem_labels_node.mp h with rfl | ⟨_, hw, ha⟩
    · exact .inl rfl
    · obtain ⟨t, ht, rfl⟩ := List.mem_map.mp hw
      obtain ⟨ht, hstays⟩ := List.mem_filter.mp ht
      rcases ih t ht ha with rfl | ha
      · exact .inr (Bool.not_eq_true' _ ▸ hstays)
      · exact .inr ha

/-- Pruning a rewritten tree is rewriting the pruned one. -/
theorem prune_rewrite (htop : gone t.label = false)
    (hσ : ∀ u ∈ t.subtrees, gone u.label = false → τ (u.prune gone) = (σ u).map (prune gone))
    (hlabel : ∀ u ∈ t.subtrees, gone (u.rewrite σ).label = gone u.label) :
    (t.rewrite σ).prune gone = (t.prune gone).rewrite τ := by
  induction t with
  | node a op ts ih =>
    have hnode := hσ _ (mem_subtrees_self _) htop
    cases h : σ (node a op ts) with
    | some y =>
      rw [h] at hnode
      rw [rewrite_of_some h, rewrite_of_some hnode]
    | none =>
      rw [h, prune_node] at hnode
      have hup : ∀ t ∈ ts, ∀ x ∈ t.subtrees, x ∈ (node a op ts).subtrees := fun t ht x hx =>
        mem_subtrees_node.mpr (.inr ⟨t, ht, hx⟩)
      have hfilter : ts.filter ((fun u => !gone u.label) ∘ rewrite σ) =
          ts.filter fun u => !gone u.label := by
        refine List.filter_congr fun t ht => ?_
        rw [Function.comp_apply, hlabel t (hup t ht t t.mem_subtrees_self)]
      rw [rewrite_node_of_none h, prune_node, prune_node, rewrite_node_of_none hnode,
        List.filter_map, hfilter, List.map_map, List.map_map]
      refine congrArg (node a op) (List.map_congr_left fun t ht => ?_)
      obtain ⟨ht, hstays⟩ := List.mem_filter.mp ht
      exact ih t ht (Bool.not_eq_true' _ ▸ hstays) (fun u hu => hσ u (hup t ht u hu))
        fun u hu => hlabel u (hup t ht u hu)

/-- What is planted in a tree stays when other things are cut out of it. -/
theorem prune_plantAt [DecidableEq α] {a : α} (htop : gone t.label = false) (ha : gone a = false)
    (hl : gone u.label = false) (hu : u.prune gone = u) :
    (t.plantAt a u).prune gone = (t.prune gone).plantAt a u := by
  refine prune_rewrite htop (fun x _ _ => ?_) fun x _ => ?_
  · show (if (x.prune gone).label = a then some u else none) =
      Option.map _ (if x.label = a then some u else none)
    rw [label_prune]
    split_ifs
    · rw [Option.map_some, hu]
    · rfl
  · have hlabel := label_plantAt a x u
    show gone (x.plantAt a u).label = gone x.label
    rw [hlabel]
    split_ifs with hx
    · rw [hl, hx, ha]
    · rfl

/-- The tree has no subtree with the label of a given one but that. -/
def Only (t x : Tree α) : Prop := ∀ u ∈ t.subtrees, u.label = x.label → u = x

theorem Only.prune {x : Tree α} (h : t.Only x) (hx : x ∈ t.subtrees → x.prune gone = x) :
    (t.prune gone).Only x := by
  intro u hu hl
  obtain ⟨y, hy, rfl⟩ := exists_of_mem_prune hu
  rw [label_prune] at hl
  obtain rfl := h y hy hl
  exact hx hy

theorem Only.rewrite {x : Tree α} (h : t.Only x) (hx : ∀ u ∈ x.subtrees, σ u = none)
    (hσ : ∀ u ∈ t.subtrees, ∀ y, σ u = some y → x.label ∉ y.labels) : (t.rewrite σ).Only x := by
  intro u hu hl
  rcases cases_of_mem_rewrite hu with ⟨y, hy, hnone, rfl⟩ | ⟨y, hy, z, hz, huz⟩
  · obtain rfl := h y hy hl
    have hself := rewrite_eq_self hx
    obtain ⟨a, op, ts⟩ := y
    rwa [rewrite_node_of_none hnone] at hself
  · exact absurd (hl ▸ List.mem_map_of_mem huz) (hσ y hy z hz)

end Tree

/-! ## What is cut out -/

/-- What is cut out of a tree are instructions of blocks, none of which a fold replaces. -/
structure Tree.Cuttable {α : Type} (gone : α → Bool) (t : Tree α) : Prop where
  stays : ∀ u ∈ t.subtrees, u.op.folds = true → gone u.label = false
  inBlock : ∀ u ∈ t.subtrees, u.op.isBlock = false → ∀ x ∈ u.operands, gone x.label = false

namespace Tree.Cuttable

variable {α : Type} {gone : α → Bool} {t u : Tree α}

theorem subtree (h : t.Cuttable gone) (hu : u ∈ t.subtrees) : u.Cuttable gone :=
  ⟨fun x hx => h.stays x (mem_subtrees_trans hx hu),
    fun x hx => h.inBlock x (mem_subtrees_trans hx hu)⟩

/-- Below a node that is no block, nothing is cut out at once. -/
theorem prune_node {a : α} {op : Op} {ts : List (Tree α)} (h : (node a op ts).Cuttable gone)
    (hop : op.isBlock = false) : (node a op ts).prune gone = node a op (ts.map (prune gone)) := by
  have hstay := h.inBlock _ (mem_subtrees_self _) hop
  rw [Tree.prune_node, List.filter_eq_self.mpr fun x hx => by rw [hstay x hx]; rfl]

theorem fieldOfLocal?_prune (h : t.Cuttable gone) :
    (t.prune gone).fieldOfLocal? = t.fieldOfLocal? := by
  refine Option.ext fun ⟨field, v⟩ => ?_
  rw [fieldOfLocal?_eq_some, fieldOfLocal?_eq_some]
  obtain ⟨a, op, ts⟩ := t
  constructor
  · rintro ⟨b, l, he⟩
    have hop : op = .ldflda field := congrArg Tree.op he
    subst hop
    rw [h.prune_node rfl] at he
    injection he with _ _ hts
    obtain ⟨⟨l', op', us⟩, rfl, hl⟩ := List.map_eq_singleton_iff.mp hts
    have hop' : op' = .ldloc v := congrArg Tree.op hl
    subst hop'
    have hleaf := h.subtree (mem_subtrees_of_operand (List.mem_singleton_self _)
      (mem_subtrees_self _))
    rw [hleaf.prune_node rfl] at hl
    injection hl with _ _ hus
    rw [List.map_eq_nil_iff.mp hus]
    exact ⟨a, l', rfl⟩
  · rintro ⟨b, l, he⟩
    injection he with _ hop hts
    subst hop hts
    exact ⟨a, l, by rw [h.prune_node rfl]; rfl⟩

end Tree.Cuttable

namespace Capture

variable {c : Capture} {gone : Option NodeId → Bool} {t u : Tree (Option NodeId)}
  {recorded : List Forwarding}

theorem isWrapper_prune (h : t.Cuttable gone) : c.isWrapper (t.prune gone) = c.isWrapper t := by
  rw [Bool.eq_iff_iff, isWrapper_iff, isWrapper_iff]
  obtain ⟨a, op, ts⟩ := t
  constructor
  · rintro ⟨w, type, x, field, he, hx, htype⟩
    have hop : op = .ldobj type := congrArg Tree.op he
    subst hop
    rw [h.prune_node rfl] at he
    injection he with _ _ hts
    obtain ⟨y, rfl, rfl⟩ := List.map_eq_singleton_iff.mp hts
    have hy := h.subtree (Tree.mem_subtrees_of_operand (List.mem_singleton_self y)
      (Tree.mem_subtrees_self _))
    rw [hy.fieldOfLocal?_prune] at hx
    exact ⟨a, type, y, field, rfl, hx, htype⟩
  · rintro ⟨w, type, y, field, he, hx, htype⟩
    injection he with _ hop hts
    subst hop hts
    have hy := h.subtree (Tree.mem_subtrees_of_operand (List.mem_singleton_self y)
      (Tree.mem_subtrees_self _))
    exact ⟨a, type, y.prune gone, field, h.prune_node rfl,
      hy.fieldOfLocal?_prune.trans hx, htype⟩

/-- A wrapper reads. -/
theorem folds_of_isWrapper {α : Type} {t : Tree α} (h : c.isWrapper t = true) :
    t.op.folds = true := by
  obtain ⟨_, _, _, _, rfl, _⟩ := isWrapper_iff.mp h
  rfl

theorem collapse_eq_some {y : Tree (Option NodeId)} : c.collapse t = some y ↔
    c.isWrapper t = true ∧ y = .node none (.ldloc c.holder) [] := by
  unfold collapse
  split_ifs with h
  · rw [Option.some.injEq, eq_comm, and_iff_right h]
  · exact iff_of_false (fun he => nomatch he) fun he => h he.1

/-- Collapsing changes no label that is cut out. -/
theorem gone_collapse (h : t.Cuttable gone) (hnew : gone none = false) (hu : u ∈ t.subtrees) :
    gone (u.rewrite c.collapse).label = gone u.label := by
  cases hσ : c.collapse u with
  | some y =>
    obtain ⟨hwrapper, rfl⟩ := collapse_eq_some.mp hσ
    rw [Tree.rewrite_of_some hσ, h.stays u hu (folds_of_isWrapper hwrapper)]
    exact hnew
  | none =>
    obtain ⟨a, op, ts⟩ := u
    rw [Tree.rewrite_node_of_none hσ]
    rfl

theorem prune_collapse (h : t.Cuttable gone) (hnew : gone none = false)
    (htop : gone t.label = false) :
    (t.rewrite c.collapse).prune gone = (t.prune gone).rewrite c.collapse := by
  refine Tree.prune_rewrite htop (fun u hu _ => ?_) fun u hu => gone_collapse h hnew hu
  unfold collapse
  rw [isWrapper_prune (h.subtree hu)]
  split_ifs <;> rfl

theorem cuttable_collapse (h : t.Cuttable gone) (hnew : gone none = false) :
    (t.rewrite c.collapse).Cuttable gone := by
  constructor
  · intro u hu hfolds
    rcases Tree.cases_of_mem_rewrite hu with ⟨x, hx, _, rfl⟩ | ⟨x, _, y, hy, hu⟩
    · exact h.stays x hx hfolds
    · obtain ⟨_, rfl⟩ := collapse_eq_some.mp hy
      rcases Tree.mem_subtrees_node.mp hu with rfl | ⟨_, hnil, _⟩
      · exact hnew
      · cases hnil
  · intro u hu hop z hz
    rcases Tree.cases_of_mem_rewrite hu with ⟨x, hx, _, rfl⟩ | ⟨x, _, y, hy, hu⟩
    · obtain ⟨w, hw, rfl⟩ := List.mem_map.mp hz
      rw [gone_collapse h hnew (Tree.mem_subtrees_of_operand hw hx)]
      exact h.inBlock x hx hop w hw
    · obtain ⟨_, rfl⟩ := collapse_eq_some.mp hy
      rcases Tree.mem_subtrees_node.mp hu with rfl | ⟨_, hnil, _⟩
      · cases hz
      · cases hnil

/-! ## References -/

/-- The recorded store whose field a tree refers to. -/
def reference? (c : Capture) (recorded : List Forwarding) (t : Tree (Option NodeId)) :
    Option Forwarding := do
  let (field, v) ← t.fieldOfLocal?
  if v == c.holder then recorded.find? (·.field.same field) else none

/-- A reference to a recorded field becomes what stands for the field, wherever it is. -/
def stand (c : Capture) (recorded : List Forwarding) (t : Tree (Option NodeId)) :
    Option (Tree (Option NodeId)) :=
  (c.reference? recorded t).map c.standFor

theorem reference?_eq_some {g : Forwarding} : c.reference? recorded t = some g ↔
    ∃ field, t.fieldOfLocal? = some (field, c.holder) ∧
      recorded.find? (·.field.same field) = some g := by
  simp only [reference?, Option.bind_eq_bind, Option.bind_eq_some_iff]
  constructor
  · rintro ⟨⟨field, v⟩, ht, h⟩
    split_ifs at h with hv
    exact ⟨field, beq_iff_eq.mp hv ▸ ht, h⟩
  · rintro ⟨field, ht, h⟩
    exact ⟨_, ht, by rw [if_pos (beq_self_eq_true _), h]⟩

theorem stand_eq_some {y : Tree (Option NodeId)} : c.stand recorded t = some y ↔
    ∃ g, c.reference? recorded t = some g ∧ c.standFor g = y := by
  rw [stand, Option.map_eq_some_iff]

/-- Outside the recorded stores, references are what is replaced. -/
theorem refer_of_not_store (h : recorded.any (some ·.store == t.label) = false) :
    c.refer recorded t = c.stand recorded t := by
  rw [refer, if_neg (Bool.eq_false_iff.mp h), stand, reference?]
  cases t.fieldOfLocal? with
  | none => rfl
  | some pair =>
    obtain ⟨field, v⟩ := pair
    show (if v == c.holder then _ else none) = Option.map _ (if v == c.holder then _ else none)
    split_ifs <;> rfl

theorem labels_standFor {g : Forwarding} {a : Option NodeId} (h : a ∈ (c.standFor g).labels) :
    a = none := by
  unfold standFor at h
  split at h
  · simpa [Tree.mem_labels_node] using h
  · exact Tree.labels_anew h

/-- What stands for a field is an address or an `unbox`. -/
theorem op_standFor {g : Forwarding} (h : c.canStand g.value = true) :
    (∃ v, (c.standFor g).op = .ldloca v) ∨ ∃ type, (c.standFor g).op = .unbox type := by
  unfold canStand at h
  split at h
  · next a v ts heq =>
    rw [standFor, heq]
    exact .inl ⟨v, rfl⟩
  · next a type ts heq =>
    rw [standFor, heq]
    refine .inr ⟨type, ?_⟩
    have hcollapse : c.collapse (.node (some a) (.unbox type) (ts.map (Tree.map some))) = none :=
      rfl
    show (((Tree.node a (.unbox type) ts).map some).rewrite c.collapse).anew.op = _
    rw [Tree.map_node, Tree.rewrite_node_of_none hcollapse, Tree.anew_node]
    rfl
  · cases h

theorem prune_standFor (hnew : gone none = false) (g : Forwarding) :
    (c.standFor g).prune gone = c.standFor g :=
  Tree.prune_eq_self fun _ ha => labels_standFor ha ▸ hnew

section Stand

/-! A rewriting that replaces references, and may leave alone what is cut out. -/

variable {σ : Tree (Option NodeId) → Option (Tree (Option NodeId))} (h : t.Cuttable gone)
  (hnew : gone none = false)
  (hσ : ∀ u ∈ t.subtrees, σ u = c.stand recorded u ∨ gone u.label = true ∧ σ u = some u)
include h hnew hσ

theorem gone_stand (hu : u ∈ t.subtrees) : gone (u.rewrite σ).label = gone u.label := by
  rcases hσ u hu with hσ | ⟨_, hσ⟩
  · cases hs : c.stand recorded u with
    | none =>
      obtain ⟨a, op, ts⟩ := u
      rw [Tree.rewrite_node_of_none (hσ.trans hs)]
      rfl
    | some y =>
      obtain ⟨g, hg, rfl⟩ := stand_eq_some.mp hs
      obtain ⟨field, hlocal, _⟩ := reference?_eq_some.mp hg
      obtain ⟨a, l, rfl⟩ := Tree.fieldOfLocal?_eq_some.mp hlocal
      rw [Tree.rewrite_of_some (hσ.trans hs), labels_standFor (c.standFor g).label_mem_labels,
        hnew, h.stays _ hu rfl]
  · rw [Tree.rewrite_of_some hσ]

theorem prune_stand (htop : gone t.label = false) :
    (t.rewrite σ).prune gone = (t.prune gone).rewrite (c.stand recorded) := by
  refine Tree.prune_rewrite htop (fun u hu hstays => ?_) fun u hu => gone_stand h hnew hσ hu
  have hσ := (hσ u hu).resolve_right fun he => by
    rw [he.1] at hstays
    cases hstays
  rw [hσ, stand, stand, reference?, reference?, (h.subtree hu).fieldOfLocal?_prune,
    Option.map_map]
  exact congrArg (Option.map · _) (funext fun g => (prune_standFor hnew g).symm)

end Stand

/-! ## The fold -/

/-- Whether a label is that of a recorded store. -/
def isRecorded (c : Capture) (t : Tree NodeId) (a : Option NodeId) : Bool :=
  (c.recorded t).any (some ·.store == a)

/-- The tree without the recorded stores, its wrappers collapsed. -/
def collapsed (c : Capture) (t : Tree NodeId) : Tree (Option NodeId) :=
  ((t.map some).prune (c.isRecorded t)).rewrite c.collapse

/-- The recorded stores that the references in a tree are to, once for each reference. -/
def references (c : Capture) (t : Tree NodeId) : List Forwarding :=
  (c.collapsed t).subtrees.filterMap (c.reference? (c.recorded t))

theorem isRecorded_none (c : Capture) (t : Tree NodeId) : c.isRecorded t none = false :=
  List.any_eq_false.mpr fun _ _ => by simp

/-- The tree with all that refers to the capture object replaced, but not the construction. -/
def replaced (c : Capture) (t : Tree NodeId) : Tree (Option NodeId) :=
  (c.collapsed t).rewrite (c.stand (c.recorded t))

/-- The store of the receiver that a fold puts into the place of the construction. -/
abbrev receiverStore (c : Capture) (this : VarId) : Tree (Option NodeId) :=
  .node none (.stloc c.holder) [.node none (.ldloc this) []]

/-- What the trees of routines have: the recorded stores and the construction are instructions, all
    different from one another and from the top. -/
structure Foldable (c : Capture) (construction : Tree NodeId) (t : Tree NodeId) : Prop where
  cuttable : (t.map some).Cuttable (c.isRecorded t)
  top : c.isRecorded t (some t.label) = false
  inst : c.isRecorded t (some construction.label) = false
  inBlock : (t.map some).Cuttable (· == some construction.label)
  apart : t.label ≠ construction.label
  only : (t.map some).Only (construction.map some)

section Fold

open CapturedReceiver

variable {inst new : NodeId} {site : CallSite} {this : VarId} {t : Tree NodeId}
  (h : c.Foldable (constructionTree c inst new site this) t)
include h

/-- A fold replaces all references in the tree without the recorded stores. -/
theorem folded_eq :
    c.folded inst this t = (c.replaced t).plantAt (some inst) (c.receiverStore this) := by
  obtain ⟨h, htop, hinst, _⟩ := h
  have hnew := c.isRecorded_none t
  have htop₀ : c.isRecorded t (t.map some).label = false := by rw [Tree.label_map, htop]
  have htop₁ : c.isRecorded t ((t.map some).rewrite c.collapse).label = false := by
    rw [gone_collapse h hnew (Tree.mem_subtrees_self _), htop₀]
  have hrefer : ∀ u, c.refer (c.recorded t) u = c.stand (c.recorded t) u ∨
      c.isRecorded t u.label = true ∧ c.refer (c.recorded t) u = some u := by
    intro u
    cases hu : c.isRecorded t u.label with
    | false => exact .inl (refer_of_not_store hu)
    | true => exact .inr ⟨rfl, if_pos hu⟩
  have hcut := cuttable_collapse (c := c) h hnew
  rw [replaced, collapsed, ← prune_collapse h hnew htop₀,
    ← prune_stand hcut hnew (fun u _ => hrefer u) htop₁]
  refine Tree.prune_plantAt ?_ hinst hnew (Tree.prune_eq_self fun a ha => ?_)
  · exact (gone_stand hcut hnew (fun u _ => hrefer u) (Tree.mem_subtrees_self _)).trans htop₁
  · have ha : a = none := by simpa [Tree.mem_labels_node] using ha
    exact ha ▸ hnew

omit h in
/-- Nothing in the construction is replaced as long as it stands. -/
theorem op_of_mem_construction {u : Tree (Option NodeId)}
    (hu : u ∈ ((constructionTree c inst new site this).map some).subtrees) :
    u.op = .stloc c.holder ∨ u.op = .call site ∨ u.op = .ldloc this := by
  rw [Tree.subtrees_map] at hu
  obtain ⟨y, hy, rfl⟩ := List.mem_map.mp hu
  rw [Tree.op_map]
  have hy : y = constructionTree c inst new site this ∨
      y = .node new (.call site) [.node c.receiver (.ldloc this) []] ∨
        y = .node c.receiver (.ldloc this) [] := by
    simpa [Tree.mem_subtrees_node] using hy
  rcases hy with rfl | rfl | rfl
  · exact .inl rfl
  · exact .inr (.inl rfl)
  · exact .inr (.inr rfl)

theorem only_collapsed :
    (c.collapsed t).Only ((constructionTree c inst new site this).map some) := by
  refine (h.only.prune fun hin => ?_).rewrite (fun u hu => ?_) fun x _ y hy => ?_
  · have hcut := h.cuttable.subtree hin
    simp only [constructionTree, Tree.map_node, List.map_cons, List.map_nil] at hcut ⊢
    have hcut' := hcut.subtree (Tree.mem_subtrees_of_operand (List.mem_singleton_self _)
      (Tree.mem_subtrees_self _))
    rw [hcut.prune_node rfl, List.map_singleton, hcut'.prune_node rfl]
    rfl
  · rw [Option.eq_none_iff_forall_ne_some]
    intro y hy
    obtain ⟨hwrapper, _⟩ := collapse_eq_some.mp hy
    obtain ⟨_, _, _, _, rfl, _⟩ := isWrapper_iff.mp hwrapper
    rcases op_of_mem_construction hu with hop | hop | hop <;> cases hop
  · obtain ⟨_, rfl⟩ := collapse_eq_some.mp hy
    rw [Tree.label_map]
    simp [Tree.mem_labels_node]

theorem only_replaced :
    (c.replaced t).Only ((constructionTree c inst new site this).map some) := by
  refine (only_collapsed h).rewrite (fun u hu => ?_) fun x _ y hy => ?_
  · rw [Option.eq_none_iff_forall_ne_some]
    intro y hy
    obtain ⟨g, hg, _⟩ := stand_eq_some.mp hy
    obtain ⟨_, hlocal, _⟩ := reference?_eq_some.mp hg
    obtain ⟨_, _, rfl⟩ := Tree.fieldOfLocal?_eq_some.mp hlocal
    rcases op_of_mem_construction hu with hop | hop | hop <;> cases hop
  · obtain ⟨g, _, rfl⟩ := stand_eq_some.mp hy
    rw [Tree.label_map]
    exact fun hmem => nomatch labels_standFor hmem

end Fold

end Capture

/-! ## Routines -/

namespace Routine

open CapturedReceiver

variable {r : Routine} {c : Capture} {inst new : NodeId} {site : CallSite} {this : VarId}

/-- A node with the handle of a recorded store is a store, and an instruction of a block. -/
theorem spec_of_isRecorded (V : r.Valid) {u : Tree NodeId} (hu : r.Holds u)
    (h : c.isRecorded (r.tree r.body) (some u.label) = true) :
    (∃ type, u.op = .stobj type) ∧ ∃ owner, r.parent? u.label = some owner ∧
      r.isBlock owner = true := by
  obtain ⟨g, hg, hl⟩ := List.any_eq_true.mp h
  obtain hl : g.store = u.label := Option.some.inj (beq_iff_eq.mp hl)
  obtain ⟨type, y, owner, hhold, _, hp, hb, _⟩ := recorded_spec V hg
  obtain rfl := hhold.unique hu hl
  exact ⟨⟨type, rfl⟩, owner, hp, hb⟩

/-- Instructions of blocks can be cut out of the tree if none of them folds. -/
theorem Valid.cuttable {gone : Option NodeId → Bool} (V : r.Valid)
    (h : ∀ u, r.Holds u → gone (some u.label) = true → u.op.folds = false ∧
      ∃ owner, r.parent? u.label = some owner ∧ r.isBlock owner = true) :
    ((r.tree r.body).map some).Cuttable gone := by
  have F := V.forest
  have hbody := F.holds_tree (isAlive_of_isConnected F.isConnected_body)
  refine ⟨fun u hu hfolds => ?_, fun u hu hop z hz => ?_⟩
  · rw [Tree.subtrees_map] at hu
    obtain ⟨y, hy, rfl⟩ := List.mem_map.mp hu
    rw [Tree.label_map, Bool.eq_false_iff]
    intro hgone
    rw [Tree.op_map, (h y (hbody.subtree hy) hgone).1] at hfolds
    cases hfolds
  · rw [Tree.subtrees_map] at hu
    obtain ⟨y, hy, rfl⟩ := List.mem_map.mp hu
    rw [Tree.operands_map] at hz
    obtain ⟨k, hk, rfl⟩ := List.mem_map.mp hz
    have hhold := hbody.subtree hy
    rw [Tree.label_map, Bool.eq_false_iff]
    intro hgone
    obtain ⟨_, owner, hp, hb⟩ := h k (hhold.operand hk) hgone
    have hparent := F.parent?_of_mem (hhold.children ▸ List.mem_map_of_mem hk)
    obtain rfl := Option.some.inj (hp.symm.trans hparent)
    rw [isBlock, hhold.op?, Option.any_some] at hb
    rw [Tree.op_map, hb] at hop
    cases hop

/-- The tree of a valid routine is as a fold needs it. -/
theorem Valid.foldable (V : r.Valid) {block : NodeId} {index : Nat}
    (hi : (r.instructions block)[index]? = some inst)
    (ht : r.Holds (constructionTree c inst new site this)) :
    c.Foldable (constructionTree c inst new site this) (r.tree r.body) := by
  have F := V.forest
  have hbody := F.holds_tree (isAlive_of_isConnected F.isConnected_body)
  obtain ⟨hb, hi'⟩ := getElem?_instructions hi
  have hp : r.parent? inst = some block := F.parent?_of_mem (List.mem_of_getElem? hi')
  refine ⟨V.cuttable fun u hu h => ?_, ?_, ?_, V.cuttable fun u hu h => ?_, fun he => ?_,
    fun u hu hl => ?_⟩
  · obtain ⟨⟨type, hop⟩, howner⟩ := spec_of_isRecorded V hu h
    exact ⟨hop ▸ rfl, howner⟩
  · rw [Bool.eq_false_iff]
    intro h
    obtain ⟨_, owner, hp, _⟩ := spec_of_isRecorded V hbody h
    rw [label_tree, F.parent?_body] at hp
    cases hp
  · rw [Bool.eq_false_iff]
    intro h
    obtain ⟨⟨type, hop⟩, _⟩ := spec_of_isRecorded V ht h
    cases hop
  · obtain rfl := hu.unique ht (Option.some.inj (beq_iff_eq.mp h))
    exact ⟨rfl, block, hp, hb⟩
  · have he : r.body = inst := (label_tree r r.body).symm.trans he
    rw [← he, F.parent?_body] at hp
    cases hp
  · rw [Tree.subtrees_map] at hu
    obtain ⟨y, hy, rfl⟩ := List.mem_map.mp hu
    rw [Tree.label_map, Tree.label_map, Option.some.injEq] at hl
    rw [(hbody.subtree hy).unique ht hl]

end Routine

end CilFold
