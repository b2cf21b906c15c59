/-
  The calls of a routine over a fold. Each reference to a recorded field gets its own copy of the
  value, and the value goes with its store; so a call in a value that was stored is there after
  the fold as often as the field is referred to, and all other calls but that of the constructor
  are there as often as before (`fold_balances_calls`).
-/
import Mathlib.Algebra.GroupWithZero.Nat
import CilFold.Proofs.CaptureReads

namespace CilFold

open Routine CapturedReceiver

/-- Whether the operation calls the same method in the same way as a call site. -/
def Op.calls (site : CallSite) : Op → Bool
  | call other => other.alike site
  | _ => false

/-! ## Lists -/

section Lists

variable {α β : Type} {keep : α → Bool} {l : List α}

theorem sum_map_filter {f g : α → Nat} (h : ∀ a ∈ l, f a = if keep a then g a else 0) :
    ((l.filter keep).map g).sum = (l.map f).sum := by
  induction l with
  | nil => rfl
  | cons a l ih =>
    have hrest := ih fun b hb => h b (List.mem_cons_of_mem _ hb)
    have hfirst := h a List.mem_cons_self
    rw [List.map_cons, List.sum_cons, hfirst, ← hrest, List.filter_cons]
    split_ifs
    · rw [List.map_cons, List.sum_cons]
    · rw [Nat.zero_add]

theorem flatMap_filter_eq {f g : α → List β} (h : ∀ a ∈ l, f a = if keep a then g a else []) :
    (l.filter keep).flatMap g = l.flatMap f := by
  induction l with
  | nil => rfl
  | cons a l ih =>
    have hrest := ih fun b hb => h b (List.mem_cons_of_mem _ hb)
    have hfirst := h a List.mem_cons_self
    rw [List.flatMap_cons, hfirst, ← hrest, List.filter_cons]
    split_ifs
    · rw [List.flatMap_cons]
    · rw [List.nil_append]

end Lists

/-! ## Counting in trees -/

namespace Tree

variable {α β : Type} {p : Op → Bool} {σ : Tree α → Option (Tree α)} {gone : α → Bool}
  {t : Tree α}

/-- The number of nodes in a tree with an operation of some kind. -/
def count (p : Op → Bool) (t : Tree α) : Nat := t.subtrees.countP fun u => p u.op

theorem count_node (p : Op → Bool) (a : α) (op : Op) (ts : List (Tree α)) :
    (node a op ts).count p = (if p op then 1 else 0) + (ts.map (count p)).sum := by
  rw [count, subtrees_node, List.countP_cons, List.countP_flatMap, Nat.add_comm]
  rfl

theorem count_map (f : α → β) (t : Tree α) : (t.map f).count p = t.count p := by
  rw [count, subtrees_map, List.countP_map, count]
  exact List.countP_congr fun u _ => by rw [Function.comp_apply, op_map]

/-- The balance of several trees is the sum of theirs. -/
theorem sum_count_rewrite {ts : List (Tree α)} (h : ∀ t ∈ ts, (t.rewrite σ).count p =
      t.count p + ((t.subtrees.filterMap σ).map (count p)).sum) :
    (ts.map fun t => (t.rewrite σ).count p).sum =
      (ts.map (count p)).sum + (((ts.flatMap subtrees).filterMap σ).map (count p)).sum := by
  induction ts with
  | nil => rfl
  | cons t ts ih =>
    have hfirst := h t List.mem_cons_self
    have hrest := ih fun u hu => h u (List.mem_cons_of_mem _ hu)
    rw [List.flatMap_cons, List.filterMap_append, List.map_append, List.sum_append, List.map_cons,
      List.map_cons, List.sum_cons, List.sum_cons]
    omega

/-- The balance of a rewriting: if nothing counts in the places that are replaced, and no place
    lies in another, then what is put there is added. -/
theorem count_rewrite (h : ∀ x ∈ t.subtrees, ∀ y, σ x = some y →
      x.count p = 0 ∧ ∀ z ∈ x.operands, ∀ u ∈ z.subtrees, σ u = none) :
    (t.rewrite σ).count p = t.count p + ((t.subtrees.filterMap σ).map (count p)).sum := by
  induction t with
  | node a op ts ih =>
    cases hσ : σ (node a op ts) with
    | some y =>
      obtain ⟨hzero, hbelow⟩ := h _ (mem_subtrees_self _) y hσ
      have hnone : (ts.flatMap subtrees).filterMap σ = [] := by
        refine List.filterMap_eq_nil_iff.mpr fun u hu => ?_
        obtain ⟨z, hz, hu⟩ := List.mem_flatMap.mp hu
        exact hbelow z hz u hu
      rw [rewrite_of_some hσ, hzero, subtrees_node, List.filterMap_cons_some hσ, hnone]
      simp
    | none =>
      have hts : ∀ t ∈ ts, (t.rewrite σ).count p =
          t.count p + ((t.subtrees.filterMap σ).map (count p)).sum := fun t ht =>
        ih t ht fun x hx => h x (mem_subtrees_node.mpr (.inr ⟨t, ht, hx⟩))
      rw [rewrite_node_of_none hσ, count_node, count_node, subtrees_node,
        List.filterMap_cons_none hσ, List.map_map, Nat.add_assoc]
      exact congrArg _ (sum_count_rewrite hts)

/-- Planting what does not count into a place is, for the count, cutting the place out. -/
theorem count_plantAt [DecidableEq α] {a : α} {w : Tree α} (hw : w.count p = 0) (ht : t.label ≠ a)
    (hgone : ∀ b, gone b = true ↔ b = a) : (t.plantAt a w).count p = (t.prune gone).count p := by
  induction t with
  | node b op ts ih =>
    rw [Tree.label_node] at ht
    rw [plantAt_node ht, prune_node, count_node, count_node, List.map_map, List.map_map]
    refine congrArg _ (sum_map_filter fun t hmem => ?_).symm
    rw [Function.comp_apply]
    by_cases htop : t.label = a
    · rw [plantAt_top htop, hw, (hgone _).mpr htop]
      rfl
    · rw [ih t hmem htop, Bool.eq_false_iff.mpr fun h => htop ((hgone _).mp h)]
      rfl

@[simp] theorem op_prune (gone : α → Bool) (t : Tree α) : (t.prune gone).op = t.op := by
  cases t; rfl

/-- Cutting trees out loses nothing that is looked for if there is nothing of it in them. -/
theorem filterMap_prune {f : Tree α → Option β}
    (hf : ∀ x ∈ t.subtrees, f (x.prune gone) = f x)
    (hgone : ∀ x ∈ t.subtrees, gone x.label = true → ∀ u ∈ x.subtrees, f u = none) :
    (t.prune gone).subtrees.filterMap f = t.subtrees.filterMap f := by
  induction t with
  | node a op ts ih =>
    have hup : ∀ t ∈ ts, ∀ x ∈ t.subtrees, x ∈ (node a op ts).subtrees := fun t ht x hx =>
      mem_subtrees_node.mpr (.inr ⟨t, ht, hx⟩)
    have hts : (((ts.filter fun t => !gone t.label).map (prune gone)).flatMap
        subtrees).filterMap f = (ts.flatMap subtrees).filterMap f := by
      rw [List.filterMap_flatMap, List.filterMap_flatMap, List.flatMap_map]
      refine flatMap_filter_eq fun t ht => ?_
      cases hl : gone t.label with
      | true =>
        exact List.filterMap_eq_nil_iff.mpr fun u hu =>
          hgone t (hup t ht t t.mem_subtrees_self) hl u hu
      | false =>
        exact (ih t ht (fun x hx => hf x (hup t ht x hx)) fun x hx => hgone x (hup t ht x hx)).symm
    have hnode := hf _ (mem_subtrees_self _)
    rw [prune_node] at hnode ⊢
    rw [subtrees_node, subtrees_node, List.filterMap_cons, List.filterMap_cons, hnode, hts]

end Tree

/-! ## Counting over a fold -/

theorem Tree.Cuttable.prune {α : Type} {gone gone' : α → Bool} {t : Tree α}
    (h : t.Cuttable gone) : (t.prune gone').Cuttable gone := by
  constructor
  · intro u hu hfolds
    obtain ⟨x, hx, rfl⟩ := Tree.exists_of_mem_prune hu
    rw [Tree.label_prune]
    exact h.stays x hx (Tree.op_prune gone' x ▸ hfolds)
  · intro u hu hop z hz
    obtain ⟨⟨a, op, ts⟩, hx, rfl⟩ := Tree.exists_of_mem_prune hu
    rw [Tree.prune_node] at hop hz
    obtain ⟨k, hk, rfl⟩ := List.mem_map.mp hz
    rw [Tree.label_prune]
    exact h.inBlock _ hx hop k (List.mem_of_mem_filter hk)

namespace Capture

variable {c : Capture} {t : Tree (Option NodeId)} {recorded : List Forwarding} {site : CallSite}

theorem count_collapse (t : Tree (Option NodeId)) :
    (t.rewrite c.collapse).count (Op.calls site) = t.count (Op.calls site) := by
  have hload : ∀ y ∈ t.subtrees.filterMap c.collapse, y.count (Op.calls site) = 0 := by
    intro y hy
    obtain ⟨x, _, hx⟩ := List.mem_filterMap.mp hy
    obtain ⟨_, rfl⟩ := collapse_eq_some.mp hx
    rfl
  rw [Tree.count_rewrite, List.map_congr_left hload, List.map_const', List.sum_replicate_nat,
    Nat.mul_zero, Nat.add_zero]
  · intro x _ y hy
    obtain ⟨w, type, z, field, rfl, hz, _⟩ := isWrapper_iff.mp (collapse_eq_some.mp hy).1
    obtain ⟨a, l, rfl⟩ := Tree.fieldOfLocal?_eq_some.mp hz
    refine ⟨rfl, fun z hz u hu => ?_⟩
    obtain rfl := List.mem_singleton.mp hz
    have hu : u = .node a (.ldflda field) [.node l (.ldloc c.holder) []] ∨
        u = .node l (.ldloc c.holder) [] := by
      simpa [Tree.mem_subtrees_node] using hu
    rcases hu with rfl | rfl <;> rfl

/-- Each reference brings the calls of what stands for its field. -/
theorem count_stand (t : Tree (Option NodeId)) :
    (t.rewrite (c.stand recorded)).count (Op.calls site) = t.count (Op.calls site) +
      ((t.subtrees.filterMap (c.reference? recorded)).map fun g =>
        (c.standFor g).count (Op.calls site)).sum := by
  have hfilter : t.subtrees.filterMap (c.stand recorded) =
      (t.subtrees.filterMap (c.reference? recorded)).map c.standFor := List.map_filterMap.symm
  rw [Tree.count_rewrite, hfilter, List.map_map]
  · rfl
  · intro x _ y hy
    obtain ⟨g, hg, _⟩ := stand_eq_some.mp hy
    obtain ⟨field, hlocal, _⟩ := reference?_eq_some.mp hg
    obtain ⟨a, l, rfl⟩ := Tree.fieldOfLocal?_eq_some.mp hlocal
    refine ⟨rfl, fun z hz u hu => ?_⟩
    obtain rfl := List.mem_singleton.mp hz
    have hu : u = .node l (.ldloc c.holder) [] := by simpa [Tree.mem_subtrees_node] using hu
    rw [hu]
    rfl

/-- What stands for a field has the calls of the value that was stored. -/
theorem count_standFor {g : Forwarding} (hstand : c.canStand g.value = true)
    (hleaf : ∀ a v ts, g.value = .node a (.ldloc v) ts → ts = []) :
    (c.standFor g).count (Op.calls site) = g.value.count (Op.calls site) := by
  unfold canStand at hstand
  split at hstand
  · next a v ts heq =>
    obtain rfl := hleaf a v ts heq
    rw [standFor, heq]
    rfl
  · next a type ts heq =>
    have hvalue : c.standFor g = ((g.value.map some).rewrite c.collapse).anew := by
      rw [standFor, heq]
    rw [hvalue, Tree.anew, Tree.count_map, count_collapse, Tree.count_map]
  · cases hstand

section Fold

variable {inst new : NodeId} {own : CallSite} {this : VarId} {t : Tree NodeId}
  (h : c.Foldable (constructionTree c inst new own this) t)
include h

/-- Nothing of the construction refers to a field. -/
theorem references_prune :
    ((c.collapsed t).prune (· == some inst)).subtrees.filterMap (c.reference? (c.recorded t)) =
      c.references t := by
  have hcut : (c.collapsed t).Cuttable (· == some inst) := cuttable_collapse h.inBlock.prune rfl
  refine Tree.filterMap_prune (fun x hx => ?_) fun x hx hl u hu => ?_
  · rw [reference?, reference?, (hcut.subtree hx).fieldOfLocal?_prune]
  · rw [only_collapsed h x hx (by rw [beq_iff_eq.mp hl, Tree.label_map]; rfl)] at hu
    rw [Option.eq_none_iff_forall_ne_some]
    intro g hg
    obtain ⟨field, hlocal, _⟩ := reference?_eq_some.mp hg
    obtain ⟨_, _, rfl⟩ := Tree.fieldOfLocal?_eq_some.mp hlocal
    rcases op_of_mem_construction hu with hop | hop | hop <;> cases hop

/-- After a fold there are the calls outside of the construction and the recorded stores, and
    those that came with the references. -/
theorem count_folded : (c.folded inst this t).count (Op.calls site) =
    (t.prune fun a => c.isRecorded t (some a) || some a == some inst).count (Op.calls site) +
      ((c.references t).map fun g => (c.standFor g).count (Op.calls site)).sum := by
  have hcut : ((t.map some).prune (c.isRecorded t)).Cuttable (· == some inst) := h.inBlock.prune
  have htop : (((t.map some).prune (c.isRecorded t)).label == some inst) = false := by
    rw [Tree.label_prune, Tree.label_map, beq_eq_false_iff_ne]
    exact fun he => h.apart (Option.some.inj he)
  have hcut' : (c.collapsed t).Cuttable (· == some inst) := cuttable_collapse hcut rfl
  have htop' : ((c.collapsed t).label == some inst) = false :=
    (gone_collapse hcut rfl (Tree.mem_subtrees_self _)).trans htop
  have htop'' : ((c.replaced t).label == some inst) = false :=
    (gone_stand hcut' rfl (fun _ _ => .inl rfl) (Tree.mem_subtrees_self _)).trans htop'
  have hcleared : ((t.map some).prune (c.isRecorded t)).prune (· == some inst) =
      (t.prune fun a => c.isRecorded t (some a) || some a == some inst).map some := by
    rw [Tree.prune_prune]
    exact (Tree.map_prune fun _ _ => rfl).symm
  rw [folded_eq h, Tree.count_plantAt rfl (beq_eq_false_iff_ne.mp htop'') fun _ => beq_iff_eq,
    replaced, prune_stand hcut' rfl (fun _ _ => .inl rfl) htop', count_stand, references_prune h,
    collapsed, prune_collapse hcut rfl htop, count_collapse, hcleared, Tree.count_map]

end Fold

end Capture

/-! ## Counting in routines -/

namespace Routine

variable {r : Routine} {site : CallSite} {p : Op → Bool} {tops : List NodeId} {t : Tree NodeId}

/-- The number of connected calls of a method in a given way. -/
def callCount (r : Routine) (site : CallSite) : Nat :=
  r.slots.countP fun id => r.isConnected id && (r.op? id).any (Op.calls site)

/-- The number of those that lie below one of some nodes. -/
def callsWithin (r : Routine) (tops : List NodeId) (site : CallSite) : Nat :=
  r.slots.countP fun id =>
    r.isConnected id && (r.op? id).any (Op.calls site) && tops.any (r.encloses · id)

namespace Forest

variable (F : r.Forest)
include F

theorem countP_labels (q : NodeId → Bool) :
    (r.tree r.body).labels.countP q = r.slots.countP fun id => r.isConnected id && q id := by
  have hbody := F.holds_tree (isAlive_of_isConnected F.isConnected_body)
  have hperm : (r.tree r.body).labels.Perm (r.slots.filter r.isConnected) := by
    refine (List.perm_ext_iff_of_nodup (F.nodup_labels hbody) (r.nodup_slots.filter _)).mpr ?_
    intro id
    rw [F.mem_labels hbody, label_tree, ← F.isConnected_iff_above, List.mem_filter]
    refine (and_iff_right_of_imp fun h => ?_).symm
    obtain ⟨n, hn⟩ := isAlive_iff.mp (isAlive_of_isConnected h)
    exact mem_slots_of_node? hn
  rw [hperm.countP_eq, List.countP_filter]
  exact List.countP_congr fun id _ => by rw [Bool.and_comm]

/-- What is left of a tree when some of it is cut out is what lies below nothing that is. -/
theorem subtrees_prune (ht : r.Holds t) (htop : tops.any (r.encloses · t.label) = false) :
    (t.prune fun k => tops.contains k).subtrees =
      (t.subtrees.filter fun u => !tops.any (r.encloses · u.label)).map
        (Tree.prune fun k => tops.contains k) := by
  induction ht with
  | @node a op ts hop hc hts ih =>
    rw [Tree.label_node] at htop
    rw [Tree.prune_node, Tree.subtrees_node, Tree.subtrees_node, List.flatMap_map,
      List.filter_cons_of_pos (by rw [Tree.label_node, htop]; rfl), List.map_cons, Tree.prune_node,
      List.filter_flatMap, List.map_flatMap]
    refine congrArg _ (flatMap_filter_eq fun t ht => ?_)
    have hp : r.parent? t.label = some a := F.parent?_of_mem (hc ▸ List.mem_map_of_mem ht)
    cases hgone : tops.contains t.label with
    | true =>
      refine List.map_eq_nil_iff.mpr (List.filter_eq_nil_iff.mpr fun u hu => ?_)
      have habove := (F.mem_labels (hts t ht)).mp (List.mem_map_of_mem hu)
      have hbelow : tops.any (r.encloses · u.label) = true :=
        List.any_eq_true.mpr ⟨_, List.contains_iff_mem.mp hgone, F.encloses_iff.mpr habove⟩
      rw [hbelow]
      exact Bool.false_ne_true
    | false =>
      refine (ih t ht (List.any_eq_false.mpr fun k hk habove => ?_)).symm
      rcases (F.encloses_iff.mp habove).cases with rfl | ⟨p, hp', habove⟩
      · rw [List.contains_iff_mem.mpr hk] at hgone
        cases hgone
      · obtain rfl := Option.some.inj (hp.symm.trans hp')
        exact List.any_eq_false.mp htop k hk (F.encloses_iff.mpr habove)

/-- The nodes of the tree are those that stay and those that lie below what is cut out. -/
theorem count_prune (htop : tops.any (r.encloses · r.body) = false) :
    r.callCount site =
      ((r.tree r.body).prune fun k => tops.contains k).count (Op.calls site) +
        r.callsWithin tops site := by
  have hbody := F.holds_tree (isAlive_of_isConnected F.isConnected_body)
  have hlabels : (r.tree r.body).subtrees.countP
      (fun u => Op.calls site u.op && !tops.any (r.encloses · u.label)) =
        (r.tree r.body).labels.countP
          fun id => (r.op? id).any (Op.calls site) && !tops.any (r.encloses · id) := by
    rw [Tree.labels, List.countP_map]
    exact List.countP_congr fun u hu => by
      rw [Function.comp_apply, (hbody.subtree hu).op?, Option.any_some]
  have hstay : ((r.tree r.body).prune fun k => tops.contains k).count (Op.calls site) =
      (r.slots.filter fun id => !tops.any (r.encloses · id)).countP
        fun id => r.isConnected id && (r.op? id).any (Op.calls site) := by
    rw [Tree.count, F.subtrees_prune hbody (by rw [label_tree, htop]), List.countP_map,
      List.countP_filter, List.countP_filter]
    simp only [Function.comp_apply, Tree.op_prune]
    rw [hlabels, F.countP_labels]
    exact List.countP_congr fun id _ => by rw [Bool.and_assoc]
  have hwithin : r.callsWithin tops site =
      (r.slots.filter fun id => tops.any (r.encloses · id)).countP
        fun id => r.isConnected id && (r.op? id).any (Op.calls site) := List.countP_filter.symm
  rw [hstay, hwithin, Nat.add_comm]
  exact List.countP_eq_countP_filter_add _ _ _

theorem count_tree : (r.tree r.body).count (Op.calls site) = r.callCount site := by
  have hnone : ([] : List NodeId).any (r.encloses · r.body) = false := rfl
  have hwithin : r.callsWithin [] site = 0 := List.countP_eq_zero.mpr fun id _ => by simp
  rw [F.count_prune hnone, hwithin, Nat.add_zero, Tree.prune_eq_self]
  exact fun _ _ => rfl

end Forest

/-- Counting one node of the arena if a condition holds. -/
theorem countP_slots_eq {id : NodeId} (hid : r.isAlive id = true) (b : Bool) :
    (r.slots.countP fun k => k == id && b) = if b then 1 else 0 := by
  obtain ⟨n, hn⟩ := isAlive_iff.mp hid
  cases b with
  | false => exact List.countP_eq_zero.mpr fun k _ => by simp
  | true =>
    simp only [Bool.and_true]
    exact List.count_eq_one_of_mem r.nodup_slots (mem_slots_of_node? hn)

section Construction

variable {c : Capture} {inst new : NodeId} {own : CallSite} {this : VarId} (F : r.Forest)
  (ht : r.Holds (constructionTree c inst new own this))
include F ht

/-- The only call in a construction is that of the constructor. -/
theorem eq_of_calls {id : NodeId} (hid : r.encloses inst id = true)
    (hcalls : (r.op? id).any (Op.calls site) = true) : id = new ∧ own.alike site = true := by
  have hnew := ht.operand (List.mem_singleton_self _)
  have hstore : r.op? inst = some (.stloc c.holder) := ht.op?
  have hcall : r.op? new = some (.call own) := hnew.op?
  have hload : r.op? c.receiver = some (.ldloc this) :=
    (hnew.operand (List.mem_singleton_self _)).op?
  have hmem := (F.mem_labels ht).mpr (F.encloses_iff.mp hid)
  have hcases : id = inst ∨ id = new ∨ id = c.receiver := by
    simpa [Tree.mem_labels_node] using hmem
  rcases hcases with rfl | rfl | rfl
  · rw [hstore] at hcalls
    cases hcalls
  · rw [hcall] at hcalls
    exact ⟨rfl, hcalls⟩
  · rw [hload] at hcalls
    cases hcalls

/-- A construction has one call, unless it lies below another of the nodes. -/
theorem callsWithin_cons (hconn : r.isConnected inst = true)
    (htops : ∀ k ∈ tops, ∃ type, r.op? k = some (.stobj type)) :
    r.callsWithin (inst :: tops) site = r.callsWithin tops site +
      if own.alike site && !tops.any (r.encloses · inst) then 1 else 0 := by
  have hop : r.op? new = some (.call own) := (ht.operand (List.mem_singleton_self _)).op?
  have hp : r.parent? new = some inst := F.parent?_of_mem (ht.children ▸ List.mem_singleton_self _)
  have hconn' : r.isConnected new = true := (F.shared hp).trans hconn
  have hin : r.encloses inst new = true := F.encloses_iff.mpr (.parent hp)
  -- the stores that the call lies below are those that the construction lies below
  have hbelow : tops.any (r.encloses · new) = tops.any (r.encloses · inst) := by
    rw [Bool.eq_iff_iff, List.any_eq_true, List.any_eq_true]
    refine exists_congr fun k => and_congr_right fun hk => ?_
    obtain ⟨type, hstore⟩ := htops k hk
    rw [F.encloses_iff, F.encloses_iff]
    refine ⟨fun h => ?_, fun h => h.under hp⟩
    refine h.above_parent (fun he => ?_) hp
    cases (he ▸ hstore).symm.trans hop
  have hone : (r.slots.countP fun id => r.isConnected id && (r.op? id).any (Op.calls site) &&
      (r.encloses inst id && !tops.any (r.encloses · id))) =
        if own.alike site && !tops.any (r.encloses · inst) then 1 else 0 := by
    rw [← countP_slots_eq (isAlive_of_op? hop)]
    refine List.countP_congr fun id _ => ?_
    simp only [Bool.and_eq_true, beq_iff_eq]
    constructor
    · rintro ⟨⟨_, hcalls⟩, hid, hout⟩
      obtain ⟨rfl, halike⟩ := eq_of_calls F ht hid hcalls
      exact ⟨rfl, halike, hbelow ▸ hout⟩
    · rintro ⟨rfl, halike, hout⟩
      exact ⟨⟨hconn', by rw [hop]; exact halike⟩, hin, hbelow.symm ▸ hout⟩
  rw [← hone, callsWithin, callsWithin, List.countP_eq_countP_filter_add _ _
    fun id => tops.any (r.encloses · id), List.countP_filter, List.countP_filter]
  refine congr_arg₂ (· + ·) (List.countP_congr fun id _ => ?_) (List.countP_congr fun id _ => ?_)
  · rw [List.any_cons]
    cases tops.any (r.encloses · id) <;> simp
  · rw [List.any_cons]
    cases tops.any (r.encloses · id) <;> simp

end Construction

end Routine

/-! ## The balance -/

namespace CapturedReceiver

variable {w : Work} {r : Routine} {block inst : NodeId} {index : Nat} {c : Capture} {this : VarId}
  {x : Variable} {site : CallSite}

/-- What is put in for a reference to a field has the calls of the value that was stored. -/
theorem count_of_reference (V : r.Valid) {g : Forwarding}
    (hg : g ∈ c.references (r.tree r.body)) :
    (c.standFor g).count (Op.calls site) = g.value.count (Op.calls site) := by
  obtain ⟨_, _, href⟩ := Capture.mem_references.mp hg
  obtain ⟨type, y, owner, hhold, _, _, _, hstand⟩ :=
    recorded_spec V (Capture.mem_recorded_of_reference? href)
  refine Capture.count_standFor hstand fun a v ts hv => ?_
  have hvalue := hhold.operand (List.mem_cons_of_mem _ (List.mem_singleton_self g.value))
  rw [hv] at hvalue
  have hnil := hvalue.children.symm.trans (V.forest.children_of_ldloc hvalue.op?)
  exact List.map_eq_nil_iff.mp hnil

/-- What goes with a fold is the construction and the forwarding stores. -/
theorem gone_eq_contains (V : r.Valid) (hx : r.var? c.holder = some x) (k : NodeId) :
    (c.isRecorded (r.tree r.body) (some k) || some k == some inst) =
      (inst :: (r.capturePlan c).forwards.map (·.store)).contains k := by
  rw [Capture.isRecorded, ← any_forwards V hx, List.contains_cons, Bool.or_comm]
  refine congr_arg₂ (· || ·) rfl ?_
  rw [List.contains_eq_any_beq]
  exact congrArg _ (funext fun st => Bool.beq_comm)

theorem body_not_gone (V : r.Valid) (hx : r.var? c.holder = some x)
    (hp : r.parent? inst = some block) :
    (inst :: (r.capturePlan c).forwards.map (·.store)).any (r.encloses · r.body) = false := by
  refine List.any_eq_false.mpr fun k hk habove => ?_
  obtain rfl := (V.forest.encloses_iff.mp habove).eq_of_top V.forest.parent?_body
  rcases List.mem_cons.mp hk with he | hk
  · rw [← he, V.forest.parent?_body] at hp
    cases hp
  · obtain ⟨⟨_, owner, hp, _⟩, _⟩ := stores_spec V hx hk
    rw [V.forest.parent?_body] at hp
    cases hp

/-- A fold, with an inliner that leaves everything as it is, takes away the call of the
    constructor and the calls of the values that were forwarded, and adds those of such a value
    for each reference to its field. It neither adds nor takes away any other call. -/
theorem fold_balances_calls (ctx : Context) (hreach : Reachable w.routine)
    (hvalid : w.routine.validate = .ok ()) (hblock : w.routine.isConnected block = true)
    (hi : (w.routine.instructions block)[index]? = some inst)
    (hc : w.routine.capture? ctx.settings inst = some c)
    (hthis : w.routine.ldloc? c.receiver = some this)
    (hidle : ∀ block index options w, ctx.inliner block index options w = .ok 0 w) :
    ∃ next w' new own, fold ctx block index c w = .ok next w' ∧ w'.routine.validate = .ok () ∧
      w.routine.stloc? inst = some (c.holder, new) ∧ w.routine.op? new = some (.call own) ∧
      ∀ site, w'.routine.callCount site +
          (w.routine.callsWithin ((w.routine.capturePlan c).forwards.map (·.store)) site +
            if own.alike site && !(w.routine.capturePlan c).forwards.any
              (fun f => w.routine.encloses f.store inst) then 1 else 0) =
        w.routine.callCount site + ((c.references (w.routine.tree w.routine.body)).map fun g =>
          g.value.count (Op.calls site)).sum := by
  have V := (Routine.valid_iff hreach).mp hvalid
  have F := V.forest
  obtain ⟨⟨x, hx⟩, new, own, ht, hfoldable⟩ := exists_foldable V hi hc hthis
  obtain ⟨next, w', hfold, V', _, hmarked⟩ :=
    fold_marks (w := w) hidle V hblock hi hc hthis
  refine ⟨next, w', new, own, hfold, V'.validate, stloc?_eq_some.mpr ⟨ht.op?, ht.children⟩,
    (ht.operand (List.mem_singleton_self _)).op?, fun site => ?_⟩
  obtain ⟨_, hi'⟩ := getElem?_instructions hi
  have hp : w.routine.parent? inst = some block := F.parent?_of_mem (List.mem_of_getElem? hi')
  have hconn : w.routine.isConnected inst = true := (F.shared hp).trans hblock
  have hcount : w'.routine.callCount site =
      (c.folded inst this (w.routine.tree w.routine.body)).count (Op.calls site) := by
    rw [← V'.forest.count_tree, ← hmarked, marked, Tree.count_map]
  rw [hcount, Capture.count_folded hfoldable,
    List.map_congr_left fun g hg => count_of_reference V hg,
    Tree.prune_congr fun k _ => gone_eq_contains V hx k, F.count_prune (body_not_gone V hx hp),
    callsWithin_cons F ht hconn fun k hk => (stores_spec V hx hk).2, List.any_map]
  show _ + _ + _ = _ + (_ + _) + _
  exact Nat.add_right_comm _ _ _

namespace Relay

open Sample

def measure : CallSite where
  kind := .call
  method := ⟨⟨0x06000004⟩, "Measure", .widget, .widget, 0, 0x10⟩

/-- The routine goes on with

      stobj Void(ldflda value(ldloc cap), unbox Void(call Measure()))
      call Use(ldflda value(ldloc cap), ldflda value(ldloc cap)) -/
def measured : Routine := build
  [ .load ⟨1⟩, .create (.ldflda value) [⟨5⟩], .create (.call measure) [],
    .create (.unbox .void) [⟨7⟩], .create (.stobj .void) [⟨6⟩, ⟨8⟩], .push ⟨1⟩ ⟨9⟩,
    .load ⟨1⟩, .create (.ldflda value) [⟨10⟩], .load ⟨1⟩, .create (.ldflda value) [⟨12⟩],
    .create (.call use) [⟨11⟩, ⟨13⟩], .push ⟨1⟩ ⟨14⟩]

end Relay

set_option maxRecDepth 8000 in
/-- The stored call of `Measure` goes, and comes back for each of two references. -/
theorem calls_balanced : ∃ next w',
    fold { settings := {}, inliner := Inliner.idle } ⟨1⟩ 0 Relay.capture
      { routine := Relay.measured } = .ok next w' ∧
    Relay.measured.callCount Relay.measure = 1 ∧
    Relay.measured.callsWithin [⟨9⟩] Relay.measure = 1 ∧
    w'.routine.callCount Relay.measure = 2 := by
  have hreach : Reachable Relay.measured := (Reachable.empty _ _).after _
  have hblock : Relay.measured.isConnected ⟨1⟩ = true := rfl
  have hi : (Relay.measured.instructions ⟨1⟩)[0]? = some ⟨4⟩ := rfl
  have hc : Relay.measured.capture? {} ⟨4⟩ = some Relay.capture := rfl
  have hthis : Relay.measured.ldloc? Relay.capture.receiver = some ⟨0⟩ := rfl
  obtain ⟨next, w', new, own, hfold, _, hnew, hown, hcalls⟩ := fold_balances_calls
    (w := { routine := Relay.measured }) ⟨{}, Inliner.idle⟩ hreach (by decide +kernel) hblock hi hc
    hthis fun _ _ _ _ => rfl
  obtain rfl : ⟨3⟩ = new := congrArg Prod.snd (Option.some.inj hnew)
  obtain rfl : Sample.construct = own := Op.call.inj (Option.some.inj hown)
  have hbefore : Relay.measured.callCount Relay.measure = 1 := by decide +kernel
  have hwithin : Relay.measured.callsWithin ((Relay.measured.capturePlan Relay.capture).forwards.map
      (·.store)) Relay.measure = 1 := by decide +kernel
  have hcopies : ((Relay.capture.references (Relay.measured.tree Relay.measured.body)).map fun g =>
      g.value.count (Op.calls Relay.measure)).sum = 2 := by decide +kernel
  have hbalance := hcalls Relay.measure
  rw [hbefore, hwithin, hcopies] at hbalance
  exact ⟨next, w', hfold, hbefore, by decide +kernel, Nat.succ.inj hbalance⟩

set_option maxRecDepth 8000 in
/-- A call that was stored is there twice when the field is referred to twice, although it is not
    the call of the constructor. -/
theorem call_doubled : ∃ (w w' : Work) (next : Nat) (c : Capture) (own site : CallSite),
    Reachable w.routine ∧ w.routine.validate = .ok () ∧
      w.routine.capture? {} ⟨4⟩ = some c ∧
      fold { settings := {}, inliner := Inliner.idle } ⟨1⟩ 0 c w = .ok next w' ∧
      w.routine.op? ⟨3⟩ = some (.call own) ∧ own.alike site = false ∧
      w.routine.callCount site = 1 ∧ w'.routine.callCount site = 2 := by
  have hreach : Reachable Relay.measured := (Reachable.empty _ _).after _
  have hfold := PassM.eq_ok_of_answer? (m := fold { settings := {}, inliner := Inliner.idle } ⟨1⟩ 0
    Relay.capture) (w := { routine := Relay.measured }) (a := 1) (by decide +kernel)
  exact ⟨{ routine := Relay.measured }, _, 1, Relay.capture, Sample.construct, Relay.measure,
    hreach, by decide +kernel, rfl, hfold, rfl, by decide +kernel, by decide +kernel,
    by decide +kernel⟩

end CapturedReceiver

end CilFold
