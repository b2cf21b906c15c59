/-
  Trees held in an arena. `r.Holds t` says that the arena has the nodes of `t` under their
  labels, with their operations and child lists. On a forest every live node is the top of one
  such tree, whose labels are the nodes below it; `r.tree id` computes it.
-/
import CilFold.Proofs.Tree
import CilFold.Proofs.Uses

namespace CilFold

/-- Lists are equal if their images are, under a function that tells their elements apart. -/
theorem eq_of_map_eq {α β : Type} {f : α → β} {l m : List α} (h : l.map f = m.map f)
    (hinj : ∀ x ∈ l, ∀ y ∈ m, f x = f y → x = y) : l = m := by
  induction l generalizing m with
  | nil => exact (List.map_eq_nil_iff.mp h.symm).symm
  | cons x l ih =>
    cases m with
    | nil => cases h
    | cons y m =>
      rw [List.map_cons, List.map_cons, List.cons.injEq] at h
      rw [hinj x List.mem_cons_self y List.mem_cons_self h.1, ih h.2]
      exact fun x hx y hy => hinj x (List.mem_cons_of_mem _ hx) y (List.mem_cons_of_mem _ hy)

namespace Routine

variable {r s : Routine} {a id k p x : NodeId} {n : Node} {t u : Tree NodeId}

/-- The arena has the nodes of a tree, each under its label. -/
inductive Holds (r : Routine) : Tree NodeId → Prop where
  | node {id : NodeId} {op : Op} {ts : List (Tree NodeId)} : r.op? id = some op →
      r.children id = ts.map Tree.label → (∀ t ∈ ts, Holds r t) → Holds r (.node id op ts)

namespace Holds

theorem op? (h : r.Holds t) : r.op? t.label = some t.op := by
  cases h with
  | node hop _ _ => exact hop

theorem children (h : r.Holds t) : r.children t.label = t.operands.map Tree.label := by
  cases h with
  | node _ hc _ => exact hc

theorem operand (h : r.Holds t) (hu : u ∈ t.operands) : r.Holds u := by
  cases h with
  | node _ _ hts => exact hts u hu

theorem alive (h : r.Holds t) : r.isAlive t.label = true := by
  obtain ⟨n, hn, _⟩ := Option.map_eq_some_iff.mp h.op?
  exact isAlive_of_node? hn

theorem subtree (h : r.Holds t) (hu : u ∈ t.subtrees) : r.Holds u := by
  induction h with
  | node hop hc hts ih =>
    rcases Tree.mem_subtrees_node.mp hu with rfl | ⟨t, ht, hu⟩
    · exact .node hop hc hts
    · exact ih t ht hu

/-- A handle is the top of one tree at most. -/
theorem unique (ht : r.Holds t) (hu : r.Holds u) (h : t.label = u.label) : t = u := by
  induction ht generalizing u with
  | node hop hc _ ih =>
    cases hu with
    | node hop' hc' hus =>
      cases h
      have hts := eq_of_map_eq (hc.symm.trans hc') fun t ht u hu => ih t ht (hus u hu)
      rw [Option.some.inj (hop.symm.trans hop'), hts]

/-- What a tree looks like depends on its own nodes only. -/
theorem congr (h : r.Holds t)
    (hsame : ∀ k ∈ t.labels, s.op? k = r.op? k ∧ s.children k = r.children k) : s.Holds t := by
  induction h with
  | @node id op ts hop hc _ ih =>
    obtain ⟨hop', hc'⟩ := hsame id (Tree.label_mem_labels _)
    refine .node (hop'.trans hop) (hc'.trans hc) fun t ht => ih t ht fun k hk => hsame k ?_
    exact Tree.mem_labels_node.mpr (.inr ⟨t, ht, hk⟩)

end Holds

/-- A node without children is a tree of its own. -/
theorem Holds.leaf {op : Op} (hop : r.op? id = some op) (hc : r.children id = []) :
    r.Holds (.node id op []) := .node hop hc fun _ h => absurd h List.not_mem_nil

/-! ## The tree of a node -/

/-- The operation tree of at most `depth` levels below a node. A handle without a node reads as
    `nop`. -/
def treeTo (r : Routine) : Nat → NodeId → Tree NodeId
  | 0, id => .node id .nop []
  | depth + 1, id => .node id ((r.op? id).getD .nop) ((r.children id).map (r.treeTo depth))

/-- The operation tree below a node. -/
def tree (r : Routine) (id : NodeId) : Tree NodeId := r.treeTo r.nodes.size id

@[simp] theorem label_tree (r : Routine) (id : NodeId) : (r.tree id).label = id := by
  unfold tree
  cases r.nodes.size <;> rfl

namespace Forest

variable (F : r.Forest)
include F

theorem tree_eq (hid : r.isAlive id = true) :
    r.tree id = .node id ((r.op? id).getD .nop) ((r.children id).map r.tree) := by
  have hpos := length_lineage_pos r id
  have hstep : r.treeTo r.nodes.size id = r.treeTo (r.nodes.size + 1) id := by
    refine F.walk_stable (f := r.treeTo) ?_ hid (by omega) (by omega)
    intro d e id hc
    rw [treeTo, treeTo, List.map_congr_left hc]
  rw [tree, hstep, treeTo]
  rfl

/-- Every live node is the top of a tree. -/
theorem holds_tree (hid : r.isAlive id = true) : r.Holds (r.tree id) := by
  induction id using F.grounded_down.induction with
  | h id ih =>
    obtain ⟨n, hn⟩ := isAlive_iff.mp hid
    rw [F.tree_eq hid, op?_of_node? hn]
    refine .node (op?_of_node? hn) ?_ fun t ht => ?_
    · have hlabel : Tree.label ∘ r.tree = fun c => c := funext (label_tree r)
      rw [List.map_map, hlabel, List.map_id']
    · obtain ⟨c, hc, rfl⟩ := List.mem_map.mp ht
      have hp := F.parent?_of_mem hc
      obtain ⟨m, hm, _⟩ := exists_node?_of_parent? hp
      exact ih c hp (isAlive_of_node? hm)

theorem tree_of_holds (h : r.Holds t) : r.tree t.label = t :=
  (F.holds_tree h.alive).unique h (label_tree r t.label)

theorem exists_holds (hid : r.isAlive id = true) : ∃ t, r.Holds t ∧ t.label = id :=
  ⟨r.tree id, F.holds_tree hid, label_tree r id⟩

/-- The labels of a tree are its top and what lies below it, in preorder. -/
theorem labels_eq_preorder (h : r.Holds t) : t.labels = r.preorder t.label := by
  induction h with
  | @node id op ts hop hc hts ih =>
    have halive : r.isAlive id = true := (Holds.node hop hc hts).alive
    rw [Tree.labels_node, Tree.label_node, F.preorder_eq halive, hc, List.flatMap_map,
      List.flatMap_congr ih]

theorem mem_labels (h : r.Holds t) : x ∈ t.labels ↔ r.Above t.label x := by
  rw [F.labels_eq_preorder h, F.mem_preorder h.alive]

theorem nodup_labels (h : r.Holds t) : t.labels.Nodup := by
  rw [F.labels_eq_preorder h]
  exact F.nodup_preorder h.alive

/-- Below the top of a tree, each node is the top of a subtree. -/
theorem exists_subtree (h : r.Holds t) (hx : r.Above t.label x) :
    ∃ u ∈ t.subtrees, u.label = x ∧ r.Holds u := by
  rw [← F.mem_labels h] at hx
  obtain ⟨u, hu, rfl⟩ := List.mem_map.mp hx
  exact ⟨u, hu, rfl, h.subtree hu⟩

/-- A tree that is held where another one's node is, is part of that one. -/
theorem mem_subtrees (h : r.Holds t) (hu : r.Holds u) (hx : r.Above t.label u.label) :
    u ∈ t.subtrees := by
  obtain ⟨w, hw, hl, hold⟩ := F.exists_subtree h hx
  rw [hu.unique hold hl.symm]
  exact hw

/-- The bound that the walks of a routine are given is deep enough for its trees. -/
theorem within (h : r.Holds t) : t.Within r.nodes.size := by
  have hdeep : ∀ d, r.nodes.size < d + (r.lineage t.label).length → t.Within d := by
    induction h with
    | @node id op ts hop hc hts ih =>
      intro d hd
      rw [Tree.label_node] at hd
      have hle : (r.lineage id).length ≤ r.nodes.size :=
        F.length_lineage_le (Holds.node hop hc hts).alive
      obtain ⟨d, rfl⟩ : ∃ e, d = e + 1 := ⟨d - 1, by omega⟩
      intro t ht
      have hp : r.parent? t.label = some id :=
        F.parent?_of_mem (hc ▸ List.mem_map_of_mem ht)
      have hlen := F.length_lineage_child hp
      exact ih t ht d (by omega)
  have hpos := length_lineage_pos r t.label
  exact hdeep _ (by omega)

end Forest

/-- What lies below a node is the same in two forests that hold the same tree there. -/
theorem above_congr (F : r.Forest) (F' : s.Forest) (ht : r.Holds t) (ht' : s.Holds t) :
    r.Above t.label x ↔ s.Above t.label x :=
  (F.mem_labels ht).symm.trans (F'.mem_labels ht')

/-! ## A node that was taken out of its slot -/

section Detach

variable (F : r.Forest) (hid : r.parent? id = some p)
include F hid

theorem detached_detach : (r.detach p id).Detached id := by
  have v := views_detach F hid id
  have hlive := isAlive_of_parent? hid
  have hne : id ≠ r.nextId := (ne_of_dead (node?_nextId r) hlive).symm
  refine ⟨?_, ?_, ?_⟩
  · obtain ⟨op, hop⟩ := exists_op?_of_isAlive hlive
    exact isAlive_of_op? ((v.op.trans (if_neg hne)).trans hop)
  · rw [v.parent, if_neg hne, if_pos rfl]
  · rw [v.connected, if_neg hne, encloses_self, Bool.not_true, Bool.and_false]

/-- The node stays the same tree. -/
theorem holds_detach (ht : r.Holds t) (hl : t.label = id) : (r.detach p id).Holds t := by
  have v := views_detach F hid
  refine ht.congr fun k hk => ?_
  have hbelow : r.Above id k := hl ▸ (F.mem_labels ht).mp hk
  have hnext : k ≠ r.nextId :=
    (ne_of_dead (node?_nextId r) (hbelow.alive (hl ▸ ht.alive))).symm
  have hkp : k ≠ p := by
    rintro rfl
    exact F.not_above_parent hid hbelow
  rw [(v k).op, (v k).children, if_neg hnext, if_neg hkp]
  exact ⟨rfl, rfl⟩

theorem above_detach : (r.detach p id).Above id k ↔ r.Above id k := by
  obtain ⟨t, ht, rfl⟩ := F.exists_holds (isAlive_of_parent? hid)
  exact (above_congr F (F.detach hid) ht (holds_detach F hid ht rfl)).symm

end Detach

end Routine

end CilFold
