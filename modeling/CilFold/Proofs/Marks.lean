/-
  Trees with the origin of their nodes. A pass starts with a routine `r` and has come to `s`;
  in `r.marked s id`, the tree of `s` below a node, each node of `r` bears its handle and each
  node made since then bears none. Grafting plants in this tree, and removing an instruction
  prunes it.
-/
import CilFold.Proofs.Graft

namespace CilFold.Routine

variable {r s s' : Routine} {block id inst k p x : NodeId} {t u : Tree NodeId} {index : Nat}

/-- The node itself if the routine has a slot for it. -/
def origin (r : Routine) (id : NodeId) : Option NodeId :=
  if id.index < r.nodes.size then some id else none

/-- The tree of a later routine below a node, with each node marked by its origin. -/
def marked (r s : Routine) (id : NodeId) : Tree (Option NodeId) := (s.tree id).map r.origin

theorem origin_eq_some : r.origin x = some id ↔ x = id ∧ id.index < r.nodes.size := by
  unfold origin
  split_ifs with h
  · constructor
    · intro he
      cases he
      exact ⟨rfl, h⟩
    · exact fun he => congrArg some he.1
  · constructor
    · exact fun he => nomatch he
    · rintro ⟨rfl, hlt⟩
      exact absurd hlt h

theorem origin_of_isAlive (h : r.isAlive id = true) : r.origin id = some id :=
  if_pos (index_lt_of_isAlive h)

/-- At the start all nodes are known. -/
theorem Forest.marked_self (F : r.Forest) (hid : r.isAlive id = true) :
    r.marked r id = (r.tree id).map some := by
  refine Tree.map_congr fun x hx => ?_
  rw [F.mem_labels (F.holds_tree hid), label_tree] at hx
  exact origin_of_isAlive (hx.alive hid)

/-- What a marked tree has in it stands in the later routine. -/
theorem Forest.exists_of_mem_marked (F : s.Forest) (hk : s.isAlive k = true)
    {u : Tree (Option NodeId)} (hu : u ∈ (r.marked s k).subtrees) :
    ∃ y, s.Holds y ∧ s.Above k y.label ∧ y.map r.origin = u := by
  rw [marked, Tree.subtrees_map] at hu
  obtain ⟨y, hy, rfl⟩ := List.mem_map.mp hu
  have htree := F.holds_tree hk
  have hmem : y.label ∈ (s.tree k).labels := List.mem_map_of_mem hy
  rw [F.mem_labels htree, label_tree] at hmem
  exact ⟨y, htree.subtree hy, hmem, rfl⟩

/-- Origins in an earlier routine are origins of origins. -/
theorem marked_eq_map {r₀ : Routine} (hsize : r₀.nodes.size ≤ r.nodes.size) :
    r₀.marked s k = (r.marked s k).map (Option.bind · r₀.origin) := by
  rw [marked, marked, Tree.map_map]
  refine Tree.map_congr fun x _ => ?_
  rw [Function.comp_apply]
  by_cases hx : x.index < r.nodes.size
  · rw [origin, origin, if_pos hx]
    rfl
  · rw [origin, origin, if_neg hx, if_neg fun h => hx (Nat.lt_of_lt_of_le h hsize)]
    rfl

/-- What is fresh in a later routine has no origin. -/
theorem map_origin_of_fresh (hsize : r.nodes.size ≤ s.nodes.size)
    (h : ∀ x ∈ u.labels, s.nodes.size ≤ x.index) : u.map r.origin = u.anew :=
  Tree.map_congr fun x hx => if_neg (Nat.not_lt.mpr (Nat.le_trans hsize (h x hx)))

/-- A graft plants in the marked trees around its place. -/
theorem Grafted.marked (G : Grafted s id p u s') (F : s.Forest)
    (hsize : r.nodes.size ≤ s.nodes.size) (hid : id.index < r.nodes.size)
    (hk : s.isAlive k = true) (hbelow : ¬ s.Above id k) :
    r.marked s' k = (r.marked s k).plantAt (some id) u.anew := by
  obtain ⟨t, ht, rfl⟩ := F.exists_holds hk
  have hs' := G.holds_plant F ht hbelow
  have hne : t.label ≠ id := fun he => hbelow (he ▸ Above.refl s t.label)
  have hlabel : (t.plantAt id u).label = t.label := (Tree.label_plantAt id t u).trans (if_neg hne)
  have hid' : r.origin id = some id := origin_eq_some.mpr ⟨rfl, hid⟩
  have htree := G.valid.forest.tree_of_holds hs'
  rw [hlabel] at htree
  rw [Routine.marked, Routine.marked, htree, F.tree_of_holds ht, Tree.map_plantAt, hid',
    map_origin_of_fresh hsize G.fresh]
  intro x _ hx
  rw [hid'] at hx
  exact (origin_eq_some.mp hx).1

/-! ## Removals -/

/-- Removing an instruction prunes the trees around it. -/
theorem Forest.holds_deleteAt (F : r.Forest) (hi : (r.children block)[index]? = some inst)
    (ht : r.Holds t) (hbelow : ¬ r.Above inst t.label) :
    (r.deleteAt block index inst).Holds (t.prune (· == inst)) := by
  have hparent : r.parent? inst = some block := F.parent?_of_mem (List.mem_of_getElem? hi)
  induction ht with
  | @node a op ts hop hc hts ih =>
    rw [Tree.label_node] at hbelow
    have v := views_deleteAt F hparent index a
    rw [if_neg (F.encloses_iff.not.mpr hbelow), if_neg (F.encloses_iff.not.mpr hbelow)] at v
    have hup : ∀ t ∈ ts, r.parent? t.label = some a := fun t ht =>
      F.parent?_of_mem (hc ▸ List.mem_map_of_mem ht)
    have hlabels : ((ts.filter fun t => !(t.label == inst)).map (Tree.prune (· == inst))).map
        Tree.label = (r.children a).filter (· != inst) := by
      rw [List.map_map, hc, List.filter_map]
      exact List.map_congr_left fun t _ => Tree.label_prune _ t
    rw [Tree.prune_node]
    refine .node (v.op.trans hop) ?_ fun x hx => ?_
    · rw [v.children, hlabels]
      split_ifs with hab
      · subst hab
        rw [eraseIdx_eq_erase (F.children_nodup a) hi, (F.children_nodup a).erase_eq_filter]
      · refine (List.filter_eq_self.mpr fun c hc => ?_).symm
        rw [bne_iff_ne]
        rintro rfl
        exact hab (Option.some.inj ((F.parent?_of_mem hc).symm.trans hparent))
    · obtain ⟨t, ht, rfl⟩ := List.mem_map.mp hx
      obtain ⟨ht, hne⟩ := List.mem_filter.mp ht
      rw [Bool.not_eq_true', beq_eq_false_iff_ne] at hne
      exact ih t ht fun hab => hbelow (hab.above_parent (Ne.symm hne) (hup t ht))

theorem marked_deleteAt (F : s.Forest) (F' : (s.deleteAt block index inst).Forest)
    (hi : (s.children block)[index]? = some inst) (hinst : inst.index < r.nodes.size)
    (hk : s.isAlive k = true) (hbelow : ¬ s.Above inst k) :
    r.marked (s.deleteAt block index inst) k = (r.marked s k).prune (· == some inst) := by
  obtain ⟨t, ht, rfl⟩ := F.exists_holds hk
  have hs' := F.holds_deleteAt hi ht hbelow
  have htree := F'.tree_of_holds hs'
  rw [Tree.label_prune] at htree
  rw [marked, marked, htree, F.tree_of_holds ht, Tree.map_prune]
  intro x _
  rw [Bool.eq_iff_iff, beq_iff_eq, beq_iff_eq, origin_eq_some]
  exact and_iff_left hinst

end CilFold.Routine
