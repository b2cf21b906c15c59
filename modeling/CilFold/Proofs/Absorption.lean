/-
  What the single-use inliner makes of a block.

  A move puts the tree of a value into the place of the load (`Movable.absorbs`); the other
  instructions and all that lies outside the block stay as they are. A sequence of moves then
  folds the last definitions in front of the index into the instruction there, one after the
  other (`Moves.absorbs`). The main statement says this of the inliner for every block, index
  and option of a valid routine; on a block outside the tree it does nothing, because use-lists
  have no loads from there.
-/
import CilFold.Proofs.Filling
import CilFold.Proofs.Trimming

namespace CilFold

namespace Routine

variable {r s : Routine} {block d head id k load p target value : NodeId} {index count : Nat}
  {t u x : Tree NodeId} {v : VarId}

/-! ## The place of the load -/

/-- The check for pure subtrees means what it says. -/
theorem Forest.pure_of_isPureTree (F : r.Forest) (ht : r.Holds t)
    (h : r.isPureTree t.label = true) : t.Pure := by
  intro u hu
  have hmem : u.label ∈ r.preorder t.label := by
    rw [← F.labels_eq_preorder ht]
    exact List.mem_map_of_mem hu
  have hop := List.all_eq_true.mp h u.label hmem
  rwa [(ht.subtree hu).op?, Option.any_some] at hop

/-- What is put into the place of a node changes no tree that the node is not in. -/
theorem plantAt_of_not_mem (h : load ∉ t.labels) : t.plantAt load x = t := by
  refine Tree.plant_eq_self fun a ha => if_neg ?_
  rintro rfl
  exact h ha

/-- What can be filled in an operand can be filled in the node, if the operands before it are
    pure. -/
theorem Forest.fills_parent (F : r.Forest) (hu : r.Holds u) (hin : load ∈ u.labels)
    (hfills : Tree.Fills v x u (u.plantAt load x)) (hp : r.parent? u.label = some p)
    (hpure : ∀ c ∈ (r.children p).takeWhile (· != u.label), r.isPureTree c = true) :
    load ∈ (r.tree p).labels ∧ Tree.Fills v x (r.tree p) ((r.tree p).plantAt load x) := by
  obtain ⟨n, hn⟩ := F.exists_parent_node? hp
  obtain ⟨before, after, hsplit⟩ := List.append_of_mem (F.listed hp)
  have hnodup := F.children_nodup p
  rw [hsplit] at hnodup
  have hbefore : ∀ c ∈ before, c ≠ u.label := fun c hc he =>
    List.disjoint_of_nodup_append hnodup hc (he ▸ List.mem_cons_self)
  have hafter : ∀ c ∈ after, c ≠ u.label := fun c hc he =>
    (List.nodup_cons.mp hnodup.of_append_right).1 (he ▸ hc)
  have hfront : (r.children p).takeWhile (· != u.label) = before := by
    rw [hsplit, List.takeWhile_append_of_pos fun c hc => bne_iff_ne.mpr (hbefore c hc),
      List.takeWhile_cons_of_neg (by simp), List.append_nil]
  have hu' : r.tree u.label = u := F.tree_of_holds hu
  have htree : r.tree p = .node p n.op (before.map r.tree ++ u :: after.map r.tree) := by
    rw [F.tree_eq (isAlive_of_node? hn), op?_of_node? hn, hsplit, List.map_append, List.map_cons,
      hu']
    rfl
  -- the load is in this operand, so it is not in the others
  have hload : r.Above u.label load := (F.mem_labels hu).mp hin
  have hne : p ≠ load := by
    rintro rfl
    exact F.not_above_parent hp hload
  have hothers : ∀ cs : List NodeId, (∀ c ∈ cs, c ∈ r.children p ∧ c ≠ u.label) →
      (cs.map r.tree).map (·.plantAt load x) = cs.map r.tree := by
    intro cs hcs
    rw [List.map_map]
    refine List.map_congr_left fun c hc => plantAt_of_not_mem fun hmem => ?_
    obtain ⟨hc, hcu⟩ := hcs c hc
    have hheld := F.holds_tree (F.alive_of_mem_children hc)
    rw [F.mem_labels hheld, label_tree] at hmem
    exact F.disjoint_children hc (F.listed hp) hcu hmem hload
  have hplant : (r.tree p).plantAt load x =
      .node p n.op (before.map r.tree ++ u.plantAt load x :: after.map r.tree) := by
    rw [htree, Tree.plantAt_node hne, List.map_append, List.map_cons,
      hothers before fun c hc => ⟨hsplit ▸ by simp [hc], hbefore c hc⟩,
      hothers after fun c hc => ⟨hsplit ▸ by simp [hc], hafter c hc⟩]
  refine ⟨?_, ?_⟩
  · rw [htree, Tree.mem_labels_node]
    exact .inr ⟨u, by simp, hin⟩
  · rw [hplant, htree]
    refine .under (fun w hw => ?_) hfills
    obtain ⟨c, hc, rfl⟩ := List.mem_map.mp hw
    have hmem : c ∈ r.children p := hsplit ▸ List.mem_append_left _ hc
    refine F.pure_of_isPureTree (F.holds_tree (F.alive_of_mem_children hmem)) ?_
    rw [label_tree]
    exact hpure c (hfront ▸ hc)

/-- A load that passes the check of the inliner can be filled. -/
theorem Forest.fills_of_evaluatedFirst (F : r.Forest) (hload : r.op? load = some (.ldloc v))
    (ht : r.Holds t) (h : r.evaluatedFirst t.label load = true) :
    Tree.Fills v x t (t.plantAt load x) := by
  -- on the way up from the load, the tree that it is in grows until it is the target
  have hup : ∀ height u, r.Holds u → load ∈ u.labels → Tree.Fills v x u (u.plantAt load x) →
      r.evaluatedFirstTo t.label height u.label = true → Tree.Fills v x t (t.plantAt load x) := by
    intro height
    induction height with
    | zero =>
      intro u _ _ _ hfirst
      cases hfirst
    | succ height ih =>
      intro u hu hin hfills hfirst
      rw [evaluatedFirstTo, Bool.or_eq_true, beq_iff_eq] at hfirst
      rcases hfirst with htop | hfirst
      · rwa [← hu.unique ht htop]
      · split at hfirst
        · cases hfirst
        · next q hq =>
          split at hfirst
          · cases hfirst
          · next n hn =>
            simp only [Bool.and_eq_true, List.all_eq_true] at hfirst
            obtain ⟨⟨_, hpure⟩, hrest⟩ := hfirst
            rw [← children_of_node? hn] at hpure
            obtain ⟨hin', hfills'⟩ := F.fills_parent hu hin hfills hq hpure
            refine ih (r.tree q) (F.holds_tree (isAlive_of_node? hn)) hin' hfills' ?_
            rw [label_tree]
            exact hrest
  have hleaf : r.Holds (.node load (.ldloc v) []) := .leaf hload (F.children_of_ldloc hload)
  refine hup r.nodes.size _ hleaf (Tree.label_mem_labels _) ?_ h
  rw [Tree.plantAt_top (Tree.label_node load _ _)]
  exact .here

/-- A variable with one load is loaded once in a tree that has the load. -/
theorem Valid.count_ldloc (V : r.Valid) {y : Variable} (hy : r.var? v = some y)
    (hone : y.loads = [load]) (ht : r.Holds t) (hc : r.isConnected t.label = true)
    (hin : load ∈ t.labels) : t.ops.count (.ldloc v) = 1 := by
  have F := V.forest
  have hload : r.op? load = some (.ldloc v) :=
    ((V.mem_loads_iff hy).mp (hone ▸ List.mem_singleton_self load)).1
  have hsame : ∀ step ∈ t.steps, ((step.2 == .ldloc v) = true ↔ (step.1 == load) = true) := by
    intro step hstep
    obtain ⟨u, hu, rfl⟩ := Tree.exists_subtree_of_step hstep
    have hop := (ht.subtree hu).op?
    rw [beq_iff_eq, beq_iff_eq]
    constructor
    · intro huop
      have habove : r.Above t.label u.label := (F.mem_labels ht).mp (List.mem_map_of_mem hu)
      have hconn := (F.isConnected_of_above habove).trans hc
      have hmem := (V.mem_loads_iff hy).mpr ⟨hop.trans (congrArg some huop), hconn⟩
      rw [hone] at hmem
      exact List.mem_singleton.mp hmem
    · intro hl
      rw [show u.label = load from hl, hload] at hop
      exact (Option.some.inj hop).symm
  calc t.ops.count (.ldloc v)
    _ = t.steps.countP (·.2 == .ldloc v) := by
      rw [← Tree.map_steps_snd, List.count, List.countP_map]
      rfl
    _ = t.steps.countP (·.1 == load) := List.countP_congr hsame
    _ = (t.steps.map Prod.fst).count load := by
      rw [List.count, List.countP_map]
      rfl
    _ = t.labels.count load := t.steps_perm.count_eq load
    _ = 1 := List.count_eq_one_of_mem (F.nodup_labels ht) hin

/-! ## The instructions of the block -/

/-- The definitions that moves out of a block in front of an index consume. -/
def consumed (r : Routine) (block : NodeId) (index count : Nat) : List NodeId :=
  ((r.instructions block).take index).drop (index - count)

theorem consumed_zero (r : Routine) (block : NodeId) (index : Nat) :
    r.consumed block index 0 = [] :=
  List.drop_eq_nil_of_le (List.length_take_le _ _)

/-- The instructions before and after a move. -/
structure Joins (r s : Routine) (block : NodeId) (index : Nat) (d target head : NodeId) : Prop where
  definition : (r.instructions block)[index]? = some d
  target : (r.instructions block)[index + 1]? = some target
  instructions : s.instructions block =
    (r.instructions block).take index ++ head :: (r.instructions block).drop (index + 2)

namespace Joins

variable (J : Joins r s block index d target head)
include J

theorem lt : index + 1 < (r.instructions block).length :=
  (List.getElem?_eq_some_iff.mp J.target).1

theorem length_front : ((r.instructions block).take index).length = index := by
  have hlt := J.lt
  rw [List.length_take]
  omega

theorem eq_append : r.instructions block =
    (r.instructions block).take index ++
      d :: target :: (r.instructions block).drop (index + 2) := by
  obtain ⟨hlt, hd⟩ := List.getElem?_eq_some_iff.mp J.definition
  obtain ⟨hlt', ht⟩ := List.getElem?_eq_some_iff.mp J.target
  rw [← ht, ← List.drop_eq_getElem_cons hlt', ← hd, ← List.drop_eq_getElem_cons hlt,
    List.take_append_drop]

theorem getElem? : (s.instructions block)[index]? = some head := by
  have hlen := J.length_front
  rw [J.instructions, List.getElem?_append_right (by omega), hlen, Nat.sub_self]
  rfl

theorem take {n : Nat} (hn : n ≤ index) :
    (s.instructions block).take n = (r.instructions block).take n := by
  have hlen := J.length_front
  rw [J.instructions, List.take_append_of_le_length (by omega), List.take_take, Nat.min_eq_left hn]

theorem drop :
    (s.instructions block).drop (index + 1) = (r.instructions block).drop (index + 2) := by
  have hlen := J.length_front
  rw [J.instructions, List.drop_append, hlen, List.drop_eq_nil_of_le (by omega), List.nil_append,
    Nat.add_sub_cancel_left]
  rfl

/-- One move more consumes the definition as well. -/
theorem consumed_succ (hle : count ≤ index) : r.consumed block (index + 1) (count + 1) =
    s.consumed block index count ++ [d] := by
  have hlen := J.length_front
  rw [consumed, consumed, J.take (Nat.le_refl index), Nat.add_sub_add_right, List.take_add_one,
    J.definition, List.drop_append_of_le_length (by omega)]
  rfl

end Joins

/-! ## One move -/

/-- What lies below a node is not the node's parent. -/
theorem Forest.ne_parent_of_above (F : r.Forest) (hp : r.parent? id = some p)
    (hk : r.Above id k) : k ≠ p := by
  rintro rfl
  exact F.not_above_parent hp hk

namespace Movable

variable (M : r.Movable block target index d value load p) (F : r.Forest)
include M F

/-- What lies neither in the definition nor in the target is left alone, the block apart. -/
theorem node?_move_of_apart (hblock : k ≠ block) (hd : ¬ r.Above d k) (ht : ¬ r.Above target k) :
    (r.move block index d value load p).node? k = r.node? k := by
  have hne : ∀ a x, r.Above a x → ¬ r.Above a k → k ≠ x := by
    rintro a x hax hak rfl
    exact hak hax
  have hkd := hne d d (Above.refl r d) hd
  have hkv := hne d value (Above.parent (M.parent_value F)) hd
  have hkl := hne target load M.inside.above ht
  have hkp : k ≠ p := by
    rcases M.slot_cases F with ⟨rfl, _⟩ | ⟨hin, _⟩
    · exact hblock
    · exact hne target p hin.above ht
  have v := M.views_move F k
  simp only [if_neg (not_or.mpr ⟨hkd, hkl⟩), if_neg hblock, if_neg hkp, if_neg hkv] at v
  exact v.node?_eq

/-- A tree without the block, the definition, the load and its slot stays. -/
theorem holds_move (ht : r.Holds t)
    (h : ∀ k ∈ t.labels, k ≠ block ∧ k ≠ d ∧ k ≠ load ∧ k ≠ p) :
    (r.move block index d value load p).Holds t := by
  refine ht.congr fun k hk => ?_
  obtain ⟨hkb, hkd, hkl, hkp⟩ := h k hk
  have v := M.views_move F k
  simp only [if_neg (not_or.mpr ⟨hkd, hkl⟩), if_neg hkb, if_neg hkp] at v
  exact ⟨v.op, v.children⟩

theorem definition_ne_target : d ≠ target := by
  rintro rfl
  exact M.not_above_load F M.inside.above

theorem holds_value_move : (r.move block index d value load p).Holds (r.tree value) := by
  have hheld := F.holds_tree (isAlive_of_parent? (M.parent_value F))
  refine M.holds_move F hheld fun k hk => ?_
  have hbelow : r.Above value k := label_tree r value ▸ (F.mem_labels hheld).mp hk
  have hdef : r.Above d k := (Above.parent (M.parent_value F)).trans hbelow
  refine ⟨F.ne_parent_of_above (M.parent_definition F) hdef, ?_, ?_, ?_⟩
  · rintro rfl
    exact F.not_above_parent (M.parent_value F) hbelow
  · rintro rfl
    exact M.not_above_value_load F hbelow
  · rintro rfl
    exact M.not_above_value_slot F hbelow

/-- The other instructions of the block stay as they are. -/
theorem tree_move_of_ne (F' : (r.move block index d value load p).Forest)
    (hk : k ∈ r.children block) (hkd : k ≠ d) (hkt : k ≠ target) :
    (r.move block index d value load p).tree k = r.tree k := by
  have hp := F.parent?_of_mem hk
  have hheld := F.holds_tree (isAlive_of_parent? hp)
  have hs := M.holds_move F hheld fun x hx => ?_
  · rw [← F'.tree_of_holds hs, label_tree]
  · have hbelow : r.Above k x := label_tree r k ▸ (F.mem_labels hheld).mp hx
    have htarget := List.mem_of_getElem? (M.target_eq F)
    have hout : ∀ y, r.Above target y → x ≠ y := by
      rintro y hy rfl
      exact F.disjoint_children hk htarget hkt hbelow hy
    have hxb := F.ne_parent_of_above hp hbelow
    refine ⟨hxb, ?_, hout load M.inside.above, ?_⟩
    · rintro rfl
      exact F.disjoint_children hk (List.mem_of_getElem? M.definition) hkd hbelow
        (Above.refl r x)
    · rcases M.slot_cases F with ⟨rfl, _⟩ | ⟨hin, _⟩
      · exact hxb
      · exact hout p hin.above

/-- In the target, the value comes into the place of the load. -/
theorem holds_plant (ht : r.Holds t) (hin : r.Above target t.label) :
    (r.move block index d value load p).Holds (t.plantAt load (r.tree value)) := by
  induction ht with
  | @node a op ts hop hc hts ih =>
    rw [Tree.label_node] at hin
    by_cases hal : a = load
    · rw [Tree.plantAt_top (Tree.label_node a op ts |>.trans hal)]
      exact M.holds_value_move F
    · have hparent : ∀ t ∈ ts, r.parent? t.label = some a := fun t ht =>
        F.parent?_of_mem (hc ▸ List.mem_map_of_mem ht)
      have hab := F.ne_parent_of_above (M.parent_target F) hin
      have had : a ≠ d := by
        rintro rfl
        exact F.disjoint_children (List.mem_of_getElem? (M.target_eq F))
          (List.mem_of_getElem? M.definition) (M.definition_ne_target F).symm hin (Above.refl r a)
      have v := M.views_move F a
      simp only [if_neg (not_or.mpr ⟨had, hal⟩), if_neg hab] at v
      rw [Tree.plantAt_node hal]
      refine .node (v.op.trans hop) ?_ fun u hu => ?_
      · rw [v.children, List.map_map]
        have hlabel : ∀ t : Tree NodeId, (t.plantAt load (r.tree value)).label =
            if t.label = load then value else t.label := by
          intro t
          rw [Tree.label_plantAt, label_tree]
        split_ifs with hap
        · rw [replace_eq_map (F.children_nodup a), hc, List.map_map]
          exact List.map_congr_left fun t _ => (hlabel t).symm
        · rw [hc]
          refine List.map_congr_left fun t ht => ?_
          have hnot : t.label ≠ load := by
            intro he
            have hp := hparent t ht
            rw [he, M.parent] at hp
            exact hap (Option.some.inj hp).symm
          exact ((hlabel t).trans (if_neg hnot)).symm
      · obtain ⟨t, ht, rfl⟩ := List.mem_map.mp hu
        exact ih t ht (hin.under (hparent t ht))

/-- A move takes a definition and the instruction behind it out of the block and puts one
    instruction there, with the value of the definition in the place of its only load. -/
theorem absorbs (V : r.Valid) : ∃ v head,
    r.Joins (r.move block index d value load p) block index d target head ∧
    r.tree d = .node d (.stloc v) [r.tree value] ∧
    (r.tree target).ops.count (.ldloc v) = 1 ∧
    Tree.Fills v (r.tree value) (r.tree target)
      ((r.move block index d value load p).tree head) ∧
    ((r.move block index d value load p).isAlive target = true → head = target) := by
  have F' := (M.valid_move V).forest
  obtain ⟨v, y, hstore, hload, hy, _, hloads, _⟩ := M.single
  obtain ⟨head, hchildren, hhead⟩ := M.children_move F
  have halive := isAlive_of_parent? (M.parent_target F)
  have hheld := F.holds_tree halive
  have hinside : load ∈ (r.tree target).labels := by
    rw [F.mem_labels hheld, label_tree]
    exact M.inside.above
  have hplant := M.holds_plant F hheld (by rw [label_tree]; exact Above.refl r target)
  have htree : (r.move block index d value load p).tree head =
      (r.tree target).plantAt load (r.tree value) := by
    have hlabel : ((r.tree target).plantAt load (r.tree value)).label = head := by
      rw [Tree.label_plantAt, label_tree, label_tree]
      rcases hhead with rfl | ⟨rfl, rfl⟩
      · -- the load is gone, so it is not what stands in the block
        refine if_neg ?_
        rintro rfl
        have hmem : head ∈ (r.move block index d value head p).children block := by
          rw [hchildren]
          simp
        exact (M.alive_move F (isAlive_of_parent? (F'.parent?_of_mem hmem))).2.2 rfl
      · exact if_pos rfl
    rw [← F'.tree_of_holds hplant, hlabel]
  refine ⟨v, head, ?_, ?_, ?_, ?_, fun hs => ?_⟩
  · have hr : r.instructions block = r.children block := if_pos M.isBlock
    have hs : (r.move block index d value load p).instructions block =
        (r.move block index d value load p).children block := if_pos (M.isBlock_move F)
    exact ⟨hr ▸ M.definition, hr ▸ M.target_eq F, by rw [hr, hs, hchildren]⟩
  · rw [F.tree_eq (isAlive_of_op? hstore), hstore, M.value]
    rfl
  · refine V.count_ldloc hy hloads hheld ?_ hinside
    rw [label_tree]
    exact M.connected_target F
  · rw [htree]
    refine F.fills_of_evaluatedFirst hload hheld ?_
    rw [label_tree]
    exact M.first
  · rcases hhead with heq | ⟨_, rfl⟩
    · exact heq
    · exact absurd rfl (M.alive_move F hs).2.2

end Movable

/-! ## Unused variables -/

/-- No node of the tree uses the variable. -/
def Unused (r : Routine) (v : VarId) : Prop := ∀ k kind, r.use? k ≠ some (kind, v)

/-- A variable that nothing uses has empty use-lists. -/
theorem Valid.isUnused (V : r.Valid) {y : Variable} (hy : r.var? v = some y) (h : r.Unused v) :
    y.isUnused = true := by
  have hempty : ∀ kind, y.uses kind = [] := by
    intro kind
    refine List.eq_nil_iff_forall_not_mem.mpr fun k hk => ?_
    exact h k kind (((V.uses v y hy kind).2 k).mp hk)
  have hloads : y.loads = [] := hempty .load
  have hstores : y.stores = [] := hempty .store
  have haddresses : y.addresses = [] := hempty .address
  simp [Variable.isUnused, hloads, hstores, haddresses]

theorem Trimmed.use? (h : Trimmed r s) {use : UseKind × VarId} (hk : s.use? k = some use) :
    r.use? k = some use := by
  obtain ⟨n, hn, hc, huse⟩ := use?_eq_some hk
  obtain ⟨m, hm, hmc⟩ := exists_node?_of_isConnected (h.joined k (isConnected_iff.mpr ⟨n, hn, hc⟩))
  have hop : some m.op = some n.op := (op?_of_node? hm).symm.trans (h.old k n.op (op?_of_node? hn))
  rw [use?_of_node? hm, if_pos hmc, Option.some.inj hop, huse]

/-- A move takes away all uses of the variable of its definition. -/
theorem Movable.unused (M : r.Movable block target index d value load p) (V : r.Valid)
    (hd : r.op? d = some (.stloc v)) : (r.move block index d value load p).Unused v := by
  obtain ⟨u, y, hstore, _, hy, hstores, hloads, haddresses⟩ := M.single
  obtain rfl : u = v := by
    cases hstore.symm.trans hd
    rfl
  intro k kind hk
  have hmem := ((V.uses u y hy kind).2 k).mpr ((Trimmed.move V M).use? hk)
  obtain ⟨n, hn, _⟩ := use?_eq_some hk
  obtain ⟨_, hkd, hkl⟩ := M.alive_move V.forest (isAlive_of_node? hn)
  cases kind with
  | load =>
    change k ∈ y.loads at hmem
    rw [hloads] at hmem
    exact hkl (List.mem_singleton.mp hmem)
  | store =>
    change k ∈ y.stores at hmem
    rw [hstores] at hmem
    exact hkd (List.mem_singleton.mp hmem)
  | address =>
    change k ∈ y.addresses at hmem
    rw [haddresses] at hmem
    cases hmem

/-! ## A sequence of moves -/

theorem mem_children_of_mem_instructions (h : k ∈ r.instructions block) : k ∈ r.children block := by
  unfold instructions at h
  split_ifs at h
  · exact h
  · cases h

theorem Forest.isAlive_of_mem_instructions (F : r.Forest) (h : k ∈ r.instructions block) :
    r.isAlive k = true :=
  F.alive_of_mem_children (mem_children_of_mem_instructions h)

theorem Forest.nodup_instructions (F : r.Forest) (block : NodeId) :
    (r.instructions block).Nodup := by
  unfold instructions
  split_ifs
  · exact F.children_nodup block
  · exact List.nodup_nil

/-- The other instructions are neither the definition nor the target. -/
theorem Joins.ne_of_mem (J : Joins r s block index d target head) (F : r.Forest)
    (hk : k ∈ (r.instructions block).take index ∨ k ∈ (r.instructions block).drop (index + 2)) :
    k ≠ d ∧ k ≠ target := by
  have hnodup := F.nodup_instructions block
  rw [J.eq_append, List.nodup_append, List.nodup_cons, List.nodup_cons] at hnodup
  obtain ⟨_, ⟨hd, ht, _⟩, hfront⟩ := hnodup
  rcases hk with hk | hk
  · exact ⟨hfront k hk d List.mem_cons_self,
      hfront k hk target (List.mem_cons_of_mem _ List.mem_cons_self)⟩
  · constructor
    · rintro rfl
      exact hd (List.mem_cons_of_mem _ hk)
    · rintro rfl
      exact ht hk

theorem Forest.above_iff_mem_tree (F : r.Forest) (hid : r.isAlive id = true) :
    r.Above id k ↔ k ∈ (r.tree id).labels := by
  rw [F.mem_labels (F.holds_tree hid), label_tree]

/-- The definitions that are still to be consumed have not been touched. -/
theorem Movable.consumed_move (M : r.Movable block target index d value load p) (V : r.Valid)
    (hk : k ∈ (r.move block index d value load p).consumed block index count) :
    r.isAlive k = true ∧ (r.move block index d value load p).isAlive k = true ∧
      (r.move block index d value load p).tree k = r.tree k := by
  have F := V.forest
  have V' := M.valid_move V
  obtain ⟨v, head, J, _⟩ := M.absorbs F V
  have hmem := List.mem_of_mem_drop hk
  have halive := V'.forest.isAlive_of_mem_instructions (List.mem_of_mem_take hmem)
  rw [J.take (Nat.le_refl index)] at hmem
  obtain ⟨hkd, hkt⟩ := J.ne_of_mem F (.inl hmem)
  have hinst := List.mem_of_mem_take hmem
  exact ⟨F.isAlive_of_mem_instructions hinst, halive,
    M.tree_move_of_ne F V'.forest (mem_children_of_mem_instructions hinst) hkd hkt⟩

namespace Moves

variable (h : Moves block target index count r s) (V : r.Valid)
include h V

theorem absorbs (hhead : (r.instructions block)[index]? = some head)
    (htarget : r.isAlive target = true → head = target) : ∃ head',
    s.instructions block = (r.instructions block).take (index - count) ++
      head' :: (r.instructions block).drop (index + 1) ∧
    Tree.Absorbs ((r.consumed block index count).map r.tree) (r.tree head) (s.tree head') := by
  induction h generalizing head with
  | @done r index =>
    obtain ⟨hlt, hget⟩ := List.getElem?_eq_some_iff.mp hhead
    refine ⟨head, ?_, ?_⟩
    · rw [← hget, Nat.sub_zero, ← List.drop_eq_getElem_cons hlt, List.take_append_drop]
    · rw [consumed_zero]
      exact .none
  | @step r s d value load p index count M hrest ih =>
    have F := V.forest
    have V' := M.valid_move V
    have hle := hrest.le
    obtain ⟨v, head₁, J, hdef, hone, hfills, hstays⟩ := M.absorbs F V
    obtain ⟨head', hs, habsorbs⟩ := ih V' J.getElem? fun halive => (hstays halive)
    obtain rfl : head = target := Option.some.inj (hhead.symm.trans J.target)
    have hfront : ((r.move block index d value load p).consumed block index count).map
        (r.move block index d value load p).tree =
        ((r.move block index d value load p).consumed block index count).map r.tree :=
      List.map_congr_left fun k hk => (M.consumed_move V hk).2.2
    refine ⟨head', ?_, ?_⟩
    · rw [hs, J.take (Nat.sub_le _ _), J.drop, Nat.add_sub_add_right]
    · rw [J.consumed_succ hle, List.map_append, List.map_cons, List.map_nil, hdef, ← hfront]
      refine .last hone ?_
      rw [← hfills.eq_substitute hone]
      exact habsorbs

/-- What lies in none of the consumed definitions and not in the target is left alone, the block
    apart. -/
theorem node?_eq (hhead : (r.instructions block)[index]? = some head) (hk : k ≠ block)
    (hdefs : ∀ i ∈ r.consumed block index count, ¬ r.Above i k) (hout : ¬ r.Above head k) :
    s.node? k = r.node? k := by
  induction h generalizing head with
  | done => rfl
  | @step r s d value load p index count M hrest ih =>
    have F := V.forest
    have V' := M.valid_move V
    obtain ⟨v, head₁, J, _, _, hfills, _⟩ := M.absorbs F V
    obtain rfl : head = target := Option.some.inj (hhead.symm.trans J.target)
    rw [J.consumed_succ hrest.le] at hdefs
    have hd : ¬ r.Above d k := hdefs d (List.mem_append_right _ (List.mem_singleton_self d))
    rw [ih V' J.getElem? ?_ ?_, M.node?_move_of_apart F hk hd hout]
    · intro i hi
      obtain ⟨halive, halive', htree⟩ := M.consumed_move V hi
      rw [V'.forest.above_iff_mem_tree halive', htree, ← F.above_iff_mem_tree halive]
      exact hdefs i (List.mem_append_left _ hi)
    · have halive := V'.forest.isAlive_of_mem_instructions (List.mem_of_getElem? J.getElem?)
      rw [V'.forest.above_iff_mem_tree halive]
      intro hin
      rcases hfills.mem_labels hin with hin | hin
      · exact hout ((F.above_iff_mem_tree (isAlive_of_parent? (M.parent_target F))).mpr hin)
      · have hvalue := (F.above_iff_mem_tree (isAlive_of_parent? (M.parent_value F))).mpr hin
        exact hd ((Above.parent (M.parent_value F)).trans hvalue)

theorem op?_of_mem_consumed {i : NodeId} (hi : i ∈ r.consumed block index count) :
    ∃ v, r.op? i = some (.stloc v) := by
  induction h with
  | @done r index =>
    rw [consumed_zero] at hi
    cases hi
  | @step r s d value load p index count M hrest ih =>
    obtain ⟨_, _, J, _⟩ := M.absorbs V.forest V
    rw [J.consumed_succ hrest.le] at hi
    rcases List.mem_append.mp hi with hi | hi
    · obtain ⟨halive, halive', _⟩ := M.consumed_move V hi
      obtain ⟨v, hv⟩ := ih (M.valid_move V) hi
      exact ⟨v, ((M.kept_move V.forest).op i halive halive').symm.trans hv⟩
    · obtain rfl := List.mem_singleton.mp hi
      exact M.store

/-- The variables of the consumed definitions are unused afterwards. -/
theorem unused {i : NodeId} (hi : i ∈ r.consumed block index count)
    (hop : r.op? i = some (.stloc v)) : ∃ y, s.var? v = some y ∧ y.isUnused = true := by
  induction h with
  | @done r index =>
    rw [consumed_zero] at hi
    cases hi
  | @step r s d value load p index count M hrest ih =>
    have V' := M.valid_move V
    obtain ⟨_, head, J, _⟩ := M.absorbs V.forest V
    rw [J.consumed_succ hrest.le] at hi
    rcases List.mem_append.mp hi with hi | hi
    · obtain ⟨halive, halive', _⟩ := M.consumed_move V hi
      exact ih V' hi (((M.kept_move V.forest).op i halive halive').trans hop)
    · obtain rfl := List.mem_singleton.mp hi
      obtain ⟨u, y, hstore, _, hy, _⟩ := M.single
      obtain rfl : u = v := by
        cases hstore.symm.trans hop
        rfl
      have hmove := Movable.sameHead_move r block index i value load p
      have hhead := (hmove.trans hrest.sameHead).var? u
      rw [hy, Option.map_some] at hhead
      obtain ⟨z, hz, _⟩ := Option.map_eq_some_iff.mp hhead
      have hfree := M.unused V hop
      refine ⟨z, hz, (hrest.valid V').isUnused hz fun k kind huse => ?_⟩
      exact hfree k kind ((hrest.trimmed V').use? huse)

end Moves

/-! ## What is left of a block -/

/-- What folding definitions in front of an index of a block into the instruction there leaves. -/
structure Folded (r s : Routine) (block target : NodeId) (index count : Nat) : Prop where
  /-- The instruction, with the values in the places of their loads, stands where the first of
      the consumed definitions stood. -/
  instructions : ∃ head, s.instructions block = (r.instructions block).take (index - count) ++
      head :: (r.instructions block).drop (index + 1) ∧
    Tree.Absorbs ((r.consumed block index count).map r.tree) (r.tree target) (s.tree head)
  /-- Nothing new is left, and what is still there is what it was. -/
  old : ∀ k op, s.op? k = some op → r.op? k = some op
  /-- Only the consumed definitions, the instruction and the block are touched. -/
  rest : ∀ k, k ≠ block → (∀ i ∈ r.consumed block index count, ¬ r.Above i k) →
    ¬ r.Above target k → s.node? k = r.node? k
  /-- The block is still in its place. -/
  place : s.op? block = r.op? block ∧ s.parent? block = r.parent? block
  unused : ∀ i ∈ r.consumed block index count, ∀ v, r.op? i = some (.stloc v) →
    ∃ y, s.var? v = some y ∧ y.isUnused = true

/-- Where nothing is folded, nothing changes. -/
theorem Folded.refl (ht : (r.instructions block)[index]? = some target) :
    r.Folded r block target index 0 := by
  obtain ⟨hlt, hget⟩ := List.getElem?_eq_some_iff.mp ht
  refine ⟨⟨target, ?_, ?_⟩, fun _ _ h => h, fun _ _ _ _ => rfl, ⟨rfl, rfl⟩, fun i hi => ?_⟩
  · rw [← hget, Nat.sub_zero, ← List.drop_eq_getElem_cons hlt, List.take_append_drop]
  · rw [consumed_zero]
    exact .none
  · rw [consumed_zero] at hi
    cases hi

theorem Moves.folded (h : Moves block target index count r s) (V : r.Valid)
    (ht : (r.instructions block)[index]? = some target) (hc : r.isConnected block = true) :
    r.Folded s block target index count := by
  obtain ⟨hb, _⟩ := getElem?_instructions ht
  obtain ⟨hb', _⟩ := h.isBlock V hb hc
  refine ⟨h.absorbs V ht fun _ => rfl, (h.trimmed V).old, fun k => h.node?_eq V ht, ⟨?_, ?_⟩,
    fun i hi v => h.unused V hi⟩
  · exact (h.kept V).op block (isAlive_of_isBlock hb) (isAlive_of_isBlock hb')
  · exact (h.trimmed V).held block hb'

/-- Outside the tree there is nothing to fold: the one load of a variable is in the tree. -/
theorem Valid.foldable?_eq_none (V : r.Valid) (htarget : r.isConnected target = false)
    (options : InlineOptions) (d : NodeId) : r.foldable? target options d = none := by
  rw [Option.eq_none_iff_forall_ne_some]
  rintro ⟨value, load⟩ h
  obtain ⟨v, y, _, _, hy, _, hl, _, _, hfirst⟩ := foldable?_eq_some.mp h
  obtain ⟨_, hconn, _⟩ := V.load_spec hy (hl ▸ List.mem_singleton_self load)
  rw [V.forest.isConnected_of_above (inside_of_evaluatedFirst hfirst).above, htarget] at hconn
  cases hconn

end Routine

/-! ## The inliner -/

namespace PassM

theorem routine_bind {β : Type} (f : Routine → PassM β) (w : Work) :
    (PassM.routine >>= f) w = f w.routine w := rfl

theorem bind_ok_iff {α β : Type} {m : PassM α} {f : α → PassM β} {w w'' : Work} {b : β} :
    (m >>= f) w = .ok b w'' ↔ ∃ a w', m w = .ok a w' ∧ f a w' = .ok b w'' := by
  simp only [bind, EStateM.bind]
  cases m w with
  | ok a w' => simp
  | error e w' => simp

/-- An edit leaves the log alone. -/
theorem log_of_edit {α : Type} {e : Edit α} {w w' : Work} {a : α}
    (h : PassM.edit e w = .ok a w') : w'.log = w.log := by
  unfold PassM.edit at h
  split at h
  · cases h
    rfl
  · cases h

theorem eq_of_instruction {block id : NodeId} {index : Nat} {w w' : Work}
    (h : PassM.instruction block index w = .ok id w') : w' = w := by
  unfold PassM.instruction at h
  obtain ⟨r, w₁, hr, h⟩ := bind_ok_iff.mp h
  cases hr
  cases hi : (w.routine.instructions block)[index]? with
  | none =>
    rw [hi] at h
    cases h
  | some inst =>
    rw [hi] at h
    cases h
    rfl

theorem instruction_eq {block id : NodeId} {index : Nat} {w : Work}
    (h : (w.routine.instructions block)[index]? = some id) :
    PassM.instruction block index w = .ok id w := by
  unfold PassM.instruction
  refine bind_ok_iff.mpr ⟨w.routine, w, rfl, ?_⟩
  rw [h]
  rfl

/-- A note about a node is one event of its kind. -/
theorem noted_of_noteNode {pass : String} {kind : EventKind} {location : Nat} {id : NodeId}
    {w w' : Work} (h : PassM.noteNode pass kind location id w = .ok () w') :
    ∃ e : Event, e.kind = kind ∧ w' = w.noted e := by
  cases h
  exact ⟨_, rfl, rfl⟩

end PassM

namespace Inliner

open Routine PassM

variable {w w' : Work} {block target : NodeId} {index count : Nat} {options : InlineOptions}

/-- The inliner records one event for each definition that it consumes. -/
theorem foldInto_events (h : foldInto block target options index w = .ok count w') :
    ∃ es, w'.log.events = w.log.events ++ es ∧ es.length = count ∧
      ∀ e ∈ es, e.kind = .valueInlined := by
  induction index generalizing w count with
  | zero =>
    cases h
    exact ⟨[], (List.append_nil _).symm, rfl, fun _ he => absurd he List.not_mem_nil⟩
  | succ index ih =>
    rw [foldInto] at h
    obtain ⟨d, w₁, hd, h₁⟩ := bind_ok_iff.mp h
    obtain ⟨r, w₂, hr, h₂⟩ := bind_ok_iff.mp h₁
    cases hr
    have hw := congrArg Work.log (eq_of_instruction hd)
    cases hf : w₁.routine.foldable? target options d with
    | none =>
      rw [hf] at h₂
      cases h₂
      exact ⟨[], by rw [hw, List.append_nil], rfl, fun _ he => absurd he List.not_mem_nil⟩
    | some pair =>
      rw [hf] at h₂
      obtain ⟨value, w₂, hextract, h₃⟩ := bind_ok_iff.mp h₂
      obtain ⟨_, w₃, hreplace, h₄⟩ := bind_ok_iff.mp h₃
      obtain ⟨_, w₄, hremove, h₅⟩ := bind_ok_iff.mp h₄
      obtain ⟨_, w₅, hnote, h₆⟩ := bind_ok_iff.mp h₅
      obtain ⟨more, w₆, hmore, hdone⟩ := bind_ok_iff.mp h₆
      cases hdone
      obtain ⟨es, hes, hlen, hkinds⟩ := ih hmore
      obtain ⟨e, hkind, rfl⟩ := noted_of_noteNode hnote
      refine ⟨e :: es, ?_, congrArg Nat.succ hlen, List.forall_mem_cons.mpr ⟨hkind, hkinds⟩⟩
      rw [hes, ← hw, ← log_of_edit hextract, ← log_of_edit hreplace, ← log_of_edit hremove]
      exact List.append_assoc _ _ _

/-- Nothing is folded exactly if the nearest definition cannot be folded. -/
theorem foldInto_eq_zero_iff {d : NodeId}
    (hd : (w.routine.instructions block)[index]? = some d) :
    foldInto block target options (index + 1) w = .ok 0 w' ↔
      w.routine.foldable? target options d = none ∧ w' = w := by
  rw [foldInto, bind_ok_iff]
  simp only [instruction_eq hd, routine_bind]
  cases hf : w.routine.foldable? target options d with
  | none =>
    constructor
    · rintro ⟨_, _, heq, h⟩
      cases heq
      rw [hf] at h
      cases h
      exact ⟨rfl, rfl⟩
    · rintro ⟨_, heq⟩
      refine ⟨d, w, rfl, ?_⟩
      rw [hf, heq]
      rfl
  | some pair =>
    constructor
    · rintro ⟨_, _, heq, h⟩
      cases heq
      rw [hf] at h
      obtain ⟨_, _, _, h₁⟩ := bind_ok_iff.mp h
      obtain ⟨_, _, _, h₂⟩ := bind_ok_iff.mp h₁
      obtain ⟨_, _, _, h₃⟩ := bind_ok_iff.mp h₂
      obtain ⟨_, _, _, h₄⟩ := bind_ok_iff.mp h₃
      obtain ⟨_, _, _, hdone⟩ := bind_ok_iff.mp h₄
      cases hdone
    · rintro ⟨h, _⟩
      cases h

theorem foldInto_of_isConnected_eq_false (V : w.routine.Valid)
    (htarget : w.routine.isConnected target = false)
    (hlen : index ≤ (w.routine.instructions block).length) :
    foldInto block target options index w = .ok 0 w := by
  cases index with
  | zero => rfl
  | succ index =>
    have hd := List.getElem?_eq_getElem (Nat.lt_of_succ_le hlen)
    exact (foldInto_eq_zero_iff hd).mpr ⟨V.foldable?_eq_none htarget options _, rfl⟩

/-- At an instruction of the block, the inliner folds into this instruction. -/
theorem singleUse_eq (ht : (w.routine.instructions block)[index]? = some target) :
    singleUse block index options w = foldInto block target options index w := by
  unfold singleUse
  simp only [routine_bind, ht]

theorem singleUse_eq_zero (ht : (w.routine.instructions block)[index]? = none) :
    singleUse block index options w = .ok 0 w := by
  unfold singleUse
  simp only [routine_bind, ht]
  rfl

/-- The inliner is not refused on a valid routine. Either it does nothing, or it makes moves into
    an instruction of a block of the tree. -/
theorem singleUse_moves (V : w.routine.Valid) (block : NodeId) (index : Nat)
    (options : InlineOptions) :
    ∃ count w', singleUse block index options w = .ok count w' ∧ (count = 0 ∧ w' = w ∨
      ∃ target, (w.routine.instructions block)[index]? = some target ∧
        w.routine.isConnected block = true ∧
        Moves block target index count w.routine w'.routine) := by
  cases ht : (w.routine.instructions block)[index]? with
  | none => exact ⟨0, w, singleUse_eq_zero ht, .inl ⟨rfl, rfl⟩⟩
  | some target =>
    obtain ⟨hblock, hchild⟩ := getElem?_instructions ht
    obtain ⟨hlt, _⟩ := List.getElem?_eq_some_iff.mp ht
    rw [singleUse_eq ht]
    cases hconn : w.routine.isConnected block with
    | true =>
      obtain ⟨hlt', _⟩ := List.getElem?_eq_some_iff.mp hchild
      have hends : Ends (foldInto block target options index) w _ :=
        foldInto_ends (w := w) V hblock hconn (Nat.le_of_lt hlt') fun _ => hchild
      obtain ⟨count, w', hfold, hmoves, _⟩ := hends
      exact ⟨count, w', hfold, .inr ⟨target, rfl, rfl, hmoves⟩⟩
    | false =>
      have htarget : w.routine.isConnected target = false :=
        (V.forest.shared (V.forest.parent?_of_mem (List.mem_of_getElem? hchild))).trans hconn
      exact ⟨0, w, foldInto_of_isConnected_eq_false V htarget (Nat.le_of_lt hlt), .inl ⟨rfl, rfl⟩⟩

theorem singleUse_events (h : singleUse block index options w = .ok count w') :
    ∃ es, w'.log.events = w.log.events ++ es ∧ es.length = count ∧
      ∀ e ∈ es, e.kind = .valueInlined := by
  cases ht : (w.routine.instructions block)[index]? with
  | none =>
    rw [singleUse_eq_zero ht] at h
    cases h
    exact ⟨[], (List.append_nil _).symm, rfl, fun _ he => absurd he List.not_mem_nil⟩
  | some target =>
    rw [singleUse_eq ht] at h
    exact foldInto_events h

/-- The inliner folds definitions into an instruction of a valid routine. It answers how many it
    has consumed, and consumes none where there is no instruction. Otherwise the instruction comes
    into the place of the definitions, with the value of each in the place of its only load;
    their variables are unused, no other node is touched, and each of them is in the log. -/
theorem singleUse_folds (hreach : Reachable w.routine) (hvalid : w.routine.validate = .ok ())
    (block : NodeId) (index : Nat) (options : InlineOptions) :
    ∃ count w', singleUse block index options w = .ok count w' ∧ count ≤ index ∧
      (w.routine.isBlock block = false ∨ (w.routine.instructions block).length ≤ index →
        count = 0 ∧ w' = w) ∧
      (∀ target, (w.routine.instructions block)[index]? = some target →
        w.routine.Folded w'.routine block target index count) ∧
      ∃ es, w'.log.events = w.log.events ++ es ∧ es.length = count ∧
        ∀ e ∈ es, e.kind = .valueInlined := by
  have V := (Routine.valid_iff hreach).mp hvalid
  obtain ⟨count, w', hcall, hmoves⟩ := singleUse_moves V block index options
  have hevents := singleUse_events hcall
  refine ⟨count, w', hcall, ?_⟩
  rcases hmoves with ⟨rfl, rfl⟩ | ⟨target, ht, hconn, hmoves⟩
  · exact ⟨Nat.zero_le _, fun _ => ⟨rfl, rfl⟩, fun target ht => Folded.refl ht, hevents⟩
  · obtain ⟨hblock, _⟩ := getElem?_instructions ht
    obtain ⟨hlt, _⟩ := List.getElem?_eq_some_iff.mp ht
    refine ⟨hmoves.le, fun hnone => ?_, fun target' ht' => ?_, hevents⟩
    · rcases hnone with hnot | hpast
      · rw [hblock] at hnot
        cases hnot
      · omega
    · cases ht.symm.trans ht'
      exact hmoves.folded V ht hconn

namespace Sample

def item : TypeDecl := ⟨⟨0x02000001⟩, "Shop", "Item", 0, .object⟩

def make : CallSite where
  kind := .call
  method := ⟨⟨0x06000002⟩, "Make", item, item, 0, 0x10⟩

/-- The calls that build a routine with two stack slots, each filled by a call:

      stloc s(call Make())
      stloc t(call Make())
      stobj Item(ldloc s, ldloc t) -/
def twoSlots : List Primitive :=
  [ .declare .stackSlot 0 "s" item, .declare .stackSlot 1 "t" item, .newBlock ⟨0⟩ .controlFlow,
    .create (.call make) [], .create (.stloc ⟨0⟩) [⟨2⟩], .push ⟨1⟩ ⟨3⟩,
    .create (.call make) [], .create (.stloc ⟨1⟩) [⟨4⟩], .push ⟨1⟩ ⟨5⟩,
    .load ⟨0⟩, .load ⟨1⟩, .create (.stobj item) [⟨6⟩, ⟨7⟩], .push ⟨1⟩ ⟨8⟩]

def build (calls : List Primitive) : Routine :=
  calls.foldl Primitive.after (Routine.empty ⟨0x06000001⟩ "Fill")

end Sample

set_option maxRecDepth 8000 in
/-- Both calls come into the place of the loads, and the slots are unused. -/
theorem folds_two_slots :
    let r := Sample.build Sample.twoSlots
    r.instructions ⟨1⟩ = [⟨3⟩, ⟨5⟩, ⟨8⟩] ∧
    ∃ w', singleUse ⟨1⟩ 2 ⟨0⟩ { routine := r } = .ok 2 w' ∧
      r.Folded w'.routine ⟨1⟩ ⟨8⟩ 2 2 ∧
      w'.routine.instructions ⟨1⟩ = [⟨8⟩] ∧ w'.routine.children ⟨8⟩ = [⟨2⟩, ⟨4⟩] ∧
      w'.log.events.map Event.kind = [.valueInlined, .valueInlined] := by
  intro r
  have hreach : Reachable r := (Reachable.empty _ _).after Sample.twoSlots
  have hcall : singleUse ⟨1⟩ 2 ⟨0⟩ { routine := r } = .ok 2 _ :=
    eq_ok_of_answer? (by decide +kernel)
  obtain ⟨_, _, hsame, _, _, hfolded, _⟩ :=
    singleUse_folds (w := { routine := r }) hreach (by decide +kernel) ⟨1⟩ 2 ⟨0⟩
  cases hcall.symm.trans hsame
  exact ⟨by decide +kernel, _, hcall, hfolded ⟨8⟩ (by decide +kernel), by decide +kernel⟩

end Inliner

end CilFold
