/-
  What the structural edits leave, in full: which handles die, which child list changes and
  how, and what becomes of each use-list, in order. All four are of one form, `Spliced`, with
  the nodes that leave and the nodes that enter (`Edit.structural_splices`).

  That an edit leaves no stray uses is read off this form (`Spliced.noStrayUses`), so that it
  holds of every routine that calls can reach, and each edit may take it of the one before.
-/
import CilFold.Proofs.Reachable
import CilFold.Proofs.UseOrder

namespace CilFold

namespace Routine

variable {r s : Routine} {block container id inst new owner k p root : NodeId} {v : VarId}
  {kind : UseKind} {ids slots dead leaving entering : List NodeId} {n : Node} {t : Tree NodeId}

/-- The child list of `owner` has become `slots`: the nodes `leaving` are no longer below it, the
    nodes `entering` are, in the order in which they are listed in use-lists, and the nodes
    `dead` are destroyed. -/
structure Spliced (r s : Routine) (owner : NodeId) (slots dead leaving entering : List NodeId) :
    Prop where
  head : SameHead r s
  stays : owner ∉ dead
  dies : ∀ k, r.isAlive k = true → (s.isAlive k = false ↔ k ∈ dead)
  born : ∀ k, s.isAlive k = true → r.isAlive k = true ∨ k ∈ entering
  op : ∀ k, r.isAlive k = true → s.isAlive k = true → s.op? k = r.op? k
  children : ∀ k, k ∉ dead → s.children k = if k = owner then slots else r.children k
  fresh : entering.Nodup ∧ ∀ k ∈ entering, r.isConnected k = false
  connected : ∀ k, s.isConnected k = true ↔
    if r.isConnected owner = true then r.isConnected k = true ∧ k ∉ leaving ∨ k ∈ entering
    else r.isConnected k = true
  uses : ∀ v, v.index < r.vars.size → ∀ kind, s.uses v kind =
    if r.isConnected owner = true then
      (r.uses v kind).filter (· ∉ leaving) ++ s.foundUses entering kind v
    else r.uses v kind

/-! ## Use-lists under the parts of an edit -/

theorem op?_foldl_mark (connected : Bool) (ids : List NodeId) (r : Routine) (k : NodeId) :
    (ids.foldl (mark connected) r).op? k = r.op? k := by
  induction ids generalizing r with
  | nil => rfl
  | cons id ids ih => rw [List.foldl_cons, ih, op?_mark]

theorem foundUses_congr (h : ∀ k ∈ ids, s.op? k = r.op? k) (kind : UseKind) (v : VarId) :
    s.foundUses ids kind v = r.foundUses ids kind v :=
  List.filter_congr fun k hk => by rw [h k hk]

theorem mem_foundUses : k ∈ r.foundUses ids kind v ↔
    k ∈ ids ∧ (r.op? k).bind Op.use? = some (kind, v) := by
  rw [foundUses, List.mem_filter, beq_iff_eq]

/-- A subtree that is connected with its parent is listed at the end of the use-lists. -/
theorem uses_connectBelow (N : r.NoStrayUses) (hids : r.rightFirst root = ids) (hnd : ids.Nodup)
    (hloose : ∀ k ∈ ids, r.isConnected k = false) (hv : v.index < r.vars.size) (kind : UseKind) :
    (r.connectBelow p root).uses v kind =
      if r.isConnected p = true then r.uses v kind ++ (r.connectBelow p root).foundUses ids kind v
      else r.uses v kind := by
  unfold connectBelow
  split_ifs
  · rw [connect, hids, uses_foldl_mark_true N hnd hloose hv]
    congr 1
    exact (foundUses_congr (fun k _ => op?_foldl_mark true ids r k) kind v).symm
  · rfl

/-- Use-lists name no nodes outside the tree, so nothing is dropped for such nodes. -/
theorem NoStrayUses.filter_eq_self (N : r.NoStrayUses) (hloose : ∀ k ∈ ids, r.isConnected k = false)
    (v : VarId) (kind : UseKind) : (r.uses v kind).filter (· ∉ ids) = r.uses v kind := by
  refine List.filter_eq_self.mpr fun k hk => decide_eq_true fun hmem => ?_
  have hu := (N v kind).2 k hk
  rw [use?_of_loose (hloose k hmem)] at hu
  cases hu

theorem NoStrayUses.destroy (N : r.NoStrayUses)
    (hloose : ∀ k ∈ r.preorder root, r.isConnected k = false) : (r.destroy root).NoStrayUses := by
  refine N.congr (fun _ _ => rfl) fun k u hu => ?_
  have hk : k ∉ r.preorder root := by
    intro hk
    rw [use?_of_loose (hloose k hk)] at hu
    cases hu
  rwa [use?, node?_destroy, if_neg hk]

theorem isAlive_congr (h : s.op? k = r.op? k) : s.isAlive k = r.isAlive k := by
  have hsome := congrArg Option.isSome h
  simpa only [isAlive, op?, Option.isSome_map] using hsome

/-- After a subtree was destroyed, the other nodes are alive that were. -/
theorem isAlive_of_cut (h : s.op? k = if r.encloses id k = true then none else r.op? k) :
    s.isAlive k = (r.isAlive k && !r.encloses id k) := by
  by_cases hk : r.encloses id k = true
  · rw [if_pos hk] at h
    rw [hk, isAlive, Option.map_eq_none_iff.mp h]
    exact (Bool.and_false _).symm
  · rw [if_neg hk] at h
    rw [isAlive_congr h, Bool.eq_false_iff.mpr hk]
    exact (Bool.and_true _).symm

/-! Use-lists are read off the variables, so changes of nodes alone leave them as they are. -/

theorem uses_destroy (r : Routine) (root : NodeId) (v : VarId) (kind : UseKind) :
    (r.destroy root).uses v kind = r.uses v kind := rfl

theorem uses_modifyNode (r : Routine) (id : NodeId) (f : Node → Node) (v : VarId)
    (kind : UseKind) : (r.modifyNode id f).uses v kind = r.uses v kind := rfl

theorem uses_grow (r : Routine) (op : Op) (children : List NodeId) (v : VarId) (kind : UseKind) :
    (r.grow op children).uses v kind = r.uses v kind :=
  uses_congr (by rw [var?, vars_grow, var?]) kind

theorem uses_detach (r : Routine) (p id : NodeId) (v : VarId) (kind : UseKind) :
    (r.detach p id).uses v kind = (r.disconnect id).uses v kind := by
  rw [detach, uses_modifyNode, mapChildren, uses_modifyNode, uses_grow, setParent, uses_modifyNode]

namespace Forest

variable (F : r.Forest)
include F

theorem mem_backward (hid : r.isAlive id = true) :
    k ∈ (r.tree id).backward ↔ r.encloses id k = true := by
  rw [(r.tree id).backward_perm.mem_iff, F.mem_labels (F.holds_tree hid), label_tree,
    F.encloses_iff]

theorem mem_labels_tree (hid : r.isAlive id = true) :
    k ∈ (r.tree id).labels ↔ r.encloses id k = true := by
  rw [F.mem_labels (F.holds_tree hid), label_tree, F.encloses_iff]

theorem nodup_backward (hid : r.isAlive id = true) : (r.tree id).backward.Nodup :=
  (r.tree id).backward_perm.nodup_iff.mpr (F.nodup_labels (F.holds_tree hid))

theorem rightFirst_eq_backward (hid : r.isAlive id = true) :
    r.rightFirst id = (r.tree id).backward := by
  have h := F.rightFirst_of_holds (F.holds_tree hid)
  rwa [label_tree] at h

/-- The nodes below a detached one are outside the tree. -/
theorem loose_of_detached (hd : r.Detached id) (hk : k ∈ (r.tree id).backward) :
    r.isConnected k = false := by
  rw [F.mem_backward hd.alive, F.encloses_iff] at hk
  rw [F.isConnected_of_above hk, hd.loose]

/-- The nodes below a child are connected with the parent. -/
theorem isConnected_of_mem_labels (hid : r.parent? id = some p) (hk : k ∈ (r.tree id).labels) :
    r.isConnected k = r.isConnected p := by
  obtain ⟨n, hn, _⟩ := exists_node?_of_parent? hid
  rw [F.mem_labels_tree (isAlive_of_node? hn), F.encloses_iff] at hk
  rw [F.isConnected_of_above hk, F.shared hid]

theorem uses_disconnect (N : r.NoStrayUses) (hid : r.isAlive id = true) (v : VarId)
    (kind : UseKind) :
    (r.disconnect id).uses v kind = (r.uses v kind).filter (· ∉ (r.tree id).labels) := by
  rw [disconnect, uses_foldl_mark_false N, F.rightFirst_eq_backward hid]
  simp only [(r.tree id).backward_perm.mem_iff]

/-- A detached tree that gets a parent in the tree is listed at the end of the use-lists. Above
    it and beside it, `cut` may differ from `r`. -/
theorem uses_attach {cut : Routine} (N : cut.NoStrayUses) (hd : r.Detached new)
    (hsize : cut.nodes.size = r.nodes.size)
    (hkeep : ∀ k, r.Above new k →
      k ≠ p ∧ cut.children k = r.children k ∧ cut.isConnected k = r.isConnected k)
    (f : List NodeId → List NodeId) (hv : v.index < cut.vars.size) (kind : UseKind) :
    (((cut.mapChildren p f).setParent new (some p)).connectBelow p new).uses v kind =
      if cut.isConnected p = true then
        cut.uses v kind ++ (((cut.mapChildren p f).setParent new (some p)).connectBelow p
          new).foundUses (r.tree new).backward kind v
      else cut.uses v kind := by
  have hchild : ∀ k, r.Above new k →
      ((cut.mapChildren p f).setParent new (some p)).children k = r.children k := by
    intro k hk
    obtain ⟨hne, hsame, _⟩ := hkeep k hk
    refine ((children_of_map (node?_modifyNode_map _ new _ k) fun n => ?_).trans
      (children_of_map (node?_modifyNode_map cut p _ k) fun n => ?_)).trans hsame
    · split_ifs <;> rfl
    · rw [if_neg hne]
  have hids : ((cut.mapChildren p f).setParent new (some p)).rightFirst new =
      (r.tree new).backward :=
    (F.rightFirst_congr (by simpa [mapChildren, setParent] using hsize) hchild).trans
      (F.rightFirst_eq_backward hd.alive)
  have hloose : ∀ k ∈ (r.tree new).backward,
      ((cut.mapChildren p f).setParent new (some p)).isConnected k = false := by
    intro k hk
    have habove := F.encloses_iff.mp ((F.mem_backward hd.alive).mp hk)
    rw [isConnected_relink, (hkeep k habove).2.2]
    exact F.loose_of_detached hd hk
  rw [uses_connectBelow ((N.mapChildren p f).setParent new _) hids (F.nodup_backward hd.alive)
    hloose hv, isConnected_relink, setParent, uses_modifyNode, mapChildren, uses_modifyNode]

/-- What is below a detached node is not below a node with a parent. -/
theorem apart_of_detached (hid : r.parent? id = some p) (hd : r.Detached new)
    (hbelow : ¬ r.Above new id) (hk : r.Above new k) : ¬ r.encloses id k = true := by
  rw [F.encloses_iff]
  intro hk'
  rcases hk.total hk' with h | h
  · exact hbelow h
  · exact hd.not_above_of_parent? hid h

/-- Below a node that leaves, use-lists lose something only if it was in the tree. -/
theorem filter_of_detaching (N : r.NoStrayUses) (hid : r.parent? id = some p)
    (hp : ¬ r.isConnected p = true) (v : VarId) (kind : UseKind) :
    (r.uses v kind).filter (· ∉ (r.tree id).labels) = r.uses v kind := by
  refine N.filter_eq_self (fun k hk => ?_) v kind
  rw [F.isConnected_of_mem_labels hid hk, Bool.eq_false_iff]
  exact hp

/-- Emptying a slot takes the uses below it out of the use-lists; a replacement then lists those
    of the new node. -/
theorem uses_putInSlot (N : r.NoStrayUses) (hid : r.parent? id = some p) (hd : r.Detached new)
    (hbelow : ¬ r.Above new id) (hv : v.index < r.vars.size) (kind : UseKind) :
    (r.putInSlot p id new).uses v kind =
      if r.isConnected p = true then
        (r.uses v kind).filter (· ∉ (r.tree id).labels) ++
          (r.putInSlot p id new).foundUses (r.tree new).backward kind v
      else r.uses v kind := by
  obtain ⟨n, hn, _⟩ := exists_node?_of_parent? hid
  have hlive := isAlive_of_node? hn
  have Ncut : ((r.disconnect id).destroy id).NoStrayUses :=
    (N.foldl_mark_false (r.rightFirst id)).destroy fun k hk =>
      loose_of_mem_preorder_disconnect F rfl hlive hlive (fun _ _ => rfl) hk
  have hkeep : ∀ k, ¬ r.encloses id k = true →
      ((r.disconnect id).destroy id).node? k = r.node? k := fun k hk =>
    (node?_disconnect_destroy F rfl hlive hlive (fun _ _ => rfl) k).trans (if_neg hk)
  have hpid : ¬ r.encloses id p = true := F.encloses_iff.not.mpr (F.not_above_parent hid)
  have hbeside : ∀ k, r.Above new k →
      k ≠ p ∧ ((r.disconnect id).destroy id).children k = r.children k ∧
        ((r.disconnect id).destroy id).isConnected k = r.isConnected k := by
    intro k hk
    have hnode := hkeep k (F.apart_of_detached hid hd hbelow hk)
    refine ⟨?_, by rw [children, hnode, children], by rw [isConnected, hnode, isConnected]⟩
    rintro rfl
    exact hbelow (hk.under hid)
  have hsize := ((sameHead_disconnect r id).trans (sameHead_destroy _ id)).size_vars
  rw [Routine.putInSlot, F.uses_attach Ncut hd (by simp) hbeside (·.replace id new) (hsize ▸ hv),
    uses_destroy, F.uses_disconnect N hlive, isConnected, hkeep p hpid, ← isConnected]
  split_ifs with hc
  · rfl
  · exact F.filter_of_detaching N hid hc v kind

end Forest

/-! ## The edits -/

section Edits

variable (F : r.Forest) (N : r.NoStrayUses)
include F N

theorem spliced_insertAt (hblock : r.isAlive block = true) (hd : r.Detached inst)
    (hbelow : ¬ r.Above inst block) (index : Nat) :
    Spliced r (r.insertAt block index inst) block ((r.children block).insertIdx index inst) [] []
      (r.tree inst).backward := by
  have view := views_insertAt F hd.alive hblock hbelow index
  have halive := fun k => isAlive_congr (view k).op
  refine ⟨sameHead_insertAt r block index inst, List.not_mem_nil, fun k hk => ?_, fun k hk => ?_,
    fun k _ _ => (view k).op, fun k _ => ?_, ⟨F.nodup_backward hd.alive, fun k hk =>
      F.loose_of_detached hd hk⟩, fun k => ?_, fun v hv kind => ?_⟩
  · rw [halive, hk]
    simp
  · rw [halive] at hk
    exact .inl hk
  · rw [(view k).children]
    split_ifs with hk
    · rw [hk]
    · rfl
  · rw [(view k).connected, F.mem_backward hd.alive]
    cases r.isConnected block <;> simp
  · simp only [List.not_mem_nil, not_false_eq_true, decide_true, List.filter_true]
    refine F.uses_attach N hd rfl (fun k hk => ⟨?_, rfl, rfl⟩) _ hv kind
    rintro rfl
    exact hbelow hk

theorem spliced_deleteAt (hinst : r.parent? inst = some block) (index : Nat) :
    Spliced r (r.deleteAt block index inst) block ((r.children block).eraseIdx index)
      (r.tree inst).labels (r.tree inst).labels [] := by
  obtain ⟨n, hn, _⟩ := exists_node?_of_parent? hinst
  have hgone := fun k => F.mem_labels_tree (k := k) (isAlive_of_node? hn)
  have view := views_deleteAt F hinst index
  have halive := fun k => isAlive_of_cut (view k).op
  refine ⟨sameHead_deleteAt r block index inst, ?_, fun k hk => ?_, fun k hk => ?_,
    fun k _ hk => ?_, fun k hk => ?_, ⟨List.nodup_nil, fun k hk => absurd hk List.not_mem_nil⟩,
    fun k => ?_, fun v hv kind => ?_⟩
  · rw [hgone, F.encloses_iff]
    exact F.not_above_parent hinst
  · rw [hgone, halive, hk]
    simp
  · rw [halive, Bool.and_eq_true] at hk
    exact .inl hk.1
  · rw [halive, Bool.and_eq_true, Bool.not_eq_true', ← Bool.not_eq_true] at hk
    rw [(view k).op, if_neg hk.2]
  · rw [hgone] at hk
    rw [(view k).children, if_neg hk]
    split_ifs with hb
    · rw [hb]
    · rfl
  · rw [(view k).connected, hgone]
    by_cases henc : r.encloses inst k = true
    · rw [F.isConnected_of_mem_labels hinst ((hgone k).mpr henc)]
      cases r.isConnected block <;> simp [henc]
    · cases r.isConnected block <;> simp [henc]
  · have hids : (r.mapChildren block (·.eraseIdx index)).rightFirst inst =
        (r.tree inst).backward :=
      (F.rightFirst_congr (size_modifyNode r _ _) (children_eraseIdx_of_above F hinst index)).trans
        (F.rightFirst_eq_backward (isAlive_of_node? hn))
    have huses : (r.deleteAt block index inst).uses v kind =
        (r.uses v kind).filter (· ∉ (r.tree inst).labels) := by
      rw [deleteAt, uses_destroy, disconnect, hids, uses_foldl_mark_false (N.mapChildren block _),
        mapChildren, uses_modifyNode]
      simp only [(r.tree inst).backward_perm.mem_iff]
    rw [huses]
    split_ifs with hc
    · exact (List.append_nil _).symm
    · exact F.filter_of_detaching N hinst hc v kind

theorem spliced_putInSlot (hid : r.parent? id = some p) (hd : r.Detached new)
    (hbelow : ¬ r.Above new id) :
    Spliced r (r.putInSlot p id new) p ((r.children p).replace id new) (r.tree id).labels
      (r.tree id).labels (r.tree new).backward := by
  obtain ⟨n, hn, _⟩ := exists_node?_of_parent? hid
  have hlive := isAlive_of_node? hn
  have hgone := fun k => F.mem_labels_tree (k := k) hlive
  have view := views_putInSlot F hid hd.alive hd.top hbelow
  have halive := fun k => isAlive_of_cut (view k).op
  refine ⟨sameHead_putInSlot r p id new, ?_, fun k hk => ?_, fun k hk => ?_,
    fun k _ hk => ?_, fun k hk => ?_, ⟨F.nodup_backward hd.alive, fun k hk =>
      F.loose_of_detached hd hk⟩, fun k => ?_, fun v hv kind => ?_⟩
  · rw [hgone, F.encloses_iff]
    exact F.not_above_parent hid
  · rw [hgone, halive, hk]
    simp
  · rw [halive, Bool.and_eq_true] at hk
    exact .inl hk.1
  · rw [halive, Bool.and_eq_true, Bool.not_eq_true', ← Bool.not_eq_true] at hk
    rw [(view k).op, if_neg hk.2]
  · rw [hgone] at hk
    rw [(view k).children, if_neg hk]
    split_ifs with hp
    · rw [hp]
    · rfl
  · rw [(view k).connected, hgone, F.mem_backward hd.alive]
    by_cases henc : r.encloses id k = true
    · have hnew : ¬ r.encloses new k = true := fun h =>
        F.apart_of_detached hid hd hbelow (F.encloses_iff.mp h) henc
      rw [F.isConnected_of_mem_labels hid ((hgone k).mpr henc)]
      cases r.isConnected p <;> simp [henc, hnew]
    · cases r.isConnected p <;> simp [henc]
  · exact F.uses_putInSlot N hid hd hbelow hv kind

theorem spliced_detach (hid : r.parent? id = some p) :
    Spliced r (r.detach p id) p ((r.children p).replace id r.nextId) [] (r.tree id).labels
      [r.nextId] := by
  obtain ⟨n, hn, _⟩ := exists_node?_of_parent? hid
  have hlive := isAlive_of_node? hn
  have view := views_detach F hid
  have hkept : ∀ k, k ≠ r.nextId → (r.detach p id).op? k = r.op? k := fun k hk => by
    rw [(view k).op, if_neg hk]
  refine ⟨sameHead_detach r p id, List.not_mem_nil, fun k hk => ?_, fun k hk => ?_,
    fun k hk _ => hkept k ?_, fun k _ => ?_, ⟨List.nodup_singleton _, fun k hk => ?_⟩,
    fun k => ?_, fun v hv kind => ?_⟩
  · have hne : k ≠ r.nextId := (ne_of_dead (node?_nextId r) hk).symm
    rw [isAlive_congr (hkept k hne), hk]
    simp
  · by_cases hne : k = r.nextId
    · exact .inr (List.mem_singleton.mpr hne)
    · rw [isAlive_congr (hkept k hne)] at hk
      exact .inl hk
  · exact (ne_of_dead (node?_nextId r) hk).symm
  · rw [(view k).children]
    split_ifs with hp
    · rw [hp]
    · rfl
  · rw [List.mem_singleton.mp hk]
    exact isConnected_of_dead (node?_nextId r)
  · rw [(view k).connected, F.mem_labels_tree hlive, List.mem_singleton]
    by_cases hk : k = r.nextId
    · have hout := isConnected_of_dead (node?_nextId r)
      rw [if_pos hk, hk, hout]
      cases r.isConnected p <;> simp
    · rw [if_neg hk]
      by_cases henc : r.encloses id k = true
      · have hlab := (F.mem_labels_tree hlive).mpr henc
        rw [F.isConnected_of_mem_labels hid hlab]
        cases r.isConnected p <;> simp [henc, hk]
      · cases r.isConnected p <;> simp [henc, hk]
  · have hnop : (r.detach p id).op? r.nextId = some .nop := by rw [(view _).op, if_pos rfl]
    have hnone : (r.detach p id).foundUses [r.nextId] kind v = [] := by
      rw [foundUses_singleton, hnop]
      exact if_neg fun h => (nomatch h)
    rw [uses_detach, F.uses_disconnect N hlive, hnone, List.append_nil]
    split_ifs with hc
    · rfl
    · exact F.filter_of_detaching N hid hc v kind

end Edits

/-! ## Reachable routines -/

/-- An edit leaves no stray uses: what stays in a use-list stays in the tree, and what is added
    comes into the tree. -/
theorem Spliced.noStrayUses (h : Spliced r s owner slots dead leaving entering)
    (N : r.NoStrayUses) : s.NoStrayUses := by
  intro v kind
  by_cases hv : v.index < r.vars.size
  · obtain ⟨hnd, hmem⟩ := N v kind
    have hold : ∀ k ∈ r.uses v kind, s.isConnected k = true → s.use? k = some (kind, v) := by
      intro k hk hc
      obtain ⟨n, hn, _, hu⟩ := use?_eq_some (hmem k hk)
      obtain ⟨m, hm, hmc⟩ := exists_node?_of_isConnected hc
      have hop := h.op k (isAlive_of_node? hn) (isAlive_of_node? hm)
      rw [op?_of_node? hm, op?_of_node? hn, Option.some.injEq] at hop
      rw [use?_of_node? hm, if_pos hmc, hop, hu]
    have hlisted : ∀ k ∈ r.uses v kind, r.isConnected k = true := by
      intro k hk
      obtain ⟨n, hn, hc, _⟩ := use?_eq_some (hmem k hk)
      exact (isConnected_of_node? hn).trans hc
    rw [h.uses v hv]
    by_cases hown : r.isConnected owner = true
    · simp only [if_pos hown] at h ⊢
      refine ⟨List.nodup_append.mpr ⟨hnd.filter _, h.fresh.1.filter _, ?_⟩, fun k hk => ?_⟩
      · intro a ha b hb hab
        have hb := h.fresh.2 b (mem_foundUses.mp hb).1
        rw [← hab, hlisted a (List.mem_of_mem_filter ha)] at hb
        cases hb
      · rcases List.mem_append.mp hk with hk | hk
        · obtain ⟨hk, hstay⟩ := List.mem_filter.mp hk
          refine hold k hk ((h.connected k).mpr ?_)
          rw [if_pos hown]
          exact .inl ⟨hlisted k hk, of_decide_eq_true hstay⟩
        · obtain ⟨hk, hu⟩ := mem_foundUses.mp hk
          obtain ⟨op, hop, hu⟩ := Option.bind_eq_some_iff.mp hu
          obtain ⟨n, hn, rfl⟩ := Option.map_eq_some_iff.mp hop
          have hc := (h.connected k).mpr (by rw [if_pos hown]; exact .inr hk)
          rw [isConnected_of_node? hn] at hc
          rw [use?_of_node? hn, if_pos hc, hu]
    · rw [if_neg hown]
      refine ⟨hnd, fun k hk => hold k hk ((h.connected k).mpr ?_)⟩
      rw [if_neg hown]
      exact hlisted k hk
  · rw [uses_of_undeclared (by rwa [h.head.size_vars])]
    exact ⟨List.nodup_nil, fun k hk => absurd hk List.not_mem_nil⟩

theorem Change.noStrayUses {made : Op → List NodeId → Prop} (F : r.Forest) (N : r.NoStrayUses)
    (h : Change made r s) : s.NoStrayUses := by
  cases h with
  | declare k index name type =>
    intro v kind
    rw [uses, var?_push]
    split_ifs
    · cases kind <;> exact ⟨List.nodup_nil, fun k hk => absurd hk List.not_mem_nil⟩
    · exact N v kind
  | retype w type =>
    refine N.congr (fun v kind => ?_) fun _ _ hu => hu
    rw [uses, var?_modifyVariable, uses]
    split_ifs
    · cases r.var? v with
      | none => rfl
      | some x => cases kind <;> rfl
    · rfl
  | @grow op cs =>
    refine N.congr (fun v kind => uses_grow r op cs v kind) fun k u hu => ?_
    obtain ⟨n, hn, _⟩ := use?_eq_some hu
    rw [← hu, use?, node?_grow, if_neg (ne_nextId hn), use?]
    split_ifs
    · cases r.node? k <;> rfl
    · rfl
  | @appendBlock container kind hc =>
    obtain ⟨m, hm, _⟩ := Option.map_eq_some_iff.mp hc
    refine N.congr (fun v use => ?_) fun k u hu => ?_
    · rw [Routine.appendBlock, mapChildren, uses_modifyNode, uses_modifyNode, uses_grow]
    obtain ⟨n, hn, _⟩ := use?_eq_some hu
    rw [← hu, use?, node?_appendBlock hm, if_neg (ne_nextId hn), use?]
    cases r.node? k <;> rfl
  | insertAt hblock _ hd _ habove =>
    obtain ⟨n, hn, _⟩ := exists_of_isBlock hblock
    exact (spliced_insertAt F N (isAlive_of_node? hn) hd habove _).noStrayUses N
  | deleteAt _ hinst =>
    exact (spliced_deleteAt F N (F.parent?_of_mem (List.mem_of_getElem? hinst)) _).noStrayUses N
  | putInSlot hp hd habove _ => exact (spliced_putInSlot F N hp hd habove).noStrayUses N
  | detach hp _ => exact (spliced_detach F N hp).noStrayUses N
  | copied _ hc =>
    refine N.congr (fun v kind => uses_congr (by rw [var?, hc.vars, var?]) kind) fun k u hu => ?_
    obtain ⟨n, hn, _⟩ := use?_eq_some hu
    rw [use?, hc.old k (index_lt_of_node? hn), ← hu, use?]

end Routine

/-- No call leaves a stray use, not even where nodes use handles that are not declared. -/
theorem Reachable.noStrayUses {r : Routine} (h : Reachable r) : r.NoStrayUses := by
  induction h with
  | empty token name => exact fun v kind => ⟨List.nodup_nil, fun k hk => absurd hk List.not_mem_nil⟩
  | called p hr hrun N => exact (p.change hr.forest hrun).noStrayUses hr.forest N
  | refused p hr hrun N => exact p.eq_of_refused hr.forest hrun ▸ N

namespace Edit

open Routine

variable {r s : Routine} {block id inst new : NodeId} {index : Nat}

theorem insert_splices (h : Reachable r) (hrun : insert block index inst r = .ok () s) :
    index ≤ (r.children block).length ∧
      Spliced r s block ((r.children block).insertIdx index inst) [] [] (r.tree inst).backward := by
  have F := h.forest
  rw [insert_eq F] at hrun
  obtain ⟨_, hcheck, _, rfl⟩ := step_ok.mp hrun
  obtain ⟨hblock, hle, hd, _, habove⟩ := (checkInsert_ok F).mp hcheck
  obtain ⟨n, hn, _⟩ := exists_of_isBlock hblock
  exact ⟨hle, spliced_insertAt F h.noStrayUses (isAlive_of_node? hn) hd habove index⟩

theorem remove_splices (h : Reachable r) (hrun : remove block index r = .ok () s) :
    ∃ inst, (r.children block)[index]? = some inst ∧
      Spliced r s block ((r.children block).eraseIdx index) (r.tree inst).labels
        (r.tree inst).labels [] := by
  have F := h.forest
  rw [remove_eq] at hrun
  obtain ⟨inst, hcheck, _, rfl⟩ := step_ok.mp hrun
  obtain ⟨_, hinst⟩ := checkRemove_ok.mp hcheck
  have hp := F.parent?_of_mem (List.mem_of_getElem? hinst)
  exact ⟨inst, hinst, spliced_deleteAt F h.noStrayUses hp index⟩

/-- A node stands at one position of its parent's child list. -/
theorem exists_position {p : NodeId} (F : r.Forest) (hp : r.parent? id = some p) (b : NodeId) :
    ∃ i, (r.children p)[i]? = some id ∧ (r.children p).replace id b = (r.children p).set i b := by
  obtain ⟨i, hi⟩ := List.mem_iff_getElem?.mp (F.listed hp)
  exact ⟨i, hi, replace_eq_set (F.children_nodup p) hi b⟩

theorem replace_splices (h : Reachable r) (hrun : replace id new r = .ok () s) :
    ∃ p i, r.parent? id = some p ∧ (r.children p)[i]? = some id ∧
      Spliced r s p ((r.children p).set i new) (r.tree id).labels (r.tree id).labels
        (r.tree new).backward := by
  have F := h.forest
  rw [replace_eq F] at hrun
  obtain ⟨p, hcheck, _, rfl⟩ := step_ok.mp hrun
  obtain ⟨hp, hd, habove, _⟩ := (checkReplace_ok F).mp hcheck
  obtain ⟨i, hi, hset⟩ := exists_position F hp new
  exact ⟨p, i, hp, hi, hset ▸ spliced_putInSlot F h.noStrayUses hp hd habove⟩

theorem extract_splices {a : NodeId} (h : Reachable r) (hrun : extract id r = .ok a s) :
    a = id ∧ s.op? r.nextId = some .nop ∧ ∃ p i, r.parent? id = some p ∧
      (r.children p)[i]? = some id ∧
      Spliced r s p ((r.children p).set i r.nextId) [] (r.tree id).labels [r.nextId] := by
  have F := h.forest
  rw [extract_eq F] at hrun
  obtain ⟨p, hcheck, rfl, rfl⟩ := step_ok.mp hrun
  obtain ⟨hp, _⟩ := (checkExtract_ok F).mp hcheck
  obtain ⟨i, hi, hset⟩ := exists_position F hp r.nextId
  refine ⟨rfl, ?_, p, i, hp, hi, hset ▸ spliced_detach F h.noStrayUses hp⟩
  rw [(views_detach F hp _).op, if_pos rfl]

/-- The structural edits in full. Only the removed and the replaced tree die. Only one child
    list changes, at one position. If it belongs to the tree, the use-lists lose the nodes that
    leave and get, at the end, those that enter, each node before its operands and the operands
    from last to first; otherwise they stay. -/
theorem structural_splices (h : Reachable r) :
    (∀ block index inst s, insert block index inst r = .ok () s →
      index ≤ (r.children block).length ∧
        Spliced r s block ((r.children block).insertIdx index inst) [] []
          (r.tree inst).backward) ∧
    (∀ block index s, remove block index r = .ok () s →
      ∃ inst, (r.children block)[index]? = some inst ∧
        Spliced r s block ((r.children block).eraseIdx index) (r.tree inst).labels
          (r.tree inst).labels []) ∧
    (∀ id new s, replace id new r = .ok () s →
      ∃ p i, r.parent? id = some p ∧ (r.children p)[i]? = some id ∧
        Spliced r s p ((r.children p).set i new) (r.tree id).labels (r.tree id).labels
          (r.tree new).backward) ∧
    (∀ id a s, extract id r = .ok a s →
      a = id ∧ s.op? r.nextId = some .nop ∧
      ∃ p i, r.parent? id = some p ∧ (r.children p)[i]? = some id ∧
        Spliced r s p ((r.children p).set i r.nextId) [] (r.tree id).labels [r.nextId]) :=
  ⟨fun _ _ _ _ => insert_splices h, fun _ _ _ => remove_splices h, fun _ _ _ => replace_splices h,
    fun _ _ _ => extract_splices h⟩

namespace Sample

/-- The calls that build `stobj(ldloc v0, ldloc v0)` in a block of the body, and another such
    node outside the tree. -/
def storeCalls : List Primitive :=
  [.declare .localSlot 0 "x" .void, .newBlock ⟨0⟩ .controlFlow,
    .load ⟨0⟩, .load ⟨0⟩, .create (.stobj .void) [⟨2⟩, ⟨3⟩], .push ⟨1⟩ ⟨4⟩,
    .load ⟨0⟩, .load ⟨0⟩, .create (.stobj .void) [⟨5⟩, ⟨6⟩]]

def storing : Routine := storeCalls.foldl Primitive.after (Routine.empty ⟨0x06000001⟩ "Draw")

end Sample

/-- One of the two loads in the tree gives way to a tree with two others. -/
theorem replace_lists_last_first : Reachable Sample.storing ∧
    Sample.storing.uses ⟨0⟩ .load = [⟨3⟩, ⟨2⟩] ∧
    ∃ s, replace ⟨2⟩ ⟨7⟩ Sample.storing = .ok () s ∧ s.uses ⟨0⟩ .load = [⟨3⟩, ⟨6⟩, ⟨5⟩] := by
  have hreach : Reachable Sample.storing := (Reachable.empty _ _).after _
  have hrun : replace ⟨2⟩ ⟨7⟩ Sample.storing =
      .ok () (Sample.storing.putInSlot ⟨4⟩ ⟨2⟩ ⟨7⟩) := by rfl
  refine ⟨hreach, by decide +kernel, _, hrun, ?_⟩
  obtain ⟨p, _, hp, _, S⟩ := (structural_splices hreach).2.2.1 ⟨2⟩ ⟨7⟩ _ hrun
  have hparent : Sample.storing.parent? ⟨2⟩ = some ⟨4⟩ := by decide +kernel
  obtain rfl : p = ⟨4⟩ := Option.some.inj (hp.symm.trans hparent)
  rw [S.uses ⟨0⟩ (by decide +kernel), if_pos (by decide +kernel)]
  decide +kernel

end Edit

end CilFold
