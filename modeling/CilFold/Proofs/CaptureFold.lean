/-
  The fold of a capture object up to the removal of its forwarding stores: the wrappers
  collapse, references to forwarded fields are replaced and so is the construction.

  All this is grafting, in places whose nodes load, address or read (`Op.folds`). Everything
  else stays where it is, in particular the construction and the forwarding stores (`Folding`).
  Over the loops, what is still to be planted in the marked tree gets less, and what comes of
  planting it stays the same.
-/
import CilFold.Proofs.CapturePlan
import CilFold.Proofs.Scanning

namespace CilFold

open Routine PassM

/-- Whether an operation can be part of what a fold replaces. -/
def Op.folds : Op → Bool
  | ldobj _ | ldflda _ | ldloc _ => true
  | _ => false

/-- What holds while a fold replaces uses of the capture object; `t` is its construction. -/
structure Folding (r : Routine) (w₀ : Work) (block : NodeId) (index : Nat) (t : Tree NodeId)
    (w : Work) : Prop extends Standing w₀ block index (r.instructions block).length t w where
  kept : Kept r w.routine
  head : SameHead r w.routine
  parent : ∀ k, r.isAlive k = true → w.routine.isAlive k = true → w.routine.parent? k = r.parent? k
  spared : ∀ k op, r.op? k = some op → op.folds = false → w.routine.isAlive k = true

variable {w₀ w w' : Work} {r s s' : Routine} {block id inst k p : NodeId} {index : Nat}
  {t u x : Tree NodeId} {c : Capture}

theorem Folding.start (h : Scanned w₀ block (w.on r)) (ht : r.Holds t)
    (hi : (r.instructions block)[index]? = some t.label) : Folding r w₀ block index t (w.on r) :=
  ⟨⟨h, hi, rfl, ht⟩, Kept.refl r, SameHead.refl r, fun _ _ _ => rfl,
    fun _ _ hop _ => isAlive_of_op? hop⟩

/-- A node whose operation does not fold is in no tree that does. -/
theorem not_mem_of_folds {op : Op} (hx : s.Holds x) (hfolds : ∀ y ∈ x.subtrees, y.op.folds = true)
    (hop : s.op? k = some op) (h : op.folds = false) : k ∉ x.labels := by
  intro hk
  obtain ⟨y, hy, rfl⟩ := List.mem_map.mp hk
  have hyop := (hx.subtree hy).op?
  rw [hop] at hyop
  rw [Option.some.inj hyop, hfolds y hy] at h
  cases h

namespace Folding

theorem op? (h : Folding r w₀ block index t (w.on s)) {op : Op} (hop : r.op? k = some op)
    (hfolds : op.folds = false) : s.op? k = some op :=
  (h.kept.op k (isAlive_of_op? hop) (h.spared k op hop hfolds)).trans hop

theorem graft (h : Folding r w₀ block index t (w.on s)) (G : Grafted s id p u s')
    (hlog : Logged (w.on s) (w'.on s')) (hx : s.Holds x) (hl : x.label = id)
    (hfolds : ∀ y ∈ x.subtrees, y.op.folds = true) (htop : t.op.folds = false)
    (hshape : ∀ y ∈ t.subtrees, y.op.folds = true → ∃ v, y.op = .ldloc v)
    (hop : ∀ v, x.op ≠ .ldloc v) : Folding r w₀ block index t (w'.on s') := by
  have V : s.Valid := h.valid
  have F := V.forest
  have ht : s.Holds t := h.holds
  have hid : id ∉ t.labels := by
    intro hmem
    obtain ⟨y, hy, hl'⟩ := List.mem_map.mp hmem
    have hyop := (ht.subtree hy).op?
    rw [hl', ← hl, hx.op?, Option.some.injEq] at hyop
    obtain ⟨v, hv⟩ := hshape y hy (hyop ▸ hfolds x x.mem_subtrees_self)
    exact hop v (hyop.trans hv)
  have hkept : Kept r s := h.kept
  have hblock : block ∉ x.labels := by
    obtain ⟨hb, _⟩ := getElem?_instructions h.at_index
    obtain ⟨n, hn, hop⟩ := exists_of_isBlock hb
    refine not_mem_of_folds hx hfolds (op?_of_node? hn) ?_
    cases hn : n.op with
    | block kind => rfl
    | _ => rw [hn] at hop; cases hop
  refine ⟨h.toStanding.graft G hlog hx hl hid (not_mem_of_folds hx hfolds ht.op? htop) hblock,
    hkept.trans G.kept, h.head.trans G.head, fun k hr hs' => ?_, fun k op hop hspare => ?_⟩
  · have hs := G.kept.alive k (Nat.lt_of_lt_of_le (index_lt_of_isAlive hr) hkept.size) hs'
    rw [← h.parent k hr hs]
    show s'.parent? k = s.parent? k
    rw [(G.views k hs).parent, if_neg (F.encloses_iff.not.mpr ((G.isAlive_iff F hs).mp hs'))]
  · have hs := h.op? hop hspare
    refine (G.isAlive_iff F (isAlive_of_op? hs)).mpr ?_
    rw [← hl, ← F.mem_labels hx]
    exact not_mem_of_folds hx hfolds hs hspare

end Folding

/-! ## Wrappers -/

/-- The tree of a wrapper. -/
abbrev wrapperTree (c : Capture) (wrapper address load : NodeId) (type : TypeDecl)
    (field : FieldDecl) : Tree NodeId :=
  .node wrapper (.ldobj type) [.node address (.ldflda field) [.node load (.ldloc c.holder) []]]

theorem folds_wrapperTree {wrapper address load : NodeId} {type : TypeDecl} {field : FieldDecl} :
    ∀ y ∈ (wrapperTree c wrapper address load type field).subtrees, y.op.folds = true := by
  simp [Tree.mem_subtrees_node, Op.folds]

/-- What is planted for the wrappers in a list. -/
def plantLoads (c : Capture) (wrappers : List NodeId) (a : Option NodeId) :
    Option (Tree (Option NodeId)) :=
  if a ∈ wrappers.map some then some (.node none (.ldloc c.holder) []) else none

/-- What holds while wrappers collapse. Planting for the wrappers that are left gives the
    collapsed trees. -/
structure Collapsing (r : Routine) (w₀ : Work) (block : NodeId) (index : Nat) (t : Tree NodeId)
    (c : Capture) (pending : List NodeId) (w : Work) : Prop
    extends Folding r w₀ block index t w where
  nodup : pending.Nodup
  wrappers : ∀ wrapper ∈ pending,
    w.routine.isConnected wrapper = true ∧ wrapper.index < r.nodes.size ∧
      ∃ address load type field, w.routine.Holds (wrapperTree c wrapper address load type field)
  marks : ∀ k op, r.isConnected k = true → r.op? k = some op → op.folds = false →
    (r.marked w.routine k).plant (plantLoads c pending) =
      ((r.tree k).map some).rewrite c.collapse

theorem Collapsing.start (h : Folding r w₀ block index t (w.on r)) {v : Variable}
    (hv : r.var? c.holder = some v) :
    Collapsing r w₀ block index t c (r.capturePlan c).wrappers (w.on r) := by
  have V : r.Valid := h.valid
  have F := V.forest
  refine ⟨h, nodup_wrappers V, fun wrapper hw => ?_, fun k op hk _ _ => ?_⟩
  · obtain ⟨load, hload, hwrap⟩ := List.mem_filterMap.mp hw
    obtain ⟨hop, hconn⟩ := V.op?_of_mem_loads hload
    obtain ⟨address, field, type, hhold, _⟩ := (wrapper?_eq_some F hop).mp hwrap
    have habove : r.Above wrapper load := by
      refine (F.mem_labels hhold).mp ?_
      simp [Tree.mem_labels_node]
    exact ⟨(F.isConnected_of_above habove).symm.trans hconn, index_lt_of_isAlive hhold.alive,
      address, load, type, field, hhold⟩
  · show (r.marked r k).plant _ = _
    rw [F.marked_self (isAlive_of_isConnected hk)]
    refine Tree.rewrite_congr fun u hu => ?_
    rw [Tree.subtrees_map] at hu
    obtain ⟨y, hy, rfl⟩ := List.mem_map.mp hu
    have hhold := F.holds_tree (isAlive_of_isConnected hk)
    have habove := (F.mem_labels hhold).mp (List.mem_map_of_mem hy)
    rw [label_tree] at habove
    have hbody : y ∈ (r.tree r.body).subtrees := F.mem_subtrees_body.mpr
      ⟨hhold.subtree hy, (F.isConnected_of_above habove).trans hk⟩
    have hiff : some y.label ∈ (r.capturePlan c).wrappers.map some ↔
        c.isWrapper (y.map some) = true := by
      rw [List.mem_map_of_injective fun _ _ => Option.some.inj, mem_wrappers V hv hbody,
        Capture.isWrapper_map]
    rw [Tree.label_map]
    exact if_congr hiff rfl rfl

/-- What a fold puts into the place of what, the construction apart: a load for a wrapper, an
    address or a copy of an `unbox` for a reference. -/
inductive Capture.Replaces (c : Capture) (r : Routine) : NodeId → Tree NodeId → Prop where
  | wrapper {wrapper address load n : NodeId} {type : TypeDecl} {field : FieldDecl} :
      r.Holds (wrapperTree c wrapper address load type field) →
      c.Replaces r wrapper (.node n (.ldloc c.holder) [])
  | loaded {address load n : NodeId} {field : FieldDecl} {v : VarId} :
      r.Holds (.node address (.ldflda field) [.node load (.ldloc c.holder) []]) →
      c.Replaces r address (.node n (.ldloca v) [])
  | unboxed {address load : NodeId} {field : FieldDecl} {type : TypeDecl} {t u : Tree NodeId} :
      r.Holds (.node address (.ldflda field) [.node load (.ldloc c.holder) []]) → r.Holds t →
      r.isConnected t.label = true → t.op = .unbox type → u.bare = t.bare →
      c.Replaces r address u

/-- A property that the replacements of a fold keep. -/
def Capture.Keeps (c : Capture) (I : Routine → Prop) : Prop :=
  ∀ r s id p u, r.Valid → c.Replaces r id u → Grafted r id p u s → I r → I s

namespace CapturedReceiver

theorem collapseWrappers_ends {wrappers : List NodeId} {I : Routine → Prop} (hkeeps : c.Keeps I)
    (htop : t.op.folds = false)
    (hshape : ∀ y ∈ t.subtrees, y.op.folds = true → ∃ v, y.op = .ldloc v) (hstart : I s)
    (h : Collapsing r w₀ block index t c wrappers (w.on s)) :
    Ends (collapseWrappers index c.holder wrappers) (w.on s) fun _ w' =>
      Collapsing r w₀ block index t c [] w' ∧ I w'.routine := by
  refine Ends.forM (I := fun wrappers w => Collapsing r w₀ block index t c wrappers w ∧ I w.routine)
    (fun wrapper rest w s h => ?_) ⟨h, hstart⟩
  obtain ⟨h, hI⟩ := h
  have V : s.Valid := h.valid
  have F := V.forest
  obtain ⟨hnot, hnodup⟩ := List.nodup_cons.mp h.nodup
  obtain ⟨hconn, hlt, address, load, type, field, hx⟩ : s.isConnected wrapper = true ∧
    wrapper.index < r.nodes.size ∧ ∃ address load type field,
      s.Holds (wrapperTree c wrapper address load type field) :=
    h.wrappers wrapper List.mem_cons_self
  have hop : s.op? wrapper = some (.ldobj type) := hx.op?
  obtain ⟨p, hp⟩ := F.exists_parent hconn (isContainer_of_op? hop)
  have S : Sprout s _ _ := Sprout.leaf F (.ldloc c.holder) rfl
  obtain ⟨s', hreplace, G⟩ := S.graft V hp hconn (isBlock_of_op? hop) rfl Tree.placed_leaf
  refine Ends.bind (Ends.routine ?_)
  rw [if_pos hconn]
  refine Ends.bind (Ends.edit (a := s.nextId) rfl (Ends.bind (Ends.edit hreplace
    (Ends.note fun e hkind hmethod => ?_))))
  have hlog : Logged (w.on s) ((w.noted e).on s') :=
    Logged.single hkind (G.head.token ▸ hmethod) (.replaced rfl G hconn (isBlock_of_op? hop)
      (isContainer_of_op? hop) (.inl (Tree.plain_leaf rfl rfl)))
  have hfolding := h.toFolding.graft G hlog hx rfl folds_wrapperTree htop hshape
    fun v hv => by cases hv
  refine ⟨⟨hfolding, hnodup, fun other ho => ?_, fun k op hk hkop hspare => ?_⟩,
    hkeeps s s' wrapper p _ V (.wrapper hx) G hI⟩
  · -- two wrappers have no node in common
    obtain ⟨hoconn, holt, a, l, ty, fld, hy⟩ := h.wrappers other (List.mem_cons_of_mem _ ho)
    have hne : other ≠ wrapper := by
      rintro rfl
      exact hnot ho
    have hapart : ∀ {v v' a a' l l' : NodeId} {ty ty' : TypeDecl} {fld fld' : FieldDecl},
        s.Holds (wrapperTree c v a l ty fld) → s.Holds (wrapperTree c v' a' l' ty' fld') → v ≠ v' →
        v ∉ (wrapperTree c v' a' l' ty' fld').labels := by
      intro v v' a a' l l' ty ty' fld fld' h h' hne
      have haddress := h'.operand (List.mem_singleton_self _)
      have hleaf := haddress.operand (List.mem_singleton_self _)
      simp only [Tree.mem_labels_node, List.mem_singleton, exists_eq_left, List.not_mem_nil,
        false_and, exists_false, or_false, not_or]
      refine ⟨hne, ?_, ?_⟩
      · rintro rfl
        cases h.op?.symm.trans haddress.op?
      · rintro rfl
        cases h.op?.symm.trans hleaf.op?
    have hy' := G.holds_other F hx rfl hy (hapart hx hy hne.symm) (hapart hy hx hne)
    exact ⟨G.kept.connected other hoconn hy'.alive, holt, a, l, ty, fld, hy'⟩
  · have hkop' := h.toFolding.op? hkop hspare
    have hbelow : ¬ s.Above wrapper k := by
      have hmem := not_mem_of_folds hx folds_wrapperTree hkop' hspare
      rw [F.mem_labels hx] at hmem
      exact hmem
    have hmarks := h.marks k op hk hkop hspare
    show (r.marked s' k).plant _ = _
    rw [G.marked F h.kept.size hlt (isAlive_of_op? hkop') hbelow, Tree.plant_plantAt, ← hmarks]
    refine Tree.plant_congr fun a _ => ?_
    rw [Tree.anew_node, List.map_nil, Tree.plant_node_of_none (by simp [plantLoads]), List.map_nil]
    unfold plantLoads
    rw [List.map_cons]
    by_cases ha : a = some wrapper
    · rw [if_pos ha, if_pos (ha ▸ List.mem_cons_self)]
    · simp only [List.mem_cons, ha, false_or, if_false]

end CapturedReceiver

end CilFold
