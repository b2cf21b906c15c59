/-
  What a fold leaves of the uses of forwarded fields. A reference outside the recorded stores
  becomes what stands for its field, so that no field address is left but those in the copies of
  stored values, which nothing replaces (`fold_refers_iff`). A read that is no wrapper reads the
  variable whose value was stored (`fold_redirects_reads`); a wrapper collapses before the fields
  are looked at.
-/
import CilFold.Proofs.CaptureCut
import CilFold.Proofs.CaptureIdle

namespace CilFold

open Routine CapturedReceiver

namespace Tree

variable {α : Type} {t u : Tree α} {v : VarId} {field : FieldDecl}

/-- The address of a field of what a variable holds is taken in the tree. -/
def Refers (t : Tree α) (v : VarId) (field : FieldDecl) : Prop :=
  ∃ u ∈ t.subtrees, ∃ found, u.fieldOfLocal? = some (found, v) ∧ found.same field = true

theorem refers_iff_any : t.Refers v field ↔ t.subtrees.any (fun u =>
    u.fieldOfLocal?.any fun p => p.2 == v && p.1.same field) = true := by
  simp only [Refers, List.any_eq_true, Option.any_eq_true, Bool.and_eq_true, beq_iff_eq]
  constructor
  · rintro ⟨u, hu, found, hlocal, hsame⟩
    exact ⟨u, hu, (found, v), hlocal, rfl, hsame⟩
  · rintro ⟨u, hu, ⟨found, w⟩, hlocal, rfl, hsame⟩
    exact ⟨u, hu, found, hlocal, hsame⟩

instance : Decidable (t.Refers v field) := decidable_of_iff _ refers_iff_any.symm

/-- A rewriting that puts no loads in makes no addresses of fields but those it puts in. -/
theorem cases_of_fieldOfLocal? {σ : Tree α → Option (Tree α)} {found : FieldDecl}
    (hσ : ∀ x ∈ t.subtrees, ∀ y, σ x = some y → ∀ v, y.op ≠ .ldloc v)
    (hu : u ∈ (t.rewrite σ).subtrees) (hlocal : u.fieldOfLocal? = some (found, v)) :
    (∃ x ∈ t.subtrees, σ x = none ∧ x.fieldOfLocal? = some (found, v)) ∨
      ∃ x ∈ t.subtrees, ∃ y, σ x = some y ∧ u ∈ y.subtrees := by
  refine (cases_of_mem_rewrite hu).imp_left ?_
  rintro ⟨x, hx, hnone, rfl⟩
  obtain ⟨a, l, he⟩ := fieldOfLocal?_eq_some.mp hlocal
  obtain ⟨b, op, ts⟩ := x
  injection he with _ hop hts
  rw [op_node] at hop
  rw [operands_node] at hts
  subst hop
  obtain ⟨y, rfl, hy⟩ := List.map_eq_singleton_iff.mp hts
  have hmem : y ∈ t.subtrees :=
    mem_subtrees_of_operand (u := node b _ [y]) (List.mem_singleton_self y) hx
  cases hs : σ y with
  | some z =>
    rw [rewrite_of_some hs] at hy
    exact absurd (congrArg Tree.op hy) (hσ y hmem z hs v)
  | none =>
    obtain ⟨k, op', us⟩ := y
    rw [rewrite_node_of_none hs] at hy
    injection hy with _ hop' hus
    subst hop'
    rw [List.map_eq_nil_iff.mp hus] at hx hnone
    exact ⟨_, hx, hnone, fieldOfLocal?_eq_some.mpr ⟨b, k, rfl⟩⟩

/-- What is planted in a tree brings no address of a field with it if there is none in it. -/
theorem fieldOfLocal?_of_mem_plantAt [DecidableEq α] {a : α} {w : Tree α} {found : FieldDecl}
    (hw : ∀ x ∈ w.subtrees, x.fieldOfLocal? = none) (hop : ∀ v, w.op ≠ .ldloc v)
    (hu : u ∈ (t.plantAt a w).subtrees) (hlocal : u.fieldOfLocal? = some (found, v)) :
    ∃ x ∈ t.subtrees, x.fieldOfLocal? = some (found, v) := by
  have hput : ∀ x ∈ t.subtrees, ∀ y, (if x.label = a then some w else none) = some y → y = w := by
    intro x _ y hy
    split_ifs at hy
    exact (Option.some.inj hy).symm
  have hnoload : ∀ x ∈ t.subtrees, ∀ y, (if x.label = a then some w else none) = some y →
      ∀ v, y.op ≠ .ldloc v := fun x hx y hy => hput x hx y hy ▸ hop
  rcases cases_of_fieldOfLocal? hnoload hu hlocal with ⟨x, hx, _, hx'⟩ | ⟨x, hx, y, hy, huy⟩
  · exact ⟨x, hx, hx'⟩
  · rw [hput x hx y hy] at huy
    cases (hw u huy).symm.trans hlocal

end Tree

namespace Capture

variable {c : Capture} {inst new : NodeId} {site : CallSite} {this : VarId} {t : Tree NodeId}

theorem canStand_of_recorded {g : Forwarding} (hg : g ∈ c.recorded t) :
    c.canStand g.value = true := by
  obtain ⟨_, _, hg⟩ := List.mem_filterMap.mp (List.mem_of_mem_filter hg)
  obtain ⟨_, _, _, _, _, hstand⟩ := forwarding?_eq_some.mp hg
  exact hstand

theorem standFor_of_loaded {g : Forwarding} {v : VarId} (h : g.value.source = .loaded v) :
    c.standFor g = .node none (.ldloca v) [] := by
  unfold Tree.source at h
  split at h
  · next heq =>
    cases h
    rw [standFor, heq]
  · cases h

theorem mem_references {g : Forwarding} : g ∈ c.references t ↔
    ∃ u ∈ (c.collapsed t).subtrees, c.reference? (c.recorded t) u = some g :=
  List.mem_filterMap

theorem mem_recorded_of_reference? {u : Tree (Option NodeId)} {g : Forwarding}
    (h : c.reference? (c.recorded t) u = some g) : g ∈ c.recorded t := by
  obtain ⟨_, _, hfind⟩ := reference?_eq_some.mp h
  exact List.mem_of_find?_eq_some hfind

/-- A read lies in no wrapper but itself. -/
theorem eq_of_mem_wrapper {α : Type} {u x : Tree α} {type : TypeDecl} (hx : c.isWrapper x = true)
    (hu : u ∈ x.subtrees) (hop : u.op = .ldobj type) : u = x := by
  obtain ⟨w, type', z, field, rfl, hz, _⟩ := isWrapper_iff.mp hx
  obtain ⟨a, l, rfl⟩ := Tree.fieldOfLocal?_eq_some.mp hz
  have hu' : u = .node w (.ldobj type') [.node a (.ldflda field) [.node l (.ldloc c.holder) []]] ∨
      u = .node a (.ldflda field) [.node l (.ldloc c.holder) []] ∨
        u = .node l (.ldloc c.holder) [] := by
    simpa [Tree.mem_subtrees_node] using hu
  rcases hu' with rfl | rfl | rfl
  · rfl
  · cases hop
  · cases hop

theorem rewrite_mem_collapsed {u : Tree (Option NodeId)} {type : TypeDecl}
    (hu : u ∈ ((t.map some).prune (c.isRecorded t)).subtrees) (hop : u.op = .ldobj type) :
    u.rewrite c.collapse ∈ (c.collapsed t).subtrees := by
  refine Tree.rewrite_mem_subtrees hu fun x _ hux hne => ?_
  rw [Option.eq_none_iff_forall_ne_some]
  intro y hy
  exact hne (eq_of_mem_wrapper (collapse_eq_some.mp hy).1 hux hop)

/-- A read of another type than the receiver's has no wrapper in it. -/
theorem rewrite_collapse_read {id address load : NodeId} {type : TypeDecl} {field : FieldDecl}
    (htype : type.same c.receiverType = false) :
    ((wrapperTree c id address load type field).map some).rewrite c.collapse =
      (wrapperTree c id address load type field).map some := by
  refine Tree.rewrite_eq_self fun u hu => ?_
  rw [Tree.subtrees_map] at hu
  obtain ⟨y, hy, rfl⟩ := List.mem_map.mp hu
  have hy : y = wrapperTree c id address load type field ∨
      y = .node address (.ldflda field) [.node load (.ldloc c.holder) []] ∨
        y = .node load (.ldloc c.holder) [] := by
    simpa [Tree.mem_subtrees_node] using hy
  rw [collapse, isWrapper_map]
  rcases hy with rfl | rfl | rfl
  · simp [isWrapper, htype]
  · rfl
  · rfl

/-- What is replaced with the references is no part of another reference. -/
theorem rewrite_mem_replaced {u : Tree (Option NodeId)} (hu : u ∈ (c.collapsed t).subtrees)
    (hop : ∀ v, u.op ≠ .ldloc v) :
    u.rewrite (c.stand (c.recorded t)) ∈ (c.replaced t).subtrees := by
  refine Tree.rewrite_mem_subtrees hu fun x _ hux hne => ?_
  rw [Option.eq_none_iff_forall_ne_some]
  intro y hy
  obtain ⟨g, hg, _⟩ := stand_eq_some.mp hy
  obtain ⟨_, hlocal, _⟩ := reference?_eq_some.mp hg
  obtain ⟨a, l, rfl⟩ := Tree.fieldOfLocal?_eq_some.mp hlocal
  have hu' : u = .node l (.ldloc c.holder) [] := by
    simpa [Tree.mem_subtrees_node, hne] using hux
  exact hop c.holder (hu' ▸ rfl)

theorem mem_replaced_of_standFor {u : Tree (Option NodeId)} {g : Forwarding}
    (hg : g ∈ c.references t) (hu : u ∈ (c.standFor g).subtrees) :
    u ∈ (c.replaced t).subtrees := by
  obtain ⟨z, hz, href⟩ := mem_references.mp hg
  obtain ⟨_, hlocal, _⟩ := reference?_eq_some.mp href
  have hstand : c.stand (c.recorded t) z = some (c.standFor g) := stand_eq_some.mpr ⟨g, href, rfl⟩
  obtain ⟨a, l, rfl⟩ := Tree.fieldOfLocal?_eq_some.mp hlocal
  have hmem := rewrite_mem_replaced hz fun v hv => by cases hv
  rw [Tree.rewrite_of_some hstand] at hmem
  exact Tree.mem_subtrees_trans hu hmem

section Fold

variable (h : c.Foldable (constructionTree c inst new site this) t)
include h

/-- What is not part of the construction is still there when the construction is replaced. -/
theorem mem_folded {u : Tree (Option NodeId)} (hu : u ∈ (c.replaced t).subtrees)
    (hop : u.op ≠ .stloc c.holder ∧ u.op ≠ .call site ∧ u.op ≠ .ldloc this) :
    u.plantAt (some inst) (c.receiverStore this) ∈
      (c.folded inst this t).subtrees := by
  rw [folded_eq h]
  refine Tree.rewrite_mem_subtrees hu fun x hx hux _ => if_neg fun hl => ?_
  rw [only_replaced h x hx (by rw [hl, Tree.label_map]; rfl)] at hux
  rcases op_of_mem_construction hux with hu | hu | hu
  · exact hop.1 hu
  · exact hop.2.1 hu
  · exact hop.2.2 hu

/-- The store of the receiver brings no address of a field with it. -/
theorem fieldOfLocal?_of_mem_folded {u : Tree (Option NodeId)} {field : FieldDecl} {v : VarId}
    (hu : u ∈ (c.folded inst this t).subtrees) (hlocal : u.fieldOfLocal? = some (field, v)) :
    ∃ x ∈ (c.replaced t).subtrees, x.fieldOfLocal? = some (field, v) := by
  rw [folded_eq h] at hu
  refine Tree.fieldOfLocal?_of_mem_plantAt (fun x hx => ?_) (fun _ hop => by cases hop) hu hlocal
  rcases Tree.mem_subtrees_node.mp hx with rfl | ⟨_, hw, hx⟩
  · rfl
  · rw [List.mem_singleton.mp hw] at hx
    rcases Tree.mem_subtrees_node.mp hx with rfl | ⟨_, hnil, _⟩
    · rfl
    · cases hnil

/-- A fold leaves the address of a recorded field in what it has copied for other fields, and
    nowhere else. -/
theorem refers_folded_iff {f : Forwarding} (hf : f ∈ c.recorded t) :
    (c.folded inst this t).Refers c.holder f.field ↔
      ∃ g ∈ c.references t, (c.standFor g).Refers c.holder f.field := by
  constructor
  · rintro ⟨u, hu, found, hlocal, hsame⟩
    obtain ⟨x, hx, hlocal⟩ := fieldOfLocal?_of_mem_folded h hu hlocal
    have hnoload : ∀ y ∈ (c.collapsed t).subtrees, ∀ z, c.stand (c.recorded t) y = some z →
        ∀ v, z.op ≠ .ldloc v := by
      intro y _ z hz v hv
      obtain ⟨g, hg, rfl⟩ := stand_eq_some.mp hz
      rcases op_standFor (canStand_of_recorded (mem_recorded_of_reference? hg)) with
        ⟨w, hop⟩ | ⟨type, hop⟩ <;> cases hv.symm.trans hop
    rcases Tree.cases_of_fieldOfLocal? hnoload hx hlocal with
      ⟨y, _, hnone, hy⟩ | ⟨y, hy, z, hz, hxz⟩
    · -- a reference outside all that was put in would have been replaced
      have hfind : ((c.recorded t).find? (·.field.same found)).isSome := by
        rw [List.find?_isSome]
        exact ⟨f, hf, beq_iff_eq.mpr (beq_iff_eq.mp hsame).symm⟩
      obtain ⟨g, hg⟩ := Option.isSome_iff_exists.mp hfind
      cases hnone.symm.trans (stand_eq_some.mpr ⟨g, reference?_eq_some.mpr ⟨found, hy, hg⟩, rfl⟩)
    · obtain ⟨g, hg, rfl⟩ := stand_eq_some.mp hz
      exact ⟨g, mem_references.mpr ⟨y, hy, hg⟩, x, hxz, found, hlocal, hsame⟩
  · rintro ⟨g, hg, u, hu, found, hlocal, hsame⟩
    obtain ⟨a, l, rfl⟩ := Tree.fieldOfLocal?_eq_some.mp hlocal
    have hmem := mem_folded h (mem_replaced_of_standFor hg hu) ⟨nofun, nofun, nofun⟩
    rw [Tree.plantAt, Tree.plant_eq_self fun b hb => ?_] at hmem
    · exact ⟨_, hmem, found, hlocal, hsame⟩
    · obtain ⟨x, hx, rfl⟩ := List.mem_map.mp hb
      have hnone := labels_standFor (List.mem_map_of_mem (Tree.mem_subtrees_trans hx hu))
      rw [hnone]
      rfl

/-- A read that is no wrapper stays when the recorded stores go and the wrappers collapse, unless
    it belongs to a recorded store. -/
theorem read_mem_collapsed {id address load : NodeId} {type : TypeDecl} {field : FieldDecl}
    (hu : wrapperTree c id address load type field ∈ t.subtrees)
    (houtside : ∀ x ∈ t.subtrees, id ∈ x.labels → c.isRecorded t (some x.label) = false)
    (htype : type.same c.receiverType = false) :
    (wrapperTree c id address load type field).map some ∈ (c.collapsed t).subtrees := by
  have hmap : (wrapperTree c id address load type field).map some ∈ (t.map some).subtrees := by
    rw [Tree.subtrees_map]
    exact List.mem_map_of_mem hu
  have hcut := h.cuttable.subtree hmap
  have hopen : ∀ x ∈ (t.map some).subtrees,
      (wrapperTree c id address load type field).map some ∈ x.subtrees →
        c.isRecorded t x.label = false := by
    intro x hx hux
    rw [Tree.subtrees_map] at hx
    obtain ⟨y, hy, rfl⟩ := List.mem_map.mp hx
    have hid : some id ∈ (y.map some).labels := by
      have hlabel := List.mem_map_of_mem (f := Tree.label) hux
      rwa [Tree.label_map] at hlabel
    rw [Tree.labels_map, List.mem_map_of_injective fun _ _ => Option.some.inj] at hid
    rw [Tree.label_map]
    exact houtside y hy hid
  have hstays : ((wrapperTree c id address load type field).map some).prune (c.isRecorded t) =
      (wrapperTree c id address load type field).map some := by
    refine Tree.prune_eq_self fun b hb => ?_
    obtain ⟨u, hu, rfl⟩ := List.mem_map.mp hb
    refine hcut.stays u hu ?_
    rw [Tree.subtrees_map] at hu
    obtain ⟨y, hy, rfl⟩ := List.mem_map.mp hu
    rw [Tree.op_map]
    exact folds_wrapperTree y hy
  have hcleared := Tree.prune_mem_subtrees hmap hopen
  rw [hstays] at hcleared
  have hcollapsed := rewrite_mem_collapsed hcleared (Tree.op_map _ _)
  rwa [rewrite_collapse_read htype] at hcollapsed

/-- A read of a recorded field that is no wrapper reads what stands for the field, unless it
    belongs to a recorded store. -/
theorem read_mem_folded {id address load : NodeId} {type : TypeDecl} {field : FieldDecl}
    {g : Forwarding} (hu : wrapperTree c id address load type field ∈ t.subtrees)
    (houtside : ∀ x ∈ t.subtrees, id ∈ x.labels → c.isRecorded t (some x.label) = false)
    (htype : type.same c.receiverType = false)
    (hg : (c.recorded t).find? (·.field.same field) = some g) :
    .node (some id) (.ldobj type) [c.standFor g] ∈ (c.folded inst this t).subtrees := by
  have hcollapsed := read_mem_collapsed h hu houtside htype
  simp only [wrapperTree, Tree.map_node, List.map_cons, List.map_nil] at hcollapsed
  have hreplaced := rewrite_mem_replaced hcollapsed nofun
  rw [Tree.rewrite_node_of_none rfl, List.map_singleton,
    Tree.rewrite_of_some (stand_eq_some.mpr ⟨g, reference?_eq_some.mpr ⟨field, rfl, hg⟩, rfl⟩)]
    at hreplaced
  have hfolded := mem_folded h hreplaced ⟨nofun, nofun, nofun⟩
  have hne : some id ≠ some inst := fun he => by
    have honly := only_replaced h _ hreplaced (by rw [he, Tree.label_map]; rfl)
    cases congrArg Tree.op honly
  rw [Tree.plantAt_node hne, List.map_singleton, Tree.plantAt,
    Tree.plant_eq_self fun b hb => ?_] at hfolded
  · exact hfolded
  · rw [labels_standFor hb]
    rfl

end Fold

end Capture

/-! ## Routines -/

namespace Routine

variable {r s : Routine} {c : Capture} {v : VarId} {field : FieldDecl} {u : Tree (Option NodeId)}

theorem ldloca?_eq_some {k : NodeId} : r.ldloca? k = some v ↔ r.op? k = some (.ldloca v) := by
  unfold ldloca?
  split
  · next h => rw [h, Option.some.injEq, Option.some.injEq, Op.ldloca.injEq]
  · next h => exact iff_of_false (fun he => nomatch he) (h v)

/-- A field that has a recorded store has just that one. -/
theorem find?_recorded {t : Tree NodeId} {g : Forwarding} (hg : g ∈ c.recorded t)
    (hsame : g.field.same field = true) :
    (c.recorded t).find? (·.field.same field) = some g := by
  cases hfind : (c.recorded t).find? (·.field.same field) with
  | none => exact absurd hsame (List.find?_eq_none.mp hfind g hg)
  | some f =>
    have hfound := List.find?_some hfind
    rw [eq_of_recorded (List.mem_of_find?_eq_some hfind) hg hfound hsame]

/-- The address of a field of what a variable holds is taken somewhere in the tree. -/
def Refers (r : Routine) (v : VarId) (field : FieldDecl) : Prop :=
  ∃ address load found, r.isConnected address = true ∧ r.ldflda? address = some (load, found) ∧
    r.ldloc? load = some v ∧ found.same field = true

theorem Forest.refers_iff (F : r.Forest) :
    r.Refers v field ↔ (r.tree r.body).Refers v field := by
  constructor
  · rintro ⟨address, load, found, hconn, hfield, hload, hsame⟩
    obtain ⟨hop, hc⟩ := ldflda?_eq_some.mp hfield
    have hload := ldloc?_eq_some.mp hload
    have hx : r.Holds (.node address (.ldflda found) [.node load (.ldloc v) []]) :=
      .unary hop hc (.leaf hload (F.children_of_ldloc hload))
    exact ⟨_, F.mem_subtrees_body.mpr ⟨hx, hconn⟩, found, rfl, hsame⟩
  · rintro ⟨u, hu, found, hlocal, hsame⟩
    obtain ⟨hx, hconn⟩ := F.mem_subtrees_body.mp hu
    obtain ⟨a, l, rfl⟩ := Tree.fieldOfLocal?_eq_some.mp hlocal
    exact ⟨a, l, found, hconn, ldflda?_eq_some.mpr ⟨hx.op?, hx.children⟩,
      ldloc?_eq_some.mpr (hx.operand (List.mem_singleton_self _)).op?, hsame⟩

/-- References do not depend on the labels. -/
theorem refers_marked : (r.marked s s.body).Refers v field ↔ (s.tree s.body).Refers v field := by
  unfold Tree.Refers
  rw [marked, Tree.subtrees_map]
  constructor
  · rintro ⟨_, hu, found, hlocal, hsame⟩
    obtain ⟨y, hy, rfl⟩ := List.mem_map.mp hu
    exact ⟨y, hy, found, (Tree.fieldOfLocal?_map _ y).symm.trans hlocal, hsame⟩
  · rintro ⟨y, hy, found, hlocal, hsame⟩
    exact ⟨_, List.mem_map_of_mem hy, found, (Tree.fieldOfLocal?_map _ y).trans hlocal, hsame⟩

/-- A read of a variable's address in a marked tree is one in the later routine. -/
theorem Forest.read_of_mem_marked {id : NodeId} {type : TypeDecl} {a : Option NodeId}
    (F : s.Forest)
    (hu : .node (some id) (.ldobj type) [.node a (.ldloca v) []] ∈
      (r.marked s s.body).subtrees) :
    ∃ new, s.isConnected id = true ∧ s.ldobj? id = some (new, type) ∧ s.ldloca? new = some v := by
  obtain ⟨⟨k, op, ts⟩, hy, habove, hmap⟩ :=
    F.exists_of_mem_marked (isAlive_of_isConnected F.isConnected_body) hu
  have hconn : s.isConnected k = true := F.isConnected_iff_above.mpr habove
  rw [Tree.map_node] at hmap
  injection hmap with hk hop hts
  obtain ⟨⟨new, op', us⟩, rfl, hnew⟩ := List.map_eq_singleton_iff.mp hts
  rw [Tree.map_node] at hnew
  injection hnew with _ hop' _
  obtain ⟨rfl, _⟩ := origin_eq_some.mp hk
  subst hop hop'
  exact ⟨new, hconn, ldobj?_eq_some.mpr ⟨hy.op?, hy.children⟩,
    ldloca?_eq_some.mpr (hy.operand (List.mem_singleton_self _)).op?⟩

end Routine

namespace CapturedReceiver

open PassM

variable {w : Work} {r : Routine} {block inst : NodeId} {index : Nat} {c : Capture}
  {ctx : Context} {this : VarId}

/-- What a fold makes of the tree, with nothing followed through its parts. -/
theorem fold_marks {settings : Settings}
    (hidle : ∀ block index options w, ctx.inliner block index options w = .ok 0 w) (V : r.Valid)
    (hblock : r.isConnected block = true) (hi : (r.instructions block)[index]? = some inst)
    (hc : r.capture? settings inst = some c) (hthis : r.ldloc? c.receiver = some this) :
    Ends (fold ctx block index c) (w.on r) fun _ w' =>
      w'.routine.Valid ∧ SameHead (c.retyped r) w'.routine ∧
        r.marked w'.routine w'.routine.body = c.folded inst this (r.tree r.body) :=
  (fold_idle (I := fun _ => True) (J := fun _ _ => True) hidle (fun _ _ _ _ _ _ _ _ _ => trivial)
    trivial V hblock hi hc (ldloc?_eq_some.mp hthis) (fun _ _ _ _ _ _ _ _ _ _ _ _ => trivial)
    fun _ _ _ _ _ _ _ _ _ _ => trivial).mono fun _ _ _ h => h.1

/-- The tree below the body of a routine that constructs a capture object is as a fold needs
    it. -/
theorem exists_foldable {settings : Settings} (V : r.Valid)
    (hi : (r.instructions block)[index]? = some inst)
    (hc : r.capture? settings inst = some c) (hthis : r.ldloc? c.receiver = some this) :
    (∃ x, r.var? c.holder = some x) ∧ ∃ new site, r.Holds (constructionTree c inst new site this) ∧
      c.Foldable (constructionTree c inst new site this) (r.tree r.body) := by
  obtain ⟨new, site, that, ht, ⟨x, hx, _⟩, _⟩ := capture?_spec V.forest hc
  have hthat := ((ht.operand (List.mem_singleton_self _)).operand (List.mem_singleton_self _)).op?
  cases hthat.symm.trans (ldloc?_eq_some.mp hthis)
  exact ⟨⟨x, hx⟩, new, site, ht, V.foldable hi ht⟩

/-- The recorded stores are not in the tree after the fold. -/
theorem not_connected_of_recorded {s : Routine} {g : Forwarding} (V : r.Valid) (F : s.Forest)
    (hbody : s.body = r.body)
    (hmarked : r.marked s s.body = c.folded inst this (r.tree r.body))
    (hg : g ∈ c.recorded (r.tree r.body)) : s.isConnected g.store = false := by
  rw [Bool.eq_false_iff]
  intro hconn
  obtain ⟨type, y, owner, hhold, _, hp, _⟩ := recorded_spec V hg
  obtain ⟨u, hu, hl⟩ := F.exists_holds (isAlive_of_isConnected hconn)
  have hmem : some g.store ∈ (r.marked s s.body).labels := by
    rw [marked, Tree.labels_map]
    refine List.mem_map.mpr ⟨g.store, ?_, origin_of_isAlive hhold.alive⟩
    exact hl ▸ List.mem_map_of_mem (F.mem_subtrees_body.mpr ⟨hu, hl ▸ hconn⟩)
  rw [hmarked, Capture.folded] at hmem
  rcases Tree.gone_of_mem_prune hmem with htop | hstays
  · have hlabel := congrArg Tree.label hmarked
    rw [Capture.folded, Tree.label_prune, ← htop, marked, Tree.label_map, label_tree,
      origin_eq_some, hbody] at hlabel
    rw [← hlabel.1, V.forest.parent?_body] at hp
    cases hp
  · rw [List.any_eq_false] at hstays
    exact hstays g hg (beq_self_eq_true _)

/-- After a fold, with an inliner that leaves everything as it is, the forwarding stores are gone.
    The address of a forwarded field is still taken only where a value that was copied for some
    reference takes it. -/
theorem fold_refers_iff (ctx : Context) (hreach : Reachable w.routine)
    (hvalid : w.routine.validate = .ok ()) (hblock : w.routine.isConnected block = true)
    (hi : (w.routine.instructions block)[index]? = some inst)
    (hc : w.routine.capture? ctx.settings inst = some c)
    (hthis : w.routine.ldloc? c.receiver = some this)
    (hidle : ∀ block index options w, ctx.inliner block index options w = .ok 0 w) :
    ∃ next w', fold ctx block index c w = .ok next w' ∧ w'.routine.validate = .ok () ∧
      ∀ f ∈ (w.routine.capturePlan c).forwards,
        w'.routine.isConnected f.store = false ∧ (w'.routine.Refers c.holder f.field ↔
          ∃ g ∈ c.references (w.routine.tree w.routine.body),
            (c.standFor g).Refers c.holder f.field) := by
  have V := (Routine.valid_iff hreach).mp hvalid
  obtain ⟨⟨x, hx⟩, new, site, _, hfoldable⟩ := exists_foldable V hi hc hthis
  obtain ⟨next, w', hfold, V', hhead, hmarked⟩ :=
    fold_marks (w := w) hidle V hblock hi hc hthis
  refine ⟨next, w', hfold, V'.validate, fun f hf => ?_⟩
  obtain ⟨g, hg, rfl⟩ := exists_recorded V hx hf
  refine ⟨not_connected_of_recorded V V'.forest hhead.body hmarked hg, ?_⟩
  rw [V'.forest.refers_iff, ← refers_marked (r := w.routine), hmarked]
  exact Capture.refers_folded_iff hfoldable hg

namespace Relay

open Sample

def other : FieldDecl := ⟨⟨0x04000003⟩, "other", closure, .void⟩

def use : CallSite where
  kind := .call
  method := ⟨⟨0x06000003⟩, "Use", .widget, .void, 2, 0x10⟩

/-- The variables are `this`, the holder `cap`, `x` and `y`; the first instruction is
    `stloc cap(newobj closure::.ctor(ldloc this))`. -/
def prologue : List Primitive :=
  [ .declare .receiver 0 "this" .widget, .declare .localSlot 0 "cap" closure,
    .declare .localSlot 1 "x" .void, .declare .localSlot 2 "y" .widget,
    .newBlock ⟨0⟩ .controlFlow,
    .load ⟨0⟩, .create (.call construct) [⟨2⟩], .create (.stloc ⟨1⟩) [⟨3⟩], .push ⟨1⟩ ⟨4⟩]

def build (calls : List Primitive) : Routine :=
  (prologue ++ calls).foldl Primitive.after (Routine.empty ⟨0x06000001⟩ "Draw")

def capture : Capture := ⟨⟨1⟩, ⟨2⟩, .widget, closure⟩

/-- The routine goes on with

      stobj Void(ldflda value(ldloc cap), ldloc x)
      stobj Void(ldflda other(ldloc cap), unbox Void(ldflda value(ldloc cap)))
      call Use(ldobj Void(ldflda value(ldloc cap)), ldflda other(ldloc cap)) -/
def relayed : Routine := build
  [ .load ⟨1⟩, .create (.ldflda value) [⟨5⟩], .load ⟨2⟩, .create (.stobj .void) [⟨6⟩, ⟨7⟩],
    .push ⟨1⟩ ⟨8⟩,
    .load ⟨1⟩, .create (.ldflda other) [⟨9⟩], .load ⟨1⟩, .create (.ldflda value) [⟨11⟩],
    .create (.unbox .void) [⟨12⟩], .create (.stobj .void) [⟨10⟩, ⟨13⟩], .push ⟨1⟩ ⟨14⟩,
    .load ⟨1⟩, .create (.ldflda value) [⟨15⟩], .create (.ldobj .void) [⟨16⟩],
    .load ⟨1⟩, .create (.ldflda other) [⟨18⟩], .create (.call use) [⟨17⟩, ⟨19⟩],
    .push ⟨1⟩ ⟨20⟩]

theorem relayed_valid : relayed.validate = .ok () := by decide +kernel

set_option maxRecDepth 8000 in
theorem relayed_forwards : (relayed.capturePlan capture).forwards =
    [⟨⟨8⟩, value, .loaded ⟨2⟩⟩, ⟨⟨14⟩, other, .unboxed ⟨13⟩⟩] := rfl

/-- The routine goes on with a field of the receiver's type:

      stobj Widget(ldflda outer(ldloc cap), ldloc y)
      ldobj Widget(ldflda outer(ldloc cap)) -/
def outward : Routine := build
  [ .load ⟨1⟩, .create (.ldflda outer) [⟨5⟩], .load ⟨3⟩, .create (.stobj .widget) [⟨6⟩, ⟨7⟩],
    .push ⟨1⟩ ⟨8⟩,
    .load ⟨1⟩, .create (.ldflda outer) [⟨9⟩], .create (.ldobj .widget) [⟨10⟩], .push ⟨1⟩ ⟨11⟩]

end Relay

set_option maxRecDepth 8000 in
/-- No reference to the field that holds an `unbox` is left: what stands for it has none. -/
theorem other_folded : ∃ next w',
    fold { settings := {}, inliner := Inliner.idle } ⟨1⟩ 0 Relay.capture
      { routine := Relay.relayed } = .ok next w' ∧
    (Relay.relayed.capturePlan Relay.capture).forwards.map (·.field) =
      [Sample.value, Relay.other] ∧
    ¬ w'.routine.Refers ⟨1⟩ Relay.other := by
  have hreach : Reachable Relay.relayed := (Reachable.empty _ _).after _
  have hblock : Relay.relayed.isConnected ⟨1⟩ = true := rfl
  have hi : (Relay.relayed.instructions ⟨1⟩)[0]? = some ⟨4⟩ := rfl
  have hc : Relay.relayed.capture? {} ⟨4⟩ = some Relay.capture := rfl
  have hthis : Relay.relayed.ldloc? Relay.capture.receiver = some ⟨0⟩ := rfl
  obtain ⟨next, w', hfold, _, hrefers⟩ := fold_refers_iff (w := { routine := Relay.relayed })
    ⟨{}, Inliner.idle⟩ hreach Relay.relayed_valid hblock hi hc hthis fun _ _ _ _ => rfl
  obtain ⟨_, hiff⟩ := hrefers ⟨⟨14⟩, Relay.other, .unboxed ⟨13⟩⟩
    (by rw [Relay.relayed_forwards]; simp)
  refine ⟨next, w', hfold, ?_, fun h => absurd (hiff.mp h) (by decide +kernel)⟩
  rw [Relay.relayed_forwards]
  rfl

set_option maxRecDepth 8000 in
/-- A reference to another field stays in the copy of the `unbox`, although the store of that field
    is gone. -/
theorem reference_left_in_copy : ∃ (w w' : Work) (next : Nat) (c : Capture) (f : Forward),
    Reachable w.routine ∧ w.routine.validate = .ok () ∧
      w.routine.capture? {} ⟨4⟩ = some c ∧
      fold { settings := {}, inliner := Inliner.idle } ⟨1⟩ 0 c w = .ok next w' ∧
      f ∈ (w.routine.capturePlan c).forwards ∧ w'.routine.isAlive f.store = false ∧
      w'.routine.Refers c.holder f.field := by
  have hreach : Reachable Relay.relayed := (Reachable.empty _ _).after _
  have hfold := eq_ok_of_answer? (m := fold { settings := {}, inliner := Inliner.idle } ⟨1⟩ 0
    Relay.capture) (w := { routine := Relay.relayed }) (a := 1) (by decide +kernel)
  refine ⟨{ routine := Relay.relayed }, _, 1, Relay.capture, ⟨⟨8⟩, Sample.value, .loaded ⟨2⟩⟩,
    hreach, Relay.relayed_valid, rfl, hfold, ?_, by decide +kernel, ⟨22⟩, ⟨21⟩, Sample.value,
    by decide +kernel, by decide +kernel, by decide +kernel, rfl⟩
  rw [Relay.relayed_forwards]
  exact List.mem_cons_self

/-- After a fold, with an inliner that leaves everything as it is, a read of a forwarded field
    through the capture object reads the variable that was stored in the field, unless it has the
    receiver's type or belongs to a store that was removed. -/
theorem fold_redirects_reads (ctx : Context) (hreach : Reachable w.routine)
    (hvalid : w.routine.validate = .ok ()) (hblock : w.routine.isConnected block = true)
    (hi : (w.routine.instructions block)[index]? = some inst)
    (hc : w.routine.capture? ctx.settings inst = some c)
    (hthis : w.routine.ldloc? c.receiver = some this)
    (hidle : ∀ block index options w, ctx.inliner block index options w = .ok 0 w) :
    ∃ next w', fold ctx block index c w = .ok next w' ∧ w'.routine.validate = .ok () ∧
      ∀ id address load type field source, ∀ f ∈ (w.routine.capturePlan c).forwards,
        f.source = .loaded source → f.field.same field = true →
        w.routine.isConnected id = true → w.routine.ldobj? id = some (address, type) →
        w.routine.ldflda? address = some (load, field) →
        w.routine.ldloc? load = some c.holder → type.same c.receiverType = false →
        (∀ g ∈ (w.routine.capturePlan c).forwards, w.routine.encloses g.store id = false) →
        ∃ new, w'.routine.isConnected id = true ∧ w'.routine.ldobj? id = some (new, type) ∧
          w'.routine.ldloca? new = some source := by
  have V := (Routine.valid_iff hreach).mp hvalid
  have F := V.forest
  obtain ⟨⟨x, hx⟩, new, site, _, hfoldable⟩ := exists_foldable V hi hc hthis
  obtain ⟨next, w', hfold, V', _, hmarked⟩ :=
    fold_marks (w := w) hidle V hblock hi hc hthis
  refine ⟨next, w', hfold, V'.validate, ?_⟩
  intro id address load type field source f hf hsource hsame hconn hobj hfield hload htype houtside
  obtain ⟨g, hg, rfl⟩ := exists_recorded V hx hf
  have hfind : (c.recorded (w.routine.tree w.routine.body)).find? (·.field.same field) = some g :=
    find?_recorded hg hsame
  obtain ⟨hobj, hc₁⟩ := ldobj?_eq_some.mp hobj
  obtain ⟨hfield, hc₂⟩ := ldflda?_eq_some.mp hfield
  have hload := ldloc?_eq_some.mp hload
  have hread : w.routine.Holds (wrapperTree c id address load type field) :=
    .unary hobj hc₁ (.unary hfield hc₂ (.leaf hload (F.children_of_ldloc hload)))
  have hmem := Capture.read_mem_folded hfoldable (F.mem_subtrees_body.mpr ⟨hread, hconn⟩)
    (fun y hy hid => ?_) htype hfind
  · rw [← hmarked, Capture.standFor_of_loaded hsource] at hmem
    exact V'.forest.read_of_mem_marked hmem
  · rw [Bool.eq_false_iff]
    intro hrecorded
    obtain ⟨g', hg', hl⟩ := List.any_eq_true.mp hrecorded
    obtain hl : g'.store = y.label := Option.some.inj (beq_iff_eq.mp hl)
    have hopen := houtside g'.toForward ((perm_forwards V hx).mem_iff.mpr (List.mem_map_of_mem hg'))
    have habove : w.routine.Above g'.store id :=
      hl ▸ (F.mem_labels (F.mem_subtrees_body.mp hy).1).mp hid
    rw [Forwarding.toForward, F.encloses_false_iff] at hopen
    exact hopen habove

set_option maxRecDepth 8000 in
/-- A read of what `x` was stored in reads `x`. -/
theorem read_redirected : ∃ next w' new,
    fold { settings := {}, inliner := Inliner.idle } ⟨1⟩ 0 Relay.capture
      { routine := Relay.relayed } = .ok next w' ∧
    Relay.relayed.ldobj? ⟨17⟩ = some (⟨16⟩, .void) ∧
    w'.routine.ldobj? ⟨17⟩ = some (new, .void) ∧ w'.routine.ldloca? new = some ⟨2⟩ := by
  have hreach : Reachable Relay.relayed := (Reachable.empty _ _).after _
  have hblock : Relay.relayed.isConnected ⟨1⟩ = true := rfl
  have hi : (Relay.relayed.instructions ⟨1⟩)[0]? = some ⟨4⟩ := rfl
  have hc : Relay.relayed.capture? {} ⟨4⟩ = some Relay.capture := rfl
  have hthis : Relay.relayed.ldloc? Relay.capture.receiver = some ⟨0⟩ := rfl
  obtain ⟨next, w', hfold, _, hreads⟩ := fold_redirects_reads (w := { routine := Relay.relayed })
    ⟨{}, Inliner.idle⟩ hreach Relay.relayed_valid hblock hi hc hthis fun _ _ _ _ => rfl
  obtain ⟨new, _, hread, hnew⟩ := hreads ⟨17⟩ ⟨16⟩ ⟨15⟩ .void Sample.value ⟨2⟩
    ⟨⟨8⟩, Sample.value, .loaded ⟨2⟩⟩ (by rw [Relay.relayed_forwards]; simp) rfl rfl rfl rfl rfl rfl
    rfl (by rw [Relay.relayed_forwards]; decide +kernel)
  exact ⟨next, w', new, hfold, rfl, hread, hnew⟩

set_option maxRecDepth 8000 in
/-- A read of the receiver's type is a wrapper whatever was stored in the field: it becomes a load
    of the holder, not of `y`. -/
theorem read_collapsed : ∃ (w w' : Work) (next : Nat) (c : Capture) (f : Forward),
    Reachable w.routine ∧ w.routine.validate = .ok () ∧
      w.routine.capture? {} ⟨4⟩ = some c ∧
      fold { settings := {}, inliner := Inliner.idle } ⟨1⟩ 0 c w = .ok next w' ∧
      (w.routine.capturePlan c).forwards = [f] ∧ f.source = .loaded ⟨3⟩ ∧
      w.routine.ldobj? ⟨11⟩ = some (⟨10⟩, c.receiverType) ∧
      w.routine.ldflda? ⟨10⟩ = some (⟨9⟩, f.field) ∧ w.routine.ldloc? ⟨9⟩ = some c.holder ∧
      w.routine.instructions ⟨1⟩ = [⟨4⟩, ⟨8⟩, ⟨11⟩] ∧
      (w'.routine.instructions ⟨1⟩).map w'.routine.ldloc? = [none, some c.holder] := by
  have hreach : Reachable Relay.outward := (Reachable.empty _ _).after _
  have hfold := eq_ok_of_answer? (m := fold { settings := {}, inliner := Inliner.idle } ⟨1⟩ 0
    Relay.capture) (w := { routine := Relay.outward }) (a := 1) (by decide +kernel)
  exact ⟨{ routine := Relay.outward }, _, 1, Relay.capture, ⟨⟨8⟩, Sample.outer, .loaded ⟨3⟩⟩,
    hreach, by decide +kernel, rfl, hfold, rfl, rfl, rfl, rfl, rfl, by decide +kernel,
    by decide +kernel⟩

end CapturedReceiver

end CilFold
