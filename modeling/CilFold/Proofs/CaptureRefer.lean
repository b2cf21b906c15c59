/-
  The fold of a capture object: references to forwarded fields, and the construction.

  The references are looked for when the wrappers have collapsed, one load after the other. No
  replacement changes what is found for another load (`Grafted.reference?_eq`), nor the `unbox`
  trees that are copied, since those lie in forwarding stores, which are left alone.
-/
import CilFold.Proofs.CaptureFold

namespace CilFold

open Routine PassM

variable {w₀ w w' : Work} {r s s' s₁ : Routine} {address block id inst k load p : NodeId}
  {index : Nat} {t u x : Tree NodeId} {c : Capture} {plan : CapturePlan}

/-! ## What stays between replacements -/

/-- The parent of a node that is not in the place has that node as its only child afterwards
    if it had it before. -/
theorem Routine.Grafted.holds_over_iff (G : Grafted s id p u s') (F : s.Forest) {op op' : Op}
    (hload : s.isAlive load = true) (hbelow : ¬ s.Above id load) :
    s'.Holds (.node address op [.node load op' []]) ↔
      s.Holds (.node address op [.node load op' []]) := by
  constructor
  · intro h
    have F' := G.valid.forest
    have hp : s'.parent? load = some address :=
      F'.parent?_of_mem (h.children ▸ List.mem_singleton_self load)
    have hp' : s.parent? load = some address := by
      rw [← hp, (G.views load hload).parent, if_neg (F.encloses_iff.not.mpr hbelow)]
    obtain ⟨n, hn⟩ := F.exists_parent_node? hp'
    have haddress : ¬ s.Above id address := fun hab => hbelow (hab.under hp')
    -- neither of the two nodes has the new tree as a child
    have hnew := G.mem_children_new F
    have hne : ∀ k ∈ (Tree.node address op [.node load op' []]).labels, k ≠ p := by
      intro k hk he
      rw [← he] at hnew
      have hk' : k = address ∨ k = load := by simpa [Tree.mem_labels_node] using hk
      rcases hk' with rfl | rfl
      · have hchildren : s'.children k = [load] := h.children
        have hl : u.label = load := List.mem_singleton.mp (hchildren ▸ hnew)
        have hsize := G.fresh _ u.label_mem_labels
        rw [hl] at hsize
        exact absurd (index_lt_of_isAlive hload) (Nat.not_lt.mpr hsize)
      · have hchildren : s'.children k = [] := (h.operand (List.mem_singleton_self _)).children
        exact absurd (hchildren ▸ hnew) List.not_mem_nil
    refine h.congr fun k hk => ?_
    have halive : s.isAlive k = true ∧ ¬ s.Above id k := by
      have hk' : k = address ∨ k = load := by simpa [Tree.mem_labels_node] using hk
      rcases hk' with rfl | rfl
      · exact ⟨isAlive_of_node? hn, haddress⟩
      · exact ⟨hload, hbelow⟩
    have v := G.views k halive.1
    rw [v.op, v.children, if_neg (F.encloses_iff.not.mpr halive.2),
      if_neg (F.encloses_iff.not.mpr halive.2), if_neg (hne k hk)]
    exact ⟨rfl, rfl⟩
  · intro h
    have hp : s.parent? load = some address :=
      F.parent?_of_mem (h.children ▸ List.mem_singleton_self load)
    obtain ⟨y, hy, rfl⟩ := F.exists_holds (isAlive_of_parent? G.place)
    refine G.holds_other F hy rfl h (fun hmem => ?_) fun hmem => ?_
    · have hk : y.label = address ∨ y.label = load := by simpa [Tree.mem_labels_node] using hmem
      rcases hk with hk | hk
      · exact hbelow (hk ▸ Above.parent hp)
      · exact hbelow (hk ▸ Above.refl s load)
    · exact hbelow (((F.mem_labels hy).mp hmem).under hp)

/-- A replacement changes nothing about the references of other loads. -/
theorem Routine.Grafted.reference?_eq (G : Grafted s id p u s') (F : s.Forest) {v : VarId}
    (hload : s.op? load = some (.ldloc v)) (hbelow : ¬ s.Above id load) :
    s'.reference? plan load = s.reference? plan load := by
  have halive := isAlive_of_op? hload
  have hs' : s'.isAlive load = true := (G.isAlive_iff F halive).mpr hbelow
  have hload' : s'.op? load = some (.ldloc v) := (G.kept.op load halive hs').trans hload
  have hconn : s'.isConnected load = s.isConnected load := by
    rw [(G.views load halive).connected, if_neg (F.encloses_iff.not.mpr hbelow)]
  refine Option.ext fun ⟨address, source⟩ => ?_
  rw [reference?_eq_some G.valid.forest hload', reference?_eq_some F hload, hconn]
  simp only [G.above_iff F halive hbelow, G.holds_over_iff F halive hbelow]

/-! ## References -/

/-- What is put for a forwarded field, copied from a routine. -/
def standTree (s : Routine) : ForwardSource → Tree (Option NodeId)
  | .loaded v => .node none (.ldloca v) []
  | .unboxed id => (s.tree id).anew

/-- What is planted for the references in a list. -/
def plantRefs (s : Routine) (refs : List (NodeId × ForwardSource)) (a : Option NodeId) :
    Option (Tree (Option NodeId)) :=
  (refs.find? fun ref => some ref.1 == a).map fun ref => standTree s ref.2

theorem plant_plantRefs_anew (refs : List (NodeId × ForwardSource)) {α : Type} (u : Tree α) :
    u.anew.plant (plantRefs s refs) = u.anew := by
  refine Tree.plant_eq_self fun a ha => ?_
  rw [Tree.labels_anew ha, plantRefs, List.find?_eq_none.mpr fun ref _ => by simp]
  rfl

theorem plantRefs_eq_none {refs : List (NodeId × ForwardSource)} {a : Option NodeId}
    (h : ∀ ref ∈ refs, some ref.1 ≠ a) : plantRefs s refs a = none := by
  rw [plantRefs, List.find?_eq_none.mpr fun ref hr => by rw [beq_iff_eq]; exact h ref hr]
  rfl

theorem plantRefs_eq_some {refs : List (NodeId × ForwardSource)} {source : ForwardSource}
    (h : (address, source) ∈ refs) (huniq : ∀ other, (address, other) ∈ refs → other = source) :
    plantRefs s refs (some address) = some (standTree s source) := by
  unfold plantRefs
  cases hfind : refs.find? fun ref => some ref.1 == some address with
  | none =>
    have hno := List.find?_eq_none.mp hfind _ h
    rw [beq_self_eq_true] at hno
    exact absurd rfl hno
  | some ref =>
    obtain ⟨a, other⟩ := ref
    have hl := List.find?_some hfind
    obtain rfl : a = address := Option.some.inj (beq_iff_eq.mp hl)
    rw [Option.map_some, huniq other (List.mem_of_find?_eq_some hfind)]

theorem plantRefs_cons {refs : List (NodeId × ForwardSource)} {source : ForwardSource}
    (a : Option NodeId) : plantRefs s ((address, source) :: refs) a =
      if a = some address then some (standTree s source) else plantRefs s refs a := by
  unfold plantRefs
  rw [List.find?_cons]
  by_cases ha : a = some address
  · rw [if_pos ha, ha, beq_self_eq_true]
    rfl
  · have hne : (some address == a) = false := beq_eq_false_iff_ne.mpr (Ne.symm ha)
    rw [if_neg ha, hne]

/-- What holds while references are replaced; `s₁` is the routine at the start of the loop.
    Planting for the references that are left gives `goal`. -/
structure Referring (r s₁ : Routine) (w₀ : Work) (block : NodeId) (index : Nat) (t : Tree NodeId)
    (c : Capture) (goal : Tree (Option NodeId)) (pending : List NodeId) (w : Work) : Prop
    extends Folding r w₀ block index t w where
  nodup : pending.Nodup
  loads : ∀ load ∈ pending, w.routine.op? load = some (.ldloc c.holder) ∧
    w.routine.reference? (r.capturePlan c) load = s₁.reference? (r.capturePlan c) load
  addresses : ∀ load ∈ pending, ∀ address source,
    s₁.reference? (r.capturePlan c) load = some (address, source) → address.index < r.nodes.size
  sources : ∀ f ∈ (r.capturePlan c).forwards, ∀ id, f.source = .unboxed id →
    w.routine.Holds (s₁.tree id)
  marks : (r.marked w.routine r.body).plant
    (plantRefs s₁ (pending.filterMap (s₁.reference? (r.capturePlan c)))) = goal

namespace Collapsing

variable (h : Collapsing r w₀ block index t c [] (w.on s₁))
include h

/-- When no wrapper is left, the trees are the collapsed ones. -/
theorem marked_eq {op : Op} (hk : r.isConnected k = true) (hop : r.op? k = some op)
    (hfolds : op.folds = false) : r.marked s₁ k = ((r.tree k).map some).rewrite c.collapse := by
  have hmarks := h.marks k op hk hop hfolds
  rw [Tree.plant_eq_self fun a _ => by simp [plantLoads]] at hmarks
  exact hmarks

variable (V : r.Valid)
include V

theorem marked_body : r.marked s₁ s₁.body = ((r.tree r.body).map some).rewrite c.collapse := by
  have hbody : s₁.body = r.body := h.head.body
  rw [hbody]
  exact h.marked_eq V.forest.isConnected_body V.forest.op?_body rfl

/-- Nothing new but loads has come into the tree. -/
theorem index_lt_of_ldflda (hy : x ∈ (s₁.tree s₁.body).subtrees) {field : FieldDecl}
    (hop : x.op = .ldflda field) : x.label.index < r.nodes.size := by
  have hmem : x.map r.origin ∈ (r.marked s₁ s₁.body).subtrees := by
    rw [marked, Tree.subtrees_map]
    exact List.mem_map_of_mem hy
  rw [h.marked_body V] at hmem
  rcases Tree.mem_subtrees_rewrite hmem with hl | ⟨y, _, z, hz, hx⟩
  · rw [Tree.label_map, Tree.labels_map] at hl
    obtain ⟨k, _, hk⟩ := List.mem_map.mp hl
    obtain ⟨rfl, hlt⟩ := origin_eq_some.mp hk.symm
    exact hlt
  · unfold Capture.collapse at hz
    split_ifs at hz
    cases hz
    have hz : x.map r.origin = .node none (.ldloc c.holder) [] := by
      simpa [Tree.mem_subtrees_node] using hx
    have hxop := congrArg Tree.op hz
    rw [Tree.op_map, hop] at hxop
    cases hxop

/-- What the routine has to copy for a recorded field is what stands for it. -/
theorem standFor_eq {v : Variable} (hv : r.var? c.holder = some v) {g : Forwarding}
    (hg : g ∈ c.recorded (r.tree r.body)) : c.standFor g = standTree s₁ g.value.source := by
  obtain ⟨_, y, _, hhold, _, _, _, hstand⟩ := recorded_spec V hg
  have hvalue := hhold.operand (List.mem_cons_of_mem _ (List.mem_singleton_self g.value))
  have hf : g.toForward ∈ (r.capturePlan c).forwards :=
    (perm_forwards V hv).mem_iff.mpr (List.mem_map_of_mem hg)
  unfold Capture.standFor
  split
  · next heq => rw [heq]; rfl
  · next hne =>
    -- the value is an `unbox`, whose tree was collapsed like all others
    have hsource : g.value.source = .unboxed g.value.label := by
      unfold Tree.source
      split
      · next heq => exact absurd heq (hne _ _ _)
      · next heq => rw [heq, Tree.label_node]
    obtain ⟨type, hop, _, hconn⟩ := unboxed_spec V hv hf hsource
    have hmarked := h.marked_eq hconn hop rfl
    rw [V.forest.tree_of_holds hvalue] at hmarked
    rw [hsource, standTree, ← hmarked, marked, Tree.anew_map]

end Collapsing

/-- The references that the plan has in a routine whose wrappers have collapsed. -/
def references (r s₁ : Routine) (c : Capture) : List (NodeId × ForwardSource) :=
  (s₁.loads c.holder).filterMap (s₁.reference? (r.capturePlan c))

theorem mem_references (V : s₁.Valid) {v : Variable} (hv : s₁.var? c.holder = some v)
    {source : ForwardSource} : (address, source) ∈ references r s₁ c ↔ ∃ load field f,
      s₁.Holds (.node address (.ldflda field) [.node load (.ldloc c.holder) []]) ∧
        s₁.isConnected load = true ∧ (∀ g ∈ (r.capturePlan c).forwards, ¬ s₁.Above g.store load) ∧
        (r.capturePlan c).forwards.find? (·.field.same field) = some f ∧ f.source = source := by
  have F := V.forest
  rw [references, List.mem_filterMap]
  constructor
  · rintro ⟨load, hl, href⟩
    obtain ⟨hop, _⟩ := V.op?_of_mem_loads hl
    obtain ⟨hconn, houtside, field, f, hx, hfind, hsource⟩ := (reference?_eq_some F hop).mp href
    exact ⟨load, field, f, hx, hconn, houtside, hfind, hsource⟩
  · rintro ⟨load, field, f, hx, hconn, houtside, hfind, hsource⟩
    have hop := (hx.operand (List.mem_singleton_self _)).op?
    exact ⟨load, V.mem_loads hv hop hconn,
      (reference?_eq_some F hop).mpr ⟨hconn, houtside, field, f, hx, hfind, hsource⟩⟩

/-- A reference found by a load has the shape of one. -/
theorem shape_of_reference (V : s₁.Valid) {v : Variable} (hv : s₁.var? c.holder = some v)
    (hx : s₁.Holds x) {source : ForwardSource} (href : (x.label, source) ∈ references r s₁ c) :
    ∃ field f, x.fieldOfLocal? = some (field, c.holder) ∧
      (r.capturePlan c).forwards.find? (·.field.same field) = some f ∧ f.source = source := by
  obtain ⟨load, field, f, hy, _, _, hfind, hsource⟩ := (mem_references V hv).mp href
  rw [hx.unique hy rfl]
  exact ⟨field, f, rfl, hfind, hsource⟩

/-- A reference to a recorded field, outside the recorded stores, is found by its load. -/
theorem Collapsing.plantRefs_recorded {v v₁ : Variable} {field : FieldDecl} {g : Forwarding}
    (V : r.Valid) (hv : r.var? c.holder = some v) (hv₁ : s₁.var? c.holder = some v₁)
    (h : Collapsing r w₀ block index t c [] (w.on s₁))
    (hx : s₁.Holds (.node address (.ldflda field) [.node load (.ldloc c.holder) []]))
    (hconn : s₁.isConnected address = true)
    (hclosed : ∀ g ∈ c.recorded (r.tree r.body), ¬ s₁.Above g.store address)
    (hg : (c.recorded (r.tree r.body)).find? (·.field.same field) = some g) :
    plantRefs s₁ (references r s₁ c) (some address) = some (c.standFor g) := by
  have V₁ : s₁.Valid := h.valid
  have F₁ := V₁.forest
  have hfind := find?_forwards V hv field
  rw [hg, Option.map_some] at hfind
  have hp : s₁.parent? load = some address :=
    F₁.parent?_of_mem (hx.children ▸ List.mem_singleton_self load)
  have hload := (hx.operand (List.mem_singleton_self _)).op?
  have houtside : ∀ f ∈ (r.capturePlan c).forwards, ¬ s₁.Above f.store load := by
    intro f hf hab
    obtain ⟨g, hg, rfl⟩ := exists_recorded V hv hf
    obtain ⟨type, _, hop, _⟩ := forwards_spec V hv hf
    have hne : g.store ≠ load := by
      rintro rfl
      cases (h.toFolding.op? hop rfl).symm.trans hload
    exact hclosed g hg (hab.above_parent hne hp)
  rw [h.standFor_eq V hv (List.mem_of_find?_eq_some hg)]
  refine plantRefs_eq_some ?_ fun other href => ?_
  · exact (mem_references V₁ hv₁).mpr
      ⟨load, field, g.toForward, hx, (F₁.shared hp).trans hconn, houtside, hfind, rfl⟩
  · obtain ⟨field', f, hlocal, hf, rfl⟩ := shape_of_reference V₁ hv₁ hx href
    cases hlocal
    cases hfind.symm.trans hf
    rfl

/-- Outside the recorded stores, the references found by the loads are those with the shape of
    one. -/
theorem Collapsing.refer_eq {v v₁ : Variable} (V : r.Valid) (hv : r.var? c.holder = some v)
    (hv₁ : s₁.var? c.holder = some v₁) (h : Collapsing r w₀ block index t c [] (w.on s₁))
    (hx : s₁.Holds x) (hconn : s₁.isConnected x.label = true)
    (hclosed : ∀ g ∈ c.recorded (r.tree r.body), ¬ s₁.Above g.store x.label) :
    c.refer (c.recorded (r.tree r.body)) (x.map r.origin) =
      plantRefs s₁ (references r s₁ c) (x.map r.origin).label := by
  have V₁ : s₁.Valid := h.valid
  have F₁ := V₁.forest
  have hstore : ¬ ((c.recorded (r.tree r.body)).any
      (some ·.store == (x.map r.origin).label)) = true := by
    rw [List.any_eq_true]
    rintro ⟨g, hg, hl⟩
    rw [beq_iff_eq, Tree.label_map] at hl
    obtain ⟨hl, _⟩ := origin_eq_some.mp hl.symm
    exact hclosed g hg (hl ▸ Above.refl s₁ x.label)
  have hshape : ∀ ref ∈ references r s₁ c, some ref.1 = r.origin x.label →
      ∃ field f, x.fieldOfLocal? = some (field, c.holder) ∧
        (r.capturePlan c).forwards.find? (·.field.same field) = some f ∧ f.source = ref.2 := by
    rintro ⟨a, source⟩ href hl
    obtain ⟨rfl, _⟩ := origin_eq_some.mp hl.symm
    exact shape_of_reference V₁ hv₁ hx href
  unfold Capture.refer
  rw [if_neg hstore, Tree.fieldOfLocal?_map, Tree.label_map]
  cases hlocal : x.fieldOfLocal? with
  | none =>
    rw [plantRefs_eq_none fun ref href hl => ?_]
    · rfl
    · obtain ⟨_, _, hsome, _⟩ := hshape ref href hl
      cases hlocal.symm.trans hsome
  | some pair =>
    obtain ⟨field, u⟩ := pair
    show (if u == c.holder then _ else none) = _
    by_cases hu : u = c.holder
    · subst hu
      rw [beq_self_eq_true, if_pos rfl]
      cases hrecorded : (c.recorded (r.tree r.body)).find? (·.field.same field) with
      | none =>
        rw [plantRefs_eq_none fun ref href hl => ?_]
        · rfl
        · obtain ⟨_, f, hsome, hf, _⟩ := hshape ref href hl
          cases hlocal.symm.trans hsome
          rw [find?_forwards V hv field, hrecorded] at hf
          cases hf
      | some g =>
        obtain ⟨a, load, rfl⟩ := Tree.fieldOfLocal?_eq_some.mp hlocal
        have hlt := h.index_lt_of_ldflda V (F₁.mem_subtrees_body.mpr ⟨hx, hconn⟩) rfl
        have horigin : r.origin a = some a := origin_eq_some.mpr ⟨rfl, hlt⟩
        rw [Tree.label_node, horigin, h.plantRefs_recorded V hv hv₁ hx hconn hclosed hrecorded]
        rfl
    · rw [if_neg (by rw [beq_iff_eq]; exact hu), plantRefs_eq_none fun ref href hl => ?_]
      obtain ⟨_, _, hsome, _⟩ := hshape ref href hl
      cases hlocal.symm.trans hsome
      exact hu rfl

/-- Planting for the references found by the loads is rewriting by shapes. -/
theorem Collapsing.plant_references {v v₁ : Variable} (V : r.Valid) (hv : r.var? c.holder = some v)
    (hv₁ : s₁.var? c.holder = some v₁) (h : Collapsing r w₀ block index t c [] (w.on s₁)) :
    (r.marked s₁ s₁.body).plant (plantRefs s₁ (references r s₁ c)) =
      (r.marked s₁ s₁.body).rewrite (c.refer (c.recorded (r.tree r.body))) := by
  have V₁ : s₁.Valid := h.valid
  have F₁ := V₁.forest
  have hmem : ∀ a source, (a, source) ∈ references r s₁ c ↔ _ := fun a source =>
    mem_references V₁ hv₁
  have hstore : ∀ g ∈ c.recorded (r.tree r.body), g.toForward ∈ (r.capturePlan c).forwards :=
    fun g hg => (perm_forwards V hv).mem_iff.mpr (List.mem_map_of_mem hg)
  -- on the way down no recorded store has been entered
  refine (Tree.rewrite_eq_plant (P := fun u => ∃ y, u = y.map r.origin ∧ s₁.Holds y ∧
    s₁.isConnected y.label = true ∧ ∀ g ∈ c.recorded (r.tree r.body),
      s₁.Above g.store y.label → g.store = y.label) ?_ ?_).symm
  · refine ⟨s₁.tree s₁.body, rfl, F₁.holds_tree (isAlive_of_isConnected F₁.isConnected_body), ?_,
      fun g _ hab => ?_⟩
    · rw [label_tree]
      exact F₁.isConnected_body
    · rw [label_tree] at hab ⊢
      exact hab.eq_of_top F₁.parent?_body
  · rintro _ ⟨y, rfl, hy, hconn, hopen⟩
    by_cases hst : ∃ g ∈ c.recorded (r.tree r.body), g.store = y.label
    · obtain ⟨g, hg, hl⟩ := hst
      obtain ⟨type, _, hop, _⟩ := forwards_spec V hv (hstore g hg)
      refine .inr ⟨if_pos ?_, fun a ha => plantRefs_eq_none fun ref href he => ?_⟩
      · rw [List.any_eq_true]
        refine ⟨g, hg, ?_⟩
        have halive : r.isAlive g.store = true := isAlive_of_op? hop
        rw [Tree.label_map, ← hl, origin_of_isAlive halive, beq_self_eq_true]
      · rw [Tree.labels_map] at ha
        obtain ⟨k, hk, rfl⟩ := List.mem_map.mp ha
        obtain ⟨rfl, _⟩ := origin_eq_some.mp he.symm
        obtain ⟨load, field, _, hx, _, houtside, _⟩ := (hmem ref.1 ref.2).mp href
        have hp : s₁.parent? load = some ref.1 :=
          F₁.parent?_of_mem (hx.children ▸ List.mem_singleton_self load)
        have hab : s₁.Above g.store ref.1 := hl ▸ (F₁.mem_labels hy).mp hk
        exact houtside _ (hstore g hg) (hab.under hp)
    · have hclosed : ∀ g ∈ c.recorded (r.tree r.body), ¬ s₁.Above g.store y.label := fun g hg hab =>
        hst ⟨g, hg, hopen g hg hab⟩
      refine .inl ⟨h.refer_eq V hv hv₁ hy hconn hclosed, fun u hu => ?_⟩
      rw [Tree.operands_map] at hu
      obtain ⟨z, hz, rfl⟩ := List.mem_map.mp hu
      have hp : s₁.parent? z.label = some y.label :=
        F₁.parent?_of_mem (hy.children ▸ List.mem_map_of_mem hz)
      refine ⟨z, rfl, hy.operand hz, (F₁.shared hp).trans hconn, fun g hg hab => ?_⟩
      by_contra hne
      exact hclosed g hg (hab.above_parent hne hp)

theorem Referring.start {v : Variable} (V : r.Valid) (hv : r.var? c.holder = some v)
    (h : Collapsing r w₀ block index t c [] (w.on s₁)) :
    Referring r s₁ w₀ block index t c
      ((((r.tree r.body).map some).rewrite c.collapse).rewrite
        (c.refer (c.recorded (r.tree r.body))))
      (s₁.loads c.holder) (w.on s₁) := by
  have V₁ : s₁.Valid := h.valid
  have F₁ := V₁.forest
  obtain ⟨v₁, hv₁, _⟩ : ∃ v₁, s₁.var? c.holder = some v₁ ∧ v₁.bare = v.bare := by
    have hvars : (s₁.var? c.holder).map Variable.bare = some v.bare :=
      (h.head.var? c.holder).trans (congrArg (Option.map Variable.bare) hv)
    exact Option.map_eq_some_iff.mp hvars
  refine ⟨h.toFolding, V₁.nodup_loads _, fun load hl => ⟨(V₁.op?_of_mem_loads hl).1, rfl⟩,
    fun load hl address source href => ?_, fun f hf id hid => ?_, ?_⟩
  · obtain ⟨l, field, _, hx, hconn, _⟩ := (mem_references V₁ hv₁).mp
      (List.mem_filterMap.mpr ⟨load, hl, href⟩)
    have hp : s₁.parent? l = some address :=
      F₁.parent?_of_mem (hx.children ▸ List.mem_singleton_self l)
    exact h.index_lt_of_ldflda V
      (F₁.mem_subtrees_body.mpr ⟨hx, (F₁.shared hp).symm.trans hconn⟩) rfl
  · obtain ⟨type, hop, _⟩ := unboxed_spec V hv hf hid
    exact F₁.holds_tree (isAlive_of_op? (h.toFolding.op? hop rfl))
  · have hplant := h.plant_references V hv hv₁
    have hbody : s₁.body = r.body := h.head.body
    rw [h.marked_body V] at hplant
    rw [← hplant, ← h.marked_body V, hbody]
    rfl

/-- The `unbox` trees that are copied are still in their stores. -/
theorem Referring.unboxed {v : Variable} {goal : Tree (Option NodeId)} {loads : List NodeId}
    (V : r.Valid) (hv : r.var? c.holder = some v)
    (h : Referring r s₁ w₀ block index t c goal loads (w.on s)) {f : Forward}
    (hf : f ∈ (r.capturePlan c).forwards) (hid : f.source = .unboxed id) :
    s.Holds (s₁.tree id) ∧ s.isConnected id = true ∧ (∃ type, s.op? id = some (.unbox type)) ∧
      s.parent? id = some f.store := by
  obtain ⟨type, hr, hparent, hc⟩ := unboxed_spec V hv hf hid
  have hs : s.op? id = some (.unbox type) := h.toFolding.op? hr rfl
  exact ⟨h.sources f hf id hid, h.kept.connected id hc (isAlive_of_op? hs), ⟨type, hs⟩,
    (h.parent id (isAlive_of_op? hr) (isAlive_of_op? hs)).trans hparent⟩

namespace CapturedReceiver

/-- What stands for a forwarded field can be made, and fits into the place of an operand. -/
theorem standIn_sprout (V : s.Valid) (s₁ : Routine) {source : ForwardSource}
    (hsource : ∀ id, source = .unboxed id → s.Holds (s₁.tree id) ∧ s.isConnected id = true ∧
      ∃ type, s.op? id = some (.unbox type)) :
    ∃ m u, standIn source s = .ok u.label m ∧ Sprout s m u ∧ u.anew = standTree s₁ source ∧
      u.op.isBlock = false ∧ u.Placed ∧ ((∃ n v, u = .node n (.ldloca v) []) ∨
        ∃ t type, s.Holds t ∧ s.isConnected t.label = true ∧ t.op = .unbox type ∧
          u.bare = t.bare) := by
  cases source with
  | loaded v =>
    exact ⟨_, _, rfl, Sprout.leaf V.forest (.ldloca v) rfl, Tree.anew_node _ _ _, rfl,
      Tree.placed_leaf, .inl ⟨_, v, rfl⟩⟩
  | unboxed id =>
    obtain ⟨hhold, hconn, type, hop⟩ := hsource id rfl
    obtain ⟨m, u, hclone, S, hbare⟩ := Edit.clone_sprout V.forest hhold
    have htop := hhold.op?
    rw [label_tree] at hclone htop
    have hconn' : s.isConnected (s₁.tree id).label = true := (label_tree s₁ id).symm ▸ hconn
    have hunbox : (s₁.tree id).op = .unbox type := (Option.some.inj (hop.symm.trans htop)).symm
    refine ⟨m, u, hclone, S, Tree.anew_congr hbare, ?_, ?_,
      .inr ⟨_, type, hhold, hconn', hunbox, hbare⟩⟩
    · rw [← Tree.op_bare, hbare, Tree.op_bare, hunbox]
      rfl
    · rw [← Tree.placed_bare, hbare, Tree.placed_bare]
      exact V.placed hhold hconn'

theorem foldReferences_ends {goal : Tree (Option NodeId)} {loads : List NodeId} {v : Variable}
    {I : Routine → Prop} (hkeeps : c.Keeps I) (V₀ : r.Valid) (hv : r.var? c.holder = some v)
    (htop : t.op.folds = false)
    (hshape : ∀ y ∈ t.subtrees, y.op.folds = true → ∃ v, y.op = .ldloc v) (hstart : I s)
    (h : Referring r s₁ w₀ block index t c goal loads (w.on s)) :
    Ends (foldReferences index (r.capturePlan c) loads) (w.on s) fun _ w' =>
      Referring r s₁ w₀ block index t c goal [] w' ∧ I w'.routine := by
  refine Ends.forM (I := fun loads w => Referring r s₁ w₀ block index t c goal loads w ∧
    I w.routine) (fun load rest w s h => ?_) ⟨h, hstart⟩
  obtain ⟨h, hI⟩ := h
  have V : s.Valid := h.valid
  have F := V.forest
  obtain ⟨hnot, hnodup⟩ := List.nodup_cons.mp h.nodup
  obtain ⟨hload, hsame⟩ : s.op? load = some (.ldloc c.holder) ∧
    s.reference? (r.capturePlan c) load = s₁.reference? (r.capturePlan c) load :=
    h.loads load List.mem_cons_self
  refine Ends.bind (Ends.routine ?_)
  cases href : s.reference? (r.capturePlan c) load with
  | none =>
    refine Ends.pure ⟨⟨h.toFolding, hnodup, fun l hl => h.loads l (List.mem_cons_of_mem _ hl),
      fun l hl => h.addresses l (List.mem_cons_of_mem _ hl), h.sources, ?_⟩, hI⟩
    have hmarks := h.marks
    rw [List.filterMap_cons_none (hsame.symm.trans href)] at hmarks
    exact hmarks
  | some ref =>
    obtain ⟨address, source⟩ := ref
    obtain ⟨hconn, houtside, field, f, hx, hfind, rfl⟩ := (reference?_eq_some F hload).mp href
    have hf := List.mem_of_find?_eq_some hfind
    have hop : s.op? address = some (.ldflda field) := hx.op?
    have hpl : s.parent? load = some address :=
      F.parent?_of_mem (hx.children ▸ List.mem_singleton_self load)
    have hlt := h.addresses load List.mem_cons_self address f.source (hsame.symm.trans href)
    obtain ⟨m, u, hstand, S, hanew, hu, hplaced, hsource⟩ := standIn_sprout V s₁ fun id hid => by
      obtain ⟨h₁, h₂, h₃, _⟩ := h.unboxed V₀ hv hf hid
      exact ⟨h₁, h₂, h₃⟩
    have hreplaces : c.Replaces s address u := by
      rcases hsource with ⟨n, v, rfl⟩ | ⟨t, type, ht, hc, hop, hbare⟩
      · exact .loaded hx
      · exact .unboxed hx ht hc hop hbare
    have hsupplies : s.Supplies u := by
      rcases hsource with ⟨n, v, rfl⟩ | ⟨t, type, ht, hc, hop, hbare⟩
      · exact .inl (Tree.plain_leaf rfl rfl)
      · have htop := ht.op?
        rw [hop] at htop
        exact .inr ⟨t, ht, hc, isBlock_of_op? htop, isContainer_of_op? htop, hbare⟩
    have haconn : s.isConnected address = true := (F.shared hpl).symm.trans hconn
    obtain ⟨p, hp⟩ := F.exists_parent haconn (isContainer_of_op? hop)
    obtain ⟨s', hreplace, G⟩ := S.graft V hp haconn (isBlock_of_op? hop) hu hplaced
    refine Ends.bind (Ends.edit hstand (Ends.bind (Ends.edit hreplace
      (Ends.noteNode fun e hkind hmethod => ?_))))
    have hlog : Logged (w.on s) ((w.noted e).on s') :=
      Logged.single hkind (G.head.token ▸ hmethod) (.replaced rfl G haconn (isBlock_of_op? hop)
        (isContainer_of_op? hop) hsupplies)
    have hfolds : ∀ y ∈ (Tree.node address (.ldflda field)
        [.node load (.ldloc c.holder) []]).subtrees, y.op.folds = true := by
      simp [Tree.mem_subtrees_node, Op.folds]
    have hfolding := h.toFolding.graft G hlog hx rfl hfolds htop hshape fun v hv => by cases hv
    refine ⟨⟨hfolding, hnodup, fun l hl => ?_,
      fun l hl => h.addresses l (List.mem_cons_of_mem _ hl), fun g hg id hid => ?_, ?_⟩,
      hkeeps s s' address p u V hreplaces G hI⟩
    · obtain ⟨hlop, hlsame⟩ : s.op? l = some (.ldloc c.holder) ∧
        s.reference? (r.capturePlan c) l = s₁.reference? (r.capturePlan c) l :=
        h.loads l (List.mem_cons_of_mem _ hl)
      have hbelow : ¬ s.Above address l := by
        intro hab
        have hmem := (F.mem_labels hx).mpr hab
        have hl' : l = address ∨ l = load := by simpa [Tree.mem_labels_node] using hmem
        rcases hl' with rfl | rfl
        · cases hlop.symm.trans hop
        · exact hnot hl
      have hs' := (G.isAlive_iff F (isAlive_of_op? hlop)).mpr hbelow
      exact ⟨(G.kept.op l (isAlive_of_op? hlop) hs').trans hlop,
        (G.reference?_eq F hlop hbelow).trans hlsame⟩
    · -- the copied trees lie in forwarding stores, where no reference is replaced
      obtain ⟨hhold, _, ⟨type, hiop⟩, hp'⟩ := h.unboxed V₀ hv hg hid
      refine G.holds_other F hx rfl hhold ?_ ?_
      · rw [F.mem_labels hhold, label_tree]
        exact fun hab => houtside g hg (((Above.parent hp').trans hab).under hpl)
      · rw [label_tree]
        exact not_mem_of_folds hx hfolds hiop rfl
    · have hmarks := h.marks
      rw [List.filterMap_cons_some (hsame.symm.trans href)] at hmarks
      have hbody : s.body = r.body := h.head.body
      have hbelow : ¬ s.Above address r.body := hbody ▸ F.not_above_body hp
      have halive : s.isAlive r.body = true := hbody ▸ isAlive_of_isConnected F.isConnected_body
      show (r.marked s' r.body).plant _ = goal
      rw [G.marked F h.kept.size hlt halive hbelow, Tree.plant_plantAt, plant_plantRefs_anew,
        ← hmarks, hanew]
      exact Tree.plant_congr fun a _ => (plantRefs_cons a).symm

end CapturedReceiver

/-! ## The construction -/

/-- What a fold has come to when it is left to remove the forwarding stores. -/
structure Refolded (r : Routine) (w₀ : Work) (block : NodeId) (goal : Tree (Option NodeId))
    (w : Work) : Prop extends Scanned w₀ block w where
  kept : Kept r w.routine
  head : SameHead r w.routine
  length_eq : (w.routine.instructions block).length = (r.instructions block).length
  marks : r.marked w.routine r.body = goal

namespace CapturedReceiver

/-- The construction as a tree. -/
abbrev constructionTree (c : Capture) (inst new : NodeId) (site : CallSite) (this : VarId) :
    Tree NodeId :=
  .node inst (.stloc c.holder) [.node new (.call site) [.node c.receiver (.ldloc this) []]]

theorem replaceConstruction_ends {new : NodeId} {site : CallSite} {this : VarId}
    (hinst : r.isAlive inst = true)
    (h : Folding r w₀ block index (constructionTree c inst new site this) (w.on s)) :
    Ends (replaceConstruction block index c) (w.on s) fun _ w' => Refolded r w₀ block
      ((r.marked s r.body).plantAt (some inst)
        (.node none (.stloc c.holder) [.node none (.ldloc this) []])) w' ∧
      ∃ n l, Grafted s inst block (.node n (.stloc c.holder) [.node l (.ldloc this) []])
        w'.routine := by
  have V : s.Valid := h.valid
  have F := V.forest
  have ht : s.Holds (constructionTree c inst new site this) := h.holds
  have hi : (s.instructions block)[index]? = some inst := h.at_index
  have hkept : Kept r s := h.kept
  obtain ⟨hb, hi'⟩ := getElem?_instructions hi
  have hp : s.parent? inst = some block := F.parent?_of_mem (List.mem_of_getElem? hi')
  have hbconn : s.isConnected block = true := h.stays (isAlive_of_isBlock hb)
  have hconn : s.isConnected inst = true := (F.shared hp).trans hbconn
  have hop : s.op? inst = some (.stloc c.holder) := ht.op?
  have hleaf := (ht.operand (List.mem_singleton_self _)).operand (List.mem_singleton_self _)
  obtain ⟨m, u, hclone, S, hbare⟩ := Edit.clone_sprout F hleaf
  obtain ⟨l, rfl⟩ := Tree.exists_leaf_of_bare hbare
  have S' : Sprout s _ _ := S.wrap (.stloc c.holder) rfl
  have hcreate : Edit.create (.stloc c.holder) [l] m =
      .ok m.nextId (m.grow (.stloc c.holder) [l]) :=
    Edit.create_ok S.forest rfl (List.nodup_singleton _)
      fun x hx => List.mem_singleton.mp hx ▸ S.detached
  have hplaced : (Tree.node m.nextId (.stloc c.holder) [.node l (.ldloc this) []]).Placed := by
    intro y hy z hz
    have hy' : y = .node m.nextId (.stloc c.holder) [.node l (.ldloc this) []] ∨
        y = .node l (.ldloc this) [] := by simpa [Tree.mem_subtrees_node] using hy
    rcases hy' with rfl | rfl
    · rw [List.mem_singleton.mp hz]
      rfl
    · cases hz
  obtain ⟨s', hreplace, G⟩ := S'.graft V hp hconn (isBlock_of_op? hop) rfl hplaced
  refine Ends.bind (Ends.instruction hi (Ends.bind (Ends.edit hclone (Ends.bind (Ends.edit hcreate
    (Ends.bind (Ends.edit hreplace (Ends.noteNode fun e hkind hmethod => ?_))))))))
  have hlog : Logged (w.on s) ((w.noted e).on s') :=
    Logged.single hkind (G.head.token ▸ hmethod) (.replaced rfl G hconn (isBlock_of_op? hop)
      (isContainer_of_op? hop) (.inl (by simp [Op.isBlock, Op.isContainer])))
  have hstays : s'.isAlive block = true :=
    (G.isAlive_iff F (isAlive_of_isBlock hb)).mpr (F.not_above_parent hp)
  have hb' : s'.isBlock block = true :=
    (isBlock_congr (G.kept.op block (isAlive_of_isBlock hb) hstays)).trans hb
  refine ⟨⟨h.step G.valid G.kept hlog, hkept.trans G.kept, h.head.trans G.head, ?_, ?_⟩, _, l, G⟩
  · rw [← h.length_eq]
    show (s'.instructions block).length = (s.instructions block).length
    rw [instructions, if_pos hb', instructions, if_pos hb]
    exact G.length_children F (isAlive_of_isBlock hb) hstays
  · have hbody : s.body = r.body := h.head.body
    have hanew : (Tree.node m.nextId (.stloc c.holder) [.node l (.ldloc this) []]).anew =
        Tree.node none (.stloc c.holder) [.node (none : Option NodeId) (.ldloc this) []] := by
      rw [Tree.anew_node, List.map_singleton, Tree.anew_node]
      rfl
    show r.marked s' r.body = _
    rw [G.marked F hkept.size (index_lt_of_isAlive hinst)
      (hbody ▸ isAlive_of_isConnected F.isConnected_body) (hbody ▸ F.not_above_body hp), hanew]

/-! ## All parts but the last -/

/-- Retyping a variable does not touch the trees. -/
theorem holds_retyped (c : Capture) (ht : r.Holds t) : (c.retyped r).Holds t :=
  ht.congr fun _ _ => ⟨rfl, rfl⟩

theorem var?_holder_retyped {x : Variable} (hx : r.var? c.holder = some x) :
    (c.retyped r).var? c.holder = some { x with type := c.receiverType } := by
  rw [Capture.retyped, var?_modifyVariable, if_pos rfl, hx]
  rfl

theorem tree_retyped (c : Capture) (V : r.Valid) :
    (c.retyped r).tree (c.retyped r).body = r.tree r.body := by
  have F := (V.retype c.holder c.receiverType).forest
  have ht := holds_retyped c
    (V.forest.holds_tree (isAlive_of_isConnected V.forest.isConnected_body))
  have htree := F.tree_of_holds ht
  rw [label_tree] at htree
  exact htree

/-- Up to the removal of the forwarding stores, a fold is not refused, and it rewrites the tree
    as it should. What holds of the routine with the variable retyped and is kept by the
    replacements holds when the construction is about to go. -/
theorem fold_keeps {ctx : Context} {settings : Settings} {this : VarId} {Q : Nat → Work → Prop}
    {I : Routine → Prop} (hkeeps : c.Keeps I) (hretyped : I (c.retyped r))
    (h : Scanned w₀ block (w.on r)) (hi : (r.instructions block)[index]? = some inst)
    (hc : r.capture? settings inst = some c) (hthis : r.op? c.receiver = some (.ldloc this))
    (hremove : ∀ (w' : Work) s q new site n l, q.Valid → I q →
      (q.instructions block)[index]? = some inst → q.Holds (constructionTree c inst new site this) →
      Grafted q inst block (.node n (.stloc c.holder) [.node l (.ldloc this) []]) s →
      Refolded (c.retyped r) w₀ block (c.rewritten inst this (r.tree r.body)) (w'.on s) →
      Ends (removeForwards ctx block ((c.retyped r).capturePlan c).forwards.length
        (((c.retyped r).capturePlan c).forwards.map (·.store)) (index + 1)) (w'.on s) Q) :
    Ends (fold ctx block index c) (w.on r) Q := by
  have V : r.Valid := h.valid
  obtain ⟨new, site, that, ht, ⟨x, hx, _⟩, y, hy, hrecv, htype⟩ := capture?_spec V.forest hc
  have hthat := ((ht.operand (List.mem_singleton_self _)).operand (List.mem_singleton_self _)).op?
  obtain rfl : that = this := by
    cases hthat.symm.trans hthis
    rfl
  have V₁ : (c.retyped r).Valid := V.retype c.holder c.receiverType
  have ht₁ : (c.retyped r).Holds (constructionTree c inst new site that) := holds_retyped c ht
  have htree : (c.retyped r).tree (c.retyped r).body = r.tree r.body := tree_retyped c V
  have hx₁ := var?_holder_retyped hx
  have hretype : Edit.retype c.holder c.receiverType r = .ok () (c.retyped r) :=
    Edit.retype_ok hx c.receiverType
  have hi₁ : ((c.retyped r).instructions block)[index]? = some inst := hi
  have hkept : Kept r (c.retyped r) := Kept.retype c.holder c.receiverType
  have hreported : Reported r .variableRetyped (c.retyped r) := by
    rw [Capture.retyped, ← htype]
    exact .retyped hy hrecv
  rw [← htree] at hremove
  generalize c.retyped r = r₁ at *
  have htop : (constructionTree c inst new site that).op.folds = false := rfl
  have hshape : ∀ y ∈ (constructionTree c inst new site that).subtrees, y.op.folds = true →
      ∃ v, y.op = .ldloc v := by
    simp [Tree.mem_subtrees_node, Op.folds]
  refine Ends.bind (Ends.edit hretype (Ends.bind (Ends.note fun e hkind hmethod => ?_)))
  have hlog : Logged (w.on r) ((w.noted e).on r₁) :=
    Logged.single hkind (hreported.token ▸ hmethod) hreported
  have hfolding := Folding.start (h.step V₁ hkept hlog) ht₁ hi₁
  refine Ends.bind (Ends.routine ?_)
  refine (collapseWrappers_ends hkeeps htop hshape hretyped
    (Collapsing.start hfolding hx₁)).andThen ?_
  rintro _ w₁ s₁ ⟨hcollapsed, hI₁⟩
  have hI₁ : I s₁ := hI₁
  refine Ends.bind (Ends.routine ?_)
  refine (foldReferences_ends hkeeps V₁ hx₁ htop hshape hI₁
    (Referring.start V₁ hx₁ hcollapsed)).andThen ?_
  rintro _ w₂ s₂ ⟨hreferred, hI₂⟩
  have hmarks := hreferred.marks
  have hnothing : ∀ a, plantRefs s₁ [] a = none := fun _ => rfl
  rw [List.filterMap_nil, Tree.plant_eq_self fun a _ => hnothing a] at hmarks
  refine (replaceConstruction_ends ht₁.alive hreferred.toFolding).andThen ?_
  rintro _ w₃ s₃ ⟨hrefolded, n, l, G⟩
  have hmarks : r₁.marked s₂ r₁.body = _ := hmarks
  rw [hmarks] at hrefolded
  exact hremove w₃ s₃ s₂ new site n l hreferred.valid hI₂ hreferred.at_index hreferred.holds G
    hrefolded

theorem fold_ends {ctx : Context} {settings : Settings} {this : VarId} {Q : Nat → Work → Prop}
    (h : Scanned w₀ block (w.on r)) (hi : (r.instructions block)[index]? = some inst)
    (hc : r.capture? settings inst = some c) (hthis : r.op? c.receiver = some (.ldloc this))
    (hremove : ∀ (w' : Work) s,
      Refolded (c.retyped r) w₀ block (c.rewritten inst this (r.tree r.body)) (w'.on s) →
      Ends (removeForwards ctx block ((c.retyped r).capturePlan c).forwards.length
        (((c.retyped r).capturePlan c).forwards.map (·.store)) (index + 1)) (w'.on s) Q) :
    Ends (fold ctx block index c) (w.on r) Q :=
  fold_keeps (I := fun _ => True) (fun _ _ _ _ _ _ _ _ h => h) trivial h hi hc hthis
    fun w' s _ _ _ _ _ _ _ _ _ _ => hremove w' s

end CapturedReceiver

end CilFold
