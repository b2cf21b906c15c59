/-
  The plan of a fold, read off the tree. The plan is made from the use-list of the variable and
  from parent links; what it finds are the wrappers and the recorded forwarding stores of the
  tree below the body, the latter up to their order (`perm_forwards`).
-/
import CilFold.Proofs.CaptureTree

namespace CilFold

/-! ## Lists -/

section Lists

variable {α β : Type}

/-- What is looked up does not depend on the order if there is only one to be found. -/
theorem find?_eq_of_perm {p : α → Bool} {l m : List α} (h : l.Perm m)
    (huniq : ∀ a ∈ l, ∀ b ∈ l, p a = true → p b = true → a = b) : l.find? p = m.find? p := by
  cases hl : l.find? p with
  | none =>
    refine (List.find?_eq_none.mpr fun a ha => ?_).symm
    exact List.find?_eq_none.mp hl a (h.mem_iff.mpr ha)
  | some a =>
    have ha := List.mem_of_find?_eq_some hl
    have hpa := List.find?_some hl
    cases hm : m.find? p with
    | none => exact absurd hpa (List.find?_eq_none.mp hm a (h.mem_iff.mp ha))
    | some b =>
      have hb := h.mem_iff.mpr (List.mem_of_find?_eq_some hm)
      rw [huniq a ha b hb hpa (List.find?_some hm)]

/-- Of the elements that satisfy a condition there is only one if the count says so. -/
theorem eq_of_countP_eq_one {p : α → Bool} {l : List α} (h : l.countP p = 1) {a b : α}
    (ha : a ∈ l) (hb : b ∈ l) (hpa : p a = true) (hpb : p b = true) : a = b := by
  rw [List.countP_eq_length_filter] at h
  obtain ⟨x, hx⟩ := List.length_eq_one_iff.mp h
  have hmem : ∀ y ∈ l, p y = true → y = x := fun y hy hp =>
    List.mem_singleton.mp (hx ▸ List.mem_filter.mpr ⟨hy, hp⟩)
  rw [hmem a ha hpa, hmem b hb hpb]

/-- Picking from a list in a way that keeps a key gives a sublist of the keys. -/
theorem sublist_map_filterMap {κ : Type} {f : α → Option β} {key : α → κ} {key' : β → κ}
    (h : ∀ a b, f a = some b → key' b = key a) (l : List α) :
    ((l.filterMap f).map key').Sublist (l.map key) := by
  induction l with
  | nil => exact List.Sublist.refl _
  | cons a l ih =>
    cases hf : f a with
    | none =>
      rw [List.filterMap_cons_none hf, List.map_cons]
      exact ih.cons _
    | some b =>
      rw [List.filterMap_cons_some hf, List.map_cons, List.map_cons, h a b hf]
      exact ih.cons_cons _

end Lists

/-! ## Trees of the routine -/

/-- What the value of a forwarding store stands for. -/
def Tree.source : Tree NodeId → ForwardSource
  | .node _ (.ldloc v) _ => .loaded v
  | .node id _ _ => .unboxed id

/-- The forwarding store as a plan has it. -/
def Forwarding.toForward (f : Forwarding) : Forward := ⟨f.store, f.field, f.value.source⟩

namespace Routine

variable {r : Routine} {c : Capture} {inst load w : NodeId} {v : VarId} {settings : Settings}
  {t u : Tree NodeId}

theorem capture?_eq_some (F : r.Forest) : r.capture? settings inst = some c ↔
    ∃ new site this x y, r.Holds (.node inst (.stloc c.holder)
        [.node new (.call site) [.node c.receiver (.ldloc this) []]]) ∧
      (site.isNewobj = true ∧ site.method.isConstructor = true) ∧
      (r.var? c.holder = some x ∧ settings.isGenerated x.type.name = true ∧
        x.type = c.captureType) ∧
      r.var? this = some y ∧ y.isReceiver = true ∧ y.type = c.receiverType := by
  simp only [capture?, Option.bind_eq_bind, Option.bind_eq_some_iff]
  constructor
  · rintro ⟨⟨holder, new⟩, hst, x, hx, h⟩
    split_ifs at h with hgenerated
    split at h
    · next method receiver hnew =>
      split_ifs at h with hctor
      obtain ⟨y, hy, h⟩ := Option.bind_eq_some_iff.mp h
      cases h
      obtain ⟨hop, hc⟩ := stloc?_eq_some.mp hst
      obtain ⟨site, hsite, hargs, hkind, rfl⟩ := newobj?_eq_some.mp hnew
      obtain ⟨this, hld, hthis, hrecv⟩ := receiverLoad?_eq_some.mp hy
      exact ⟨new, site, this, x, y,
        .unary hop hc (.unary hsite hargs (.leaf hld (F.children_of_ldloc hld))), ⟨hkind, hctor⟩,
        ⟨hx, hgenerated, rfl⟩, hthis, hrecv, rfl⟩
    · cases h
  · rintro ⟨new, site, this, x, y, ht, ⟨hkind, hctor⟩, ⟨hx, hgenerated, hxtype⟩, hy, hrecv, hytype⟩
    have hmid := ht.operand (List.mem_singleton_self _)
    have hleaf := hmid.operand (List.mem_singleton_self _)
    have hnew : r.newobj? new = some (site.method, [c.receiver]) :=
      newobj?_eq_some.mpr ⟨site, hmid.op?, hmid.children, hkind, rfl⟩
    have hload : r.receiverLoad? c.receiver = some y :=
      receiverLoad?_eq_some.mpr ⟨this, hleaf.op?, hy, hrecv⟩
    refine ⟨(c.holder, new), stloc?_eq_some.mpr ⟨ht.op?, ht.children⟩, x, hx, ?_⟩
    rw [if_pos hgenerated]
    simp only [hnew, hctor, hload, hytype, hxtype, if_true, Option.bind_some]

/-- The construction of a capture object is a tree of three nodes. -/
theorem capture?_spec (F : r.Forest) (h : r.capture? settings inst = some c) :
    ∃ new site this, r.Holds (.node inst (.stloc c.holder)
        [.node new (.call site) [.node c.receiver (.ldloc this) []]]) ∧
      (∃ x, r.var? c.holder = some x ∧ x.type = c.captureType) ∧
      ∃ y, r.var? this = some y ∧ y.isReceiver = true ∧ y.type = c.receiverType := by
  obtain ⟨new, site, this, x, y, ht, _, ⟨hx, _, hxtype⟩, hy⟩ := (capture?_eq_some F).mp h
  exact ⟨new, site, this, ht, ⟨x, hx, hxtype⟩, y, hy⟩

theorem wrapper?_eq_some (F : r.Forest) (hload : r.op? load = some (.ldloc v)) :
    r.wrapper? c load = some w ↔ ∃ a field type,
      r.Holds (.node w (.ldobj type) [.node a (.ldflda field) [.node load (.ldloc v) []]]) ∧
        type.same c.receiverType = true := by
  have hleaf : r.Holds (.node load (.ldloc v) []) := .leaf hload (F.children_of_ldloc hload)
  simp only [wrapper?, Option.bind_eq_bind, Option.bind_eq_some_iff]
  constructor
  · rintro ⟨a, ha, ⟨target, field⟩, hfield, wr, hw, ⟨address, type⟩, hobj, h⟩
    split_ifs at h with htype
    cases h
    obtain ⟨haddress, _⟩ := (F.ldflda?_parent hleaf ha).mp hfield
    obtain ⟨hop, hc⟩ := ldobj?_eq_some.mp hobj
    obtain rfl := F.eq_of_only_child hw hc
    exact ⟨address, field, type, .unary hop hc haddress, htype⟩
  · rintro ⟨a, field, type, h, htype⟩
    have haddress := h.operand (List.mem_singleton_self _)
    have hw : r.parent? a = some w := F.parent?_of_mem (h.children ▸ List.mem_singleton_self a)
    have ha : r.parent? load = some a :=
      F.parent?_of_mem (haddress.children ▸ List.mem_singleton_self load)
    refine ⟨a, ha, (load, field), (F.ldflda?_parent hleaf ha).mpr ⟨haddress, rfl⟩, w, hw, (a, type),
      ldobj?_eq_some.mpr ⟨h.op?, h.children⟩, if_pos htype⟩

theorem forwardSource?_eq_some (F : r.Forest) (ht : r.Holds t) {source : ForwardSource} :
    r.forwardSource? c t.label = some source ↔ c.canStand t = true ∧ source = t.source := by
  obtain ⟨a, op, ts⟩ := t
  have hop : r.op? a = some op := ht.op?
  rw [forwardSource?, Tree.label_node]
  by_cases hld : ∃ v, op = .ldloc v
  · obtain ⟨v, rfl⟩ := hld
    rw [ldloc?_eq_some.mpr hop]
    simp only [Capture.canStand, Tree.source, bne_iff_ne]
    split_ifs with hv
    · exact iff_of_false (fun h => nomatch h) fun h => h.1 hv
    · rw [Option.some.injEq]
      exact ⟨fun h => ⟨hv, h.symm⟩, fun h => h.2.symm⟩
  · have hnone : r.ldloc? a = none := by
      rw [Option.eq_none_iff_forall_ne_some]
      intro v hv
      rw [ldloc?_eq_some, hop, Option.some.injEq] at hv
      exact hld ⟨v, hv⟩
    rw [hnone]
    by_cases hun : ∃ type, op = .unbox type
    · obtain ⟨type, rfl⟩ := hun
      obtain ⟨x, hx⟩ := List.length_eq_one_iff.mp ((F.fits' hop rfl rfl).1 1 rfl)
      rw [unbox?_eq_some.mpr ⟨hop, hx⟩]
      simp only [Capture.canStand, Tree.source, Option.isSome_some, if_true, Option.some.injEq,
        true_and]
      exact eq_comm
    · have hnone : r.unbox? a = none := by
        rw [Option.eq_none_iff_forall_ne_some]
        rintro ⟨x, type⟩ hx
        rw [unbox?_eq_some, hop, Option.some.injEq] at hx
        exact hun ⟨type, hx.1⟩
      rw [hnone]
      refine iff_of_false (fun h => nomatch h) fun h => ?_
      unfold Capture.canStand at h
      split at h
      · next v _ heq => exact hld ⟨v, by injection heq⟩
      · next type _ heq => exact hun ⟨type, by injection heq⟩
      · cases h.1

theorem forward?_eq_some (F : r.Forest) (hload : r.op? load = some (.ldloc v)) {f : Forward} :
    r.forward? c load = some f ↔ ∃ a type owner t,
      r.Holds (.node f.store (.stobj type)
          [.node a (.ldflda f.field) [.node load (.ldloc v) []], t]) ∧
        r.parent? f.store = some owner ∧ r.isBlock owner = true ∧
        f.field.owner.same c.captureType = true ∧ c.canStand t = true ∧ f.source = t.source := by
  have hleaf : r.Holds (.node load (.ldloc v) []) := .leaf hload (F.children_of_ldloc hload)
  simp only [forward?, Option.bind_eq_bind, Option.bind_eq_some_iff]
  constructor
  · rintro ⟨a, ha, ⟨target, field⟩, hfield, store, hs, ⟨address, value, type⟩, hst, owner, ho, h⟩
    split_ifs at h with hc
    rw [Bool.and_eq_true, Bool.and_eq_true, beq_iff_eq] at hc
    obtain ⟨⟨howner, rfl⟩, hblock⟩ := hc
    obtain ⟨source, hsource, h⟩ := Option.bind_eq_some_iff.mp h
    cases h
    obtain ⟨haddress, _⟩ := (F.ldflda?_parent hleaf ha).mp hfield
    obtain ⟨hop, hc⟩ := stobj?_eq_some.mp hst
    have hvalue : value ∈ r.children store :=
      hc ▸ List.mem_cons_of_mem _ (List.mem_singleton_self _)
    obtain ⟨t, ht, rfl⟩ := F.exists_holds (F.alive_of_mem_children hvalue)
    obtain ⟨hstand, hsrc⟩ := (forwardSource?_eq_some F ht).mp hsource
    exact ⟨address, type, owner, t, .binary hop hc haddress ht, ho, hblock, howner, hstand, hsrc⟩
  · rintro ⟨a, type, owner, t, h, ho, hblock, howner, hstand, hsrc⟩
    have haddress := h.operand List.mem_cons_self
    have ht := h.operand (List.mem_cons_of_mem _ (List.mem_singleton_self t))
    have hs : r.parent? a = some f.store := F.parent?_of_mem (h.children ▸ List.mem_cons_self)
    have ha : r.parent? load = some a :=
      F.parent?_of_mem (haddress.children ▸ List.mem_singleton_self load)
    refine ⟨a, ha, (load, f.field), (F.ldflda?_parent hleaf ha).mpr ⟨haddress, rfl⟩, f.store, hs,
      (a, t.label, type), stobj?_eq_some.mpr ⟨h.op?, h.children⟩, owner, ho, ?_⟩
    rw [howner, hblock, beq_self_eq_true, Bool.and_self, Bool.and_self, if_pos rfl]
    refine Option.bind_eq_some_iff.mpr ⟨f.source, ?_, rfl⟩
    exact (forwardSource?_eq_some F ht).mpr ⟨hstand, hsrc⟩

theorem reference?_eq_some (F : r.Forest) (hload : r.op? load = some (.ldloc v))
    {plan : CapturePlan} {address : NodeId} {source : ForwardSource} :
    r.reference? plan load = some (address, source) ↔
      r.isConnected load = true ∧ (∀ f ∈ plan.forwards, ¬ r.Above f.store load) ∧
        ∃ field f, r.Holds (.node address (.ldflda field) [.node load (.ldloc v) []]) ∧
          plan.forwards.find? (·.field.same field) = some f ∧ f.source = source := by
  have hleaf : r.Holds (.node load (.ldloc v) []) := .leaf hload (F.children_of_ldloc hload)
  have hguard : (r.isConnected load && !plan.forwards.any fun f => r.encloses f.store load) = true ↔
      r.isConnected load = true ∧ ∀ f ∈ plan.forwards, ¬ r.Above f.store load := by
    rw [Bool.and_eq_true, Bool.not_eq_true', List.any_eq_false]
    simp only [F.encloses_iff]
  unfold reference?
  split_ifs with hc
  · rw [hguard] at hc
    simp only [Option.bind_eq_bind, Option.bind_eq_some_iff]
    constructor
    · rintro ⟨a, ha, ⟨target, field⟩, hfield, f, hf, h⟩
      cases h
      exact ⟨hc.1, hc.2, field, f, ((F.ldflda?_parent hleaf ha).mp hfield).1, hf, rfl⟩
    · rintro ⟨_, _, field, f, haddress, hf, rfl⟩
      have ha : r.parent? load = some address :=
        F.parent?_of_mem (haddress.children ▸ List.mem_singleton_self load)
      exact ⟨address, ha, (load, field), (F.ldflda?_parent hleaf ha).mpr ⟨haddress, rfl⟩,
        f, hf, rfl⟩
  · rw [hguard] at hc
    exact iff_of_false (fun h => nomatch h) fun h => hc ⟨h.1, h.2.1⟩

/-! ## The tree below the body -/

namespace Forest

variable (F : r.Forest)
include F

theorem mem_subtrees_body :
    u ∈ (r.tree r.body).subtrees ↔ r.Holds u ∧ r.isConnected u.label = true := by
  have hbody := F.holds_tree (isAlive_of_isConnected F.isConnected_body)
  constructor
  · intro hu
    refine ⟨hbody.subtree hu, F.isConnected_iff_above.mpr ?_⟩
    have hmem := (F.mem_labels hbody).mp (List.mem_map_of_mem hu)
    rwa [label_tree] at hmem
  · rintro ⟨hu, hc⟩
    refine F.mem_subtrees hbody hu ?_
    rw [label_tree]
    exact F.isConnected_iff_above.mp hc

theorem mem_instructions_body : u ∈ (r.tree r.body).instructions ↔
    r.Holds u ∧ r.isConnected u.label = true ∧
      ∃ owner, r.parent? u.label = some owner ∧ r.isBlock owner = true := by
  rw [Tree.mem_instructions]
  constructor
  · rintro ⟨b, hb, hop, hu⟩
    obtain ⟨hhold, hc⟩ := F.mem_subtrees_body.mp hb
    have hp : r.parent? u.label = some b.label :=
      F.parent?_of_mem (hhold.children ▸ List.mem_map_of_mem hu)
    refine ⟨hhold.operand hu, (F.shared hp).trans hc, b.label, hp, ?_⟩
    rw [isBlock, hhold.op?]
    exact hop
  · rintro ⟨hu, hc, owner, hp, hblock⟩
    obtain ⟨b, hb, rfl⟩ := F.exists_holds (isAlive_of_isBlock hblock)
    refine ⟨b, F.mem_subtrees_body.mpr ⟨hb, (F.shared hp).symm.trans hc⟩, ?_, ?_⟩
    · rw [isBlock, hb.op?] at hblock
      exact hblock
    · have hmem := F.listed hp
      rw [hb.children] at hmem
      obtain ⟨y, hy, hl⟩ := List.mem_map.mp hmem
      rw [hu.unique (hb.operand hy) hl.symm]
      exact hy

end Forest

/-! ## The plan -/

section Plan

variable (V : r.Valid) {x : Variable} (hx : r.var? c.holder = some x)
include V hx

/-- The load in an address of a field of the capture object is on the use-list. -/
theorem mem_loads_of_fieldOfLocal? {field : FieldDecl} (hu : r.Holds u)
    (hc : r.isConnected u.label = true) (h : u.fieldOfLocal? = some (field, c.holder)) :
    ∃ a load, load ∈ r.loads c.holder ∧ r.op? load = some (.ldloc c.holder) ∧
      u = .node a (.ldflda field) [.node load (.ldloc c.holder) []] := by
  obtain ⟨a, load, rfl⟩ := Tree.fieldOfLocal?_eq_some.mp h
  have hleaf := hu.operand (List.mem_singleton_self _)
  have hp : r.parent? load = some a :=
    V.forest.parent?_of_mem (hu.children ▸ List.mem_singleton_self load)
  exact ⟨a, load, V.mem_loads hx hleaf.op? ((V.forest.shared hp).trans hc), hleaf.op?, rfl⟩

/-- The wrappers of the plan are those in the tree. -/
theorem mem_wrappers (hu : u ∈ (r.tree r.body).subtrees) :
    u.label ∈ (r.capturePlan c).wrappers ↔ c.isWrapper u = true := by
  have F := V.forest
  obtain ⟨hhold, hconn⟩ := F.mem_subtrees_body.mp hu
  rw [Capture.isWrapper_iff]
  constructor
  · intro h
    obtain ⟨load, hl, hw⟩ := List.mem_filterMap.mp h
    obtain ⟨hop, _⟩ := V.op?_of_mem_loads hl
    obtain ⟨a, field, type, hwrap, htype⟩ := (wrapper?_eq_some F hop).mp hw
    exact ⟨u.label, type, _, field, hhold.unique hwrap rfl,
      Tree.fieldOfLocal?_eq_some.mpr ⟨a, load, rfl⟩, htype⟩
  · rintro ⟨w, type, y, field, rfl, hy, htype⟩
    have hop := hhold.operand (List.mem_singleton_self y)
    have hp : r.parent? y.label = some w :=
      F.parent?_of_mem (hhold.children ▸ List.mem_singleton_self y.label)
    obtain ⟨a, load, hl, hload, rfl⟩ :=
      mem_loads_of_fieldOfLocal? V hx hop ((F.shared hp).trans hconn) hy
    exact List.mem_filterMap.mpr
      ⟨load, hl, (wrapper?_eq_some F hload).mpr ⟨a, field, type, hhold, htype⟩⟩

omit hx in
theorem nodup_wrappers : (r.capturePlan c).wrappers.Nodup := by
  have F := V.forest
  refine (V.nodup_loads c.holder).filterMap fun l l' w hw hw' => ?_
  simp only [wrapper?, Option.bind_eq_bind, Option.mem_def, Option.bind_eq_some_iff] at hw hw'
  obtain ⟨a, ha, ⟨_, _⟩, hfield, _, hp, ⟨_, _⟩, hobj, hw⟩ := hw
  obtain ⟨a', ha', ⟨_, _⟩, hfield', _, hp', ⟨_, _⟩, hobj', hw'⟩ := hw'
  split_ifs at hw hw'
  cases hw
  cases hw'
  have hab := F.eq_of_only_child hp (ldobj?_eq_some.mp hobj).2
  have hab' := F.eq_of_only_child hp' (ldobj?_eq_some.mp hobj).2
  obtain rfl : a = a' := hab.symm.trans hab'
  rw [← F.eq_of_only_child ha (ldflda?_eq_some.mp hfield).2,
    ← F.eq_of_only_child ha' (ldflda?_eq_some.mp hfield).2]

/-- The forwarding stores that the plan considers, in the order of the loads. -/
def forwardStores (r : Routine) (c : Capture) : List Forward :=
  ((r.loads c.holder).filter fun load => (r.wrapper? c load).isNone).filterMap (r.forward? c)

theorem mem_forwardStores {g : Forward} : g ∈ r.forwardStores c ↔
    ∃ f ∈ c.forwardings (r.tree r.body), f.toForward = g := by
  have F := V.forest
  rw [forwardStores, List.mem_filterMap]
  constructor
  · rintro ⟨load, hl, hg⟩
    obtain ⟨hop, hconn⟩ := V.op?_of_mem_loads (List.mem_of_mem_filter hl)
    obtain ⟨a, type, owner, t, hst, hp, hblock, howner, hstand, hsrc⟩ :=
      (forward?_eq_some F hop).mp hg
    have hload : r.parent? load = some a :=
      F.parent?_of_mem ((hst.operand List.mem_cons_self).children ▸ List.mem_singleton_self load)
    have ha : r.parent? a = some g.store := F.parent?_of_mem (hst.children ▸ List.mem_cons_self)
    have hc : r.isConnected g.store = true := by
      rw [← F.shared ha, ← F.shared hload]
      exact hconn
    refine ⟨⟨g.store, g.field, t⟩, List.mem_filterMap.mpr ⟨_, F.mem_instructions_body.mpr
      ⟨hst, hc, owner, hp, hblock⟩, Capture.forwarding?_eq_some.mpr ⟨type, _, rfl,
      Tree.fieldOfLocal?_eq_some.mpr ⟨a, load, rfl⟩, howner, hstand⟩⟩, ?_⟩
    rw [Forwarding.toForward, ← hsrc]
  · rintro ⟨f, hf, rfl⟩
    obtain ⟨_, hinst, hf⟩ := List.mem_filterMap.mp hf
    obtain ⟨type, y, rfl, hy, howner, hstand⟩ := Capture.forwarding?_eq_some.mp hf
    obtain ⟨hst, hc, owner, hp, hblock⟩ := F.mem_instructions_body.mp hinst
    have hpy : r.parent? y.label = some f.store :=
      F.parent?_of_mem (hst.children ▸ List.mem_cons_self)
    obtain ⟨a, load, hl, hload, rfl⟩ := mem_loads_of_fieldOfLocal? V hx
      (hst.operand List.mem_cons_self) ((F.shared hpy).trans hc) hy
    refine ⟨load, List.mem_filter.mpr ⟨hl, ?_⟩, (forward?_eq_some F hload).mpr
      ⟨a, type, owner, f.value, hst, hp, hblock, howner, hstand, rfl⟩⟩
    -- the address belongs to the store, so it is in no wrapper
    rw [Option.isNone_iff_eq_none, Option.eq_none_iff_forall_ne_some]
    intro w hw
    obtain ⟨a', _, _, hwrap, _⟩ := (wrapper?_eq_some F hload).mp hw
    have hpa' : r.parent? a' = some w :=
      F.parent?_of_mem (hwrap.children ▸ List.mem_singleton_self a')
    have hpl : r.parent? load = some a := F.parent?_of_mem
      ((hst.operand List.mem_cons_self).children ▸ List.mem_singleton_self load)
    have hpl' : r.parent? load = some a' := F.parent?_of_mem
      ((hwrap.operand (List.mem_singleton_self _)).children ▸ List.mem_singleton_self load)
    obtain rfl := Option.some.inj (hpl.symm.trans hpl')
    obtain rfl := Option.some.inj (hpy.symm.trans hpa')
    cases hst.op?.symm.trans hwrap.op?

omit hx in
theorem nodup_forwardStores : (r.forwardStores c).Nodup := by
  have F := V.forest
  refine ((V.nodup_loads c.holder).filter _).filterMap fun l l' g hg hg' => ?_
  simp only [forward?, Option.bind_eq_bind, Option.mem_def, Option.bind_eq_some_iff] at hg hg'
  obtain ⟨a, ha, ⟨_, _⟩, hfield, store, _, ⟨_, _, _⟩, hst, _, _, hg⟩ := hg
  obtain ⟨a', ha', ⟨_, _⟩, hfield', store', _, ⟨_, _, _⟩, hst', _, _, hg'⟩ := hg'
  split_ifs at hg hg' with hc hc'
  obtain ⟨_, _, hg⟩ := Option.bind_eq_some_iff.mp hg
  obtain ⟨_, _, hg'⟩ := Option.bind_eq_some_iff.mp hg'
  rw [Bool.and_eq_true, Bool.and_eq_true, beq_iff_eq] at hc hc'
  obtain rfl : store = store' := (congrArg Forward.store (Option.some.inj hg)).trans
    (congrArg Forward.store (Option.some.inj hg')).symm
  obtain ⟨hfirst, _⟩ := Prod.mk.inj (Option.some.inj (hst.symm.trans hst'))
  obtain rfl : a = a' := hc.1.2.symm.trans (hfirst.trans hc'.1.2)
  rw [← F.eq_of_only_child ha (ldflda?_eq_some.mp hfield).2,
    ← F.eq_of_only_child ha' (ldflda?_eq_some.mp hfield).2]

omit hx in
theorem nodup_forwardings : ((c.forwardings (r.tree r.body)).map Forwarding.toForward).Nodup := by
  have F := V.forest
  have hbody := F.holds_tree (isAlive_of_isConnected F.isConnected_body)
  refine List.Nodup.of_map Forward.store ?_
  rw [List.map_map]
  refine (Tree.nodup_instructions (F.nodup_labels hbody)).sublist (sublist_map_filterMap ?_ _)
  intro t f hf
  obtain ⟨_, _, rfl, _⟩ := Capture.forwarding?_eq_some.mp hf
  rfl

theorem perm_forwardStores :
    (r.forwardStores c).Perm ((c.forwardings (r.tree r.body)).map Forwarding.toForward) := by
  rw [List.perm_ext_iff_of_nodup (nodup_forwardStores V) (nodup_forwardings V)]
  intro g
  rw [mem_forwardStores V hx, List.mem_map]

/-- The plan forwards the fields that are recorded in the tree. -/
theorem perm_forwards :
    (r.capturePlan c).forwards.Perm ((c.recorded (r.tree r.body)).map Forwarding.toForward) := by
  have hperm := perm_forwardStores V hx
  have hcount : ∀ g : Forward, (r.forwardStores c).countP (·.field.same g.field) =
      (c.forwardings (r.tree r.body)).countP (·.field.same g.field) := by
    intro g
    rw [hperm.countP_eq, List.countP_map]
    rfl
  have hplan : (r.capturePlan c).forwards = (r.forwardStores c).filter fun g =>
      (c.forwardings (r.tree r.body)).countP (·.field.same g.field) == 1 :=
    List.filter_congr fun g _ => congrArg (· == 1) (hcount g)
  have hfiltered := hperm.filter fun g =>
    (c.forwardings (r.tree r.body)).countP (·.field.same g.field) == 1
  rw [List.filter_map] at hfiltered
  rw [hplan]
  exact hfiltered

omit V hx in
/-- A field has one recorded store at most. -/
theorem eq_of_recorded {field : FieldDecl} {t : Tree NodeId} {f f' : Forwarding}
    (hf : f ∈ c.recorded t) (hf' : f' ∈ c.recorded t) (h : f.field.same field = true)
    (h' : f'.field.same field = true) : f = f' := by
  obtain ⟨hmem, hcount⟩ := List.mem_filter.mp hf
  rw [FieldDecl.same, beq_iff_eq] at h h'
  refine eq_of_countP_eq_one (beq_iff_eq.mp hcount) hmem (List.mem_of_mem_filter hf') ?_ ?_
  · exact beq_self_eq_true _
  · exact beq_iff_eq.mpr (h'.trans h.symm)

/-- The plan finds for a field what is recorded for it. -/
theorem find?_forwards (field : FieldDecl) :
    (r.capturePlan c).forwards.find? (·.field.same field) =
      ((c.recorded (r.tree r.body)).find? (·.field.same field)).map Forwarding.toForward := by
  rw [find?_eq_of_perm (perm_forwards V hx), List.find?_map]
  · rfl
  · intro g hg g' hg' h h'
    obtain ⟨f, hf, rfl⟩ := List.mem_map.mp ((perm_forwards V hx).mem_iff.mp hg)
    obtain ⟨f', hf', rfl⟩ := List.mem_map.mp ((perm_forwards V hx).mem_iff.mp hg')
    rw [eq_of_recorded hf hf' h h']

theorem exists_recorded {f : Forward} (hf : f ∈ (r.capturePlan c).forwards) :
    ∃ g ∈ c.recorded (r.tree r.body), g.toForward = f := by
  obtain ⟨g, hg, h⟩ := List.mem_map.mp ((perm_forwards V hx).mem_iff.mp hf)
  exact ⟨g, hg, h⟩

omit hx in
theorem recorded_spec {g : Forwarding} (hg : g ∈ c.recorded (r.tree r.body)) :
    ∃ type y owner, r.Holds (.node g.store (.stobj type) [y, g.value]) ∧
      r.isConnected g.store = true ∧ r.parent? g.store = some owner ∧ r.isBlock owner = true ∧
      c.canStand g.value = true := by
  obtain ⟨_, hinst, hg⟩ := List.mem_filterMap.mp (List.mem_of_mem_filter hg)
  obtain ⟨type, y, rfl, _, _, hstand⟩ := Capture.forwarding?_eq_some.mp hg
  obtain ⟨hhold, hc, owner, hp, hb⟩ := V.forest.mem_instructions_body.mp hinst
  exact ⟨type, y, owner, hhold, hc, hp, hb, hstand⟩

/-- A forwarding store of the plan is a connected instruction. -/
theorem forwards_spec {f : Forward} (hf : f ∈ (r.capturePlan c).forwards) :
    ∃ type owner, r.op? f.store = some (.stobj type) ∧ r.isConnected f.store = true ∧
      r.parent? f.store = some owner ∧ r.isBlock owner = true := by
  obtain ⟨g, hg, rfl⟩ := exists_recorded V hx hf
  obtain ⟨type, y, owner, hhold, hc, hp, hb, _⟩ := recorded_spec V hg
  exact ⟨type, owner, hhold.op?, hc, hp, hb⟩

theorem stores_spec {st : NodeId} (hst : st ∈ (r.capturePlan c).forwards.map (·.store)) :
    (r.isConnected st = true ∧ ∃ owner, r.parent? st = some owner ∧ r.isBlock owner = true) ∧
      ∃ type, r.op? st = some (.stobj type) := by
  obtain ⟨f, hf, rfl⟩ := List.mem_map.mp hst
  obtain ⟨type, owner, hop, hconn, hp, hb⟩ := forwards_spec V hx hf
  exact ⟨⟨hconn, owner, hp, hb⟩, type, hop⟩

/-- The `unbox` that a plan forwards is the value of the store. -/
theorem unboxed_spec {f : Forward} (hf : f ∈ (r.capturePlan c).forwards) {id : NodeId}
    (hid : f.source = .unboxed id) : ∃ type, r.op? id = some (.unbox type) ∧
      r.parent? id = some f.store ∧ r.isConnected id = true := by
  obtain ⟨g, hg, rfl⟩ := exists_recorded V hx hf
  obtain ⟨_, y, _, hhold, hc, _, _, hstand⟩ := recorded_spec V hg
  have hvalue := hhold.operand (List.mem_cons_of_mem _ (List.mem_singleton_self g.value))
  have hp : r.parent? g.value.label = some g.store := V.forest.parent?_of_mem
    (hhold.children ▸ List.mem_cons_of_mem _ (List.mem_singleton_self _))
  rw [Forwarding.toForward] at hid
  unfold Capture.canStand at hstand
  split at hstand
  · next heq => rw [heq] at hid; cases hid
  · next a type _ heq =>
    rw [heq] at hid hvalue hp
    cases hid
    exact ⟨type, hvalue.op?, hp, (V.forest.shared hp).trans hc⟩
  · cases hstand

end Plan

end Routine

end CilFold
