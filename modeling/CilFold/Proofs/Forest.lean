/-
  The arena as a forest. `Forest r` says what holds between the nodes of a routine, those of
  the tree and the detached ones alike:

    the body is a connected container without a parent;
    a node lists its children once each, and they point back to it;
    a node with a parent is listed by it;
    the way up from a node ends;
    the two ends of a link are both connected or both not, and no node without a parent is
    connected but the body;
    a node has as many children as its operation asks for.

  The walks of a routine are bounded by the size of its arena. On a forest the bounds are
  never reached (`lineage_cons`, `rightFirst_eq`, `preorder_eq`), so that `encloses`, `topOf`,
  `rightFirst` and `preorder` mean what they should: the nodes listed below a node are those
  from which the way up meets it, each once.
-/
import Mathlib.Logic.Relation
import Mathlib.Data.List.Nodup
import CilFold.Routine.Edit

namespace CilFold

/-- The numbers of children that a node of the operation may have. Blocks and containers are
    filled after they were created, so theirs are free. -/
def Op.Fits (op : Op) (count : Nat) : Prop :=
  op.isBlock = false → op.isContainer = false →
    (∀ arity, op.arity? = some arity → count = arity) ∧ (op = .ret → count ≤ 1)

namespace Routine

/-- The first node is the second one or lies above it. -/
def Above (r : Routine) (a id : NodeId) : Prop :=
  Relation.ReflTransGen (fun id parent => r.parent? id = some parent) id a

/-- The links between the nodes of an arena form a forest, and the marks fit it. -/
structure Forest (r : Routine) : Prop where
  root : ∃ n, r.node? r.body = some n ∧ n.op = .container ∧ n.parent = none ∧ n.connected = true
  nodup : ∀ {id n}, r.node? id = some n → n.children.Nodup
  child : ∀ {id n c}, r.node? id = some n → c ∈ n.children → r.parent? c = some id
  listed : ∀ {id p}, r.parent? id = some p → id ∈ r.children p
  grounded : WellFounded fun p id => r.parent? id = some p
  shared : ∀ {id p}, r.parent? id = some p → r.isConnected id = r.isConnected p
  lone : ∀ {id n}, r.node? id = some n → n.parent = none → n.connected = true → id = r.body
  fits : ∀ {id n}, r.node? id = some n → n.op.Fits n.children.length

/-! ## Views of a node -/

variable {r s : Routine} {a b c id p x y : NodeId} {n : Node}

theorem parent?_of_node? (h : r.node? id = some n) : r.parent? id = n.parent := by
  rw [parent?, h, Option.bind_some]

theorem isConnected_of_node? (h : r.node? id = some n) : r.isConnected id = n.connected := by
  rw [isConnected, h, Option.any_some]

theorem op?_of_node? (h : r.node? id = some n) : r.op? id = some n.op := by
  rw [op?, h, Option.map_some]

theorem isAlive_of_node? (h : r.node? id = some n) : r.isAlive id = true := by
  rw [isAlive, h, Option.isSome_some]

theorem isAlive_iff : r.isAlive id = true ↔ ∃ n, r.node? id = some n := by
  rw [isAlive, Option.isSome_iff_exists]

theorem isAlive_eq_false_iff : r.isAlive id = false ↔ r.node? id = none := by
  rw [isAlive, Option.isSome_eq_false_iff, Option.isNone_iff_eq_none]

theorem parent?_of_dead (h : r.node? id = none) : r.parent? id = none := by
  rw [parent?, h, Option.bind_none]

theorem exists_node?_of_parent? (h : r.parent? id = some p) :
    ∃ n, r.node? id = some n ∧ n.parent = some p := by
  rw [parent?, Option.bind_eq_some_iff] at h
  exact h

theorem exists_node?_of_mem_children (h : c ∈ r.children id) :
    ∃ n, r.node? id = some n ∧ c ∈ n.children := by
  unfold children at h
  split at h
  · next n hn => exact ⟨n, hn, h⟩
  · cases h

theorem exists_node?_of_isConnected (h : r.isConnected id = true) :
    ∃ n, r.node? id = some n ∧ n.connected = true := by
  rw [isConnected, Option.any_eq_true] at h
  exact h

theorem isConnected_iff : r.isConnected id = true ↔ ∃ n, r.node? id = some n ∧ n.connected = true :=
  ⟨exists_node?_of_isConnected, fun ⟨_, hn, hc⟩ => (isConnected_of_node? hn).trans hc⟩

theorem index_lt_of_isAlive (h : r.isAlive id = true) : id.index < r.nodes.size := by
  obtain ⟨n, hn⟩ := isAlive_iff.mp h
  exact index_lt_of_node? hn

theorem isAlive_of_op? {op : Op} (h : r.op? id = some op) : r.isAlive id = true := by
  obtain ⟨n, hn, _⟩ := Option.map_eq_some_iff.mp h
  exact isAlive_of_node? hn

theorem isAlive_of_isConnected (h : r.isConnected id = true) : r.isAlive id = true := by
  obtain ⟨n, hn, _⟩ := exists_node?_of_isConnected h
  exact isAlive_of_node? hn

theorem isAlive_of_parent? (h : r.parent? id = some p) : r.isAlive id = true := by
  obtain ⟨n, hn, _⟩ := exists_node?_of_parent? h
  exact isAlive_of_node? hn

theorem exists_op?_of_isAlive (h : r.isAlive id = true) : ∃ op, r.op? id = some op := by
  obtain ⟨n, hn⟩ := isAlive_iff.mp h
  exact ⟨n.op, op?_of_node? hn⟩

theorem mem_slots_of_node? (h : r.node? id = some n) : id ∈ r.slots := by
  rw [slots, List.mem_map]
  exact ⟨id.index, List.mem_range.mpr (index_lt_of_node? h), rfl⟩

theorem mem_slots_of_isAlive (h : r.isAlive id = true) : id ∈ r.slots := by
  obtain ⟨n, hn⟩ := isAlive_iff.mp h
  exact mem_slots_of_node? hn

theorem nodup_slots (r : Routine) : r.slots.Nodup :=
  List.nodup_range.map fun _ _ h => congrArg NodeId.index h

/-! ## Above -/

namespace Above

theorem refl (r : Routine) (id : NodeId) : r.Above id id := Relation.ReflTransGen.refl

theorem trans (h : r.Above a b) (h' : r.Above b c) : r.Above a c :=
  Relation.ReflTransGen.trans h' h

/-- What lies above the parent of a node lies above the node. -/
theorem under (h : r.Above a p) (hp : r.parent? id = some p) : r.Above a id :=
  Relation.ReflTransGen.head hp h

/-- The parent of a node lies above it. -/
theorem parent (hp : r.parent? id = some p) : r.Above p id := (refl r p).under hp

/-- What lies above a node is the node or lies above its parent. -/
theorem cases (h : r.Above a id) : a = id ∨ ∃ p, r.parent? id = some p ∧ r.Above a p := by
  rcases Relation.ReflTransGen.cases_head h with heq | ⟨p, hp, ha⟩
  · exact .inl heq.symm
  · exact .inr ⟨p, hp, ha⟩

/-- What lies above a node without a parent is the node. -/
theorem eq_of_top (h : r.Above a id) (hp : r.parent? id = none) : a = id := by
  rcases h.cases with heq | ⟨p, hp', _⟩
  · exact heq
  · rw [hp] at hp'; cases hp'

theorem above_parent (h : r.Above a id) (hne : a ≠ id) (hp : r.parent? id = some p) :
    r.Above a p := by
  rcases h.cases with heq | ⟨q, hq, ha⟩
  · exact absurd heq hne
  · rw [hp] at hq
    cases hq
    exact ha

/-- What lies below a live node is alive. -/
theorem alive (h : r.Above a id) (ha : r.isAlive a = true) : r.isAlive id = true := by
  rcases h.cases with rfl | ⟨p, hp, _⟩
  · exact ha
  · obtain ⟨n, hn, _⟩ := exists_node?_of_parent? hp
    exact isAlive_of_node? hn

/-- What lies below a node is the node or lies below one that points to it. -/
theorem cases_below (h : r.Above a id) : a = id ∨ ∃ c, r.parent? c = some a ∧ r.Above c id := by
  rcases Relation.ReflTransGen.cases_tail h with heq | ⟨c, hc, hp⟩
  · exact .inl heq
  · exact .inr ⟨c, hp, hc⟩

/-- Two nodes above one node lie one above the other. -/
theorem total (ha : r.Above a id) (hb : r.Above b id) : r.Above a b ∨ r.Above b a := by
  refine (Relation.ReflTransGen.total_of_right_unique ?_ ha hb).symm
  intro i j k hj hk
  exact Option.some.inj (hj.symm.trans hk)

end Above

theorem above_of_mem_ancestorsTo {height : Nat} (h : a ∈ r.ancestorsTo height id) :
    ∃ p, r.parent? id = some p ∧ r.Above a p := by
  induction height generalizing id with
  | zero => cases h
  | succ height ih =>
    rw [ancestorsTo] at h
    split at h
    · cases h
    · next p hp =>
      refine ⟨p, hp, ?_⟩
      rcases List.mem_cons.mp h with rfl | h
      · exact Above.refl r a
      · obtain ⟨q, hq, ha⟩ := ih h
        exact ha.under hq

/-- Attaching nodes to a node that is not below any of them leaves every way up finite. -/
theorem grounded_of_attach {S : NodeId → Prop} {q : NodeId}
    (hwf : WellFounded fun p id => r.parent? id = some p)
    (hlink : ∀ id p, s.parent? id = some p → r.parent? id = some p ∨ (S id ∧ p = q))
    (hq : ∀ x, r.Above x q → ¬ S x) : WellFounded fun p id => s.parent? id = some p := by
  -- first for the nodes that have no attached node above them, as `q` has none
  have free : ∀ id, (∀ x, r.Above x id → ¬ S x) → Acc (fun p id => s.parent? id = some p) id := by
    intro id
    induction id using hwf.induction with
    | h id ih =>
      intro hfree
      refine Acc.intro id fun p hp => ?_
      rcases hlink id p hp with h | ⟨hS, _⟩
      · exact ih p h fun x hx => hfree x (hx.under h)
      · exact absurd hS (hfree id (Above.refl r id))
  refine WellFounded.intro fun id => ?_
  induction id using hwf.induction with
  | h id ih =>
    refine Acc.intro id fun p hp => ?_
    rcases hlink id p hp with h | ⟨_, hpq⟩
    · exact ih p h
    · rw [hpq]; exact free q hq

/-- Cutting links leaves every way up finite. -/
theorem grounded_of_cut (hwf : WellFounded fun p id => r.parent? id = some p)
    (hlink : ∀ id p, s.parent? id = some p → r.parent? id = some p) :
    WellFounded fun p id => s.parent? id = some p :=
  grounded_of_attach (S := fun _ => False) (q := r.body) hwf (fun id p h => .inl (hlink id p h))
    fun _ _ h => h

namespace Forest

variable (F : r.Forest)
include F

/-! ## Links -/

theorem children_nodup (id : NodeId) : (r.children id).Nodup := by
  unfold children
  split
  · next n hn => exact F.nodup hn
  · exact List.nodup_nil

theorem parent?_of_mem (h : c ∈ r.children id) : r.parent? c = some id := by
  obtain ⟨n, hn, hc⟩ := exists_node?_of_mem_children h
  exact F.child hn hc

theorem alive_of_mem_children (h : c ∈ r.children id) : r.isAlive c = true :=
  isAlive_of_parent? (F.parent?_of_mem h)

theorem mem_children_iff : c ∈ r.children id ↔ r.parent? c = some id :=
  ⟨F.parent?_of_mem, F.listed⟩

/-- The parent of a node exists. -/
theorem exists_parent_node? (h : r.parent? id = some p) : ∃ n, r.node? p = some n := by
  obtain ⟨n, hn, _⟩ := exists_node?_of_mem_children (F.listed h)
  exact ⟨n, hn⟩

/-- What lies above a live node is alive. -/
theorem alive_of_above (h : r.Above a id) (hid : r.isAlive id = true) : r.isAlive a = true := by
  induction h using Relation.ReflTransGen.head_induction_on with
  | refl => exact hid
  | head hp _ ih =>
    obtain ⟨n, hn⟩ := F.exists_parent_node? hp
    exact ih (isAlive_of_node? hn)

/-- No node lies above its own parent. -/
theorem not_above_parent (hp : r.parent? id = some p) : ¬ r.Above id p := by
  intro h
  induction id using F.grounded.induction generalizing p with
  | h id ih =>
    rcases h.cases with rfl | ⟨q, hq, hidq⟩
    · exact ih id hp hp (Above.refl r id)
    · exact ih p hp hq ((Above.parent hp).trans hidq)

theorem ne_parent (hp : r.parent? id = some p) : id ≠ p := by
  rintro rfl
  exact F.not_above_parent hp (Above.refl r id)

/-- Two children of one node have nothing below them in common. -/
theorem disjoint_children (ha : a ∈ r.children p) (hb : b ∈ r.children p) (hne : a ≠ b)
    (hax : r.Above a x) : ¬ r.Above b x := by
  intro hbx
  have hpa := F.parent?_of_mem ha
  have hpb := F.parent?_of_mem hb
  rcases hax.total hbx with h | h
  · exact F.not_above_parent hpa (h.above_parent hne hpb)
  · exact F.not_above_parent hpb (h.above_parent (Ne.symm hne) hpa)

/-- Every node has a topmost node above it. -/
theorem exists_top (id : NodeId) : ∃ t, r.Above t id ∧ r.parent? t = none := by
  induction id using F.grounded.induction with
  | h id ih =>
    cases hp : r.parent? id with
    | none => exact ⟨id, Above.refl r id, hp⟩
    | some p =>
      obtain ⟨t, ht, htop⟩ := ih p hp
      exact ⟨t, ht.under hp, htop⟩

/-! ## Marks -/

/-- A node is as connected as any node above it. -/
theorem isConnected_of_above (h : r.Above a id) : r.isConnected id = r.isConnected a := by
  induction h using Relation.ReflTransGen.head_induction_on with
  | refl => rfl
  | head hp _ ih => rw [F.shared hp, ih]

theorem isConnected_body : r.isConnected r.body = true := by
  obtain ⟨n, hn, _, _, hc⟩ := F.root
  rw [isConnected_of_node? hn, hc]

theorem parent?_body : r.parent? r.body = none := by
  obtain ⟨n, hn, _, hp, _⟩ := F.root
  rw [parent?_of_node? hn, hp]

/-- The connected nodes are those below the body. -/
theorem isConnected_iff_above : r.isConnected id = true ↔ r.Above r.body id := by
  constructor
  · intro h
    obtain ⟨t, ht, htop⟩ := F.exists_top id
    rw [F.isConnected_of_above ht] at h
    obtain ⟨n, hn, hc⟩ := exists_node?_of_isConnected h
    have hbody : t = r.body := F.lone hn ((parent?_of_node? hn).symm.trans htop) hc
    rw [← hbody]
    exact ht
  · intro h
    rw [F.isConnected_of_above h, F.isConnected_body]

/-! ## The way up -/

theorem nodup_ancestorsTo (height : Nat) (id : NodeId) : (id :: r.ancestorsTo height id).Nodup := by
  induction height generalizing id with
  | zero => simp [ancestorsTo]
  | succ height ih =>
    refine List.nodup_cons.mpr ⟨fun h => ?_, ?_⟩
    · obtain ⟨p, hp, ha⟩ := above_of_mem_ancestorsTo h
      exact F.not_above_parent hp ha
    · rw [ancestorsTo]
      split
      · exact List.nodup_nil
      · next p _ => exact ih p

/-- A live node has fewer ancestors than the arena has slots. -/
theorem length_ancestorsTo_lt (height : Nat) (hid : r.isAlive id = true) :
    (r.ancestorsTo height id).length < r.nodes.size := by
  have hsub : id :: r.ancestorsTo height id ⊆ r.slots := by
    intro a ha
    have hab : r.Above a id := by
      rcases List.mem_cons.mp ha with rfl | ha
      · exact Above.refl r a
      · obtain ⟨p, hp, hap⟩ := above_of_mem_ancestorsTo ha
        exact hap.under hp
    exact mem_slots_of_isAlive (F.alive_of_above hab hid)
  have hle := (F.nodup_ancestorsTo height id).length_le_of_subset hsub
  simp only [slots, List.length_cons, List.length_map, List.length_range] at hle
  omega

omit F in
/-- A walk up that ended before its bound is not prolonged by a higher one. -/
theorem ancestorsTo_succ_of_lt {height : Nat} (h : (r.ancestorsTo height id).length < height) :
    r.ancestorsTo (height + 1) id = r.ancestorsTo height id := by
  induction height generalizing id with
  | zero => cases h
  | succ height ih =>
    rw [ancestorsTo, ancestorsTo]
    rw [ancestorsTo] at h
    split
    · rfl
    · next p hp =>
      simp only [hp, List.length_cons] at h
      rw [ih (by omega)]

theorem ancestorsTo_size_succ (id : NodeId) :
    r.ancestorsTo (r.nodes.size + 1) id = r.ancestorsTo r.nodes.size id := by
  cases hid : r.isAlive id with
  | true => exact ancestorsTo_succ_of_lt (F.length_ancestorsTo_lt _ hid)
  | false =>
    have hp := parent?_of_dead (isAlive_eq_false_iff.mp hid)
    cases r.nodes.size <;> simp [ancestorsTo, hp]

/-- The lineage of a node with a parent goes on with the lineage of the parent. -/
theorem lineage_cons (hp : r.parent? id = some p) : r.lineage id = id :: r.lineage p := by
  rw [lineage, ← F.ancestorsTo_size_succ, ancestorsTo, hp]
  rfl

omit F in
theorem lineage_of_top (hp : r.parent? id = none) : r.lineage id = [id] := by
  rw [lineage]
  cases r.nodes.size <;> simp [ancestorsTo, hp]

theorem mem_lineage : a ∈ r.lineage id ↔ r.Above a id := by
  induction id using F.grounded.induction with
  | h id ih =>
    cases hp : r.parent? id with
    | none =>
      rw [lineage_of_top hp, List.mem_singleton]
      exact ⟨fun h => h ▸ Above.refl r a, fun h => h.eq_of_top hp⟩
    | some p =>
      rw [F.lineage_cons hp, List.mem_cons, ih p hp]
      constructor
      · rintro (rfl | h)
        · exact Above.refl r a
        · exact h.under hp
      · intro h
        by_cases hne : a = id
        · exact .inl hne
        · exact .inr (h.above_parent hne hp)

theorem encloses_iff : r.encloses a id = true ↔ r.Above a id := by
  rw [encloses, List.contains_iff_mem, F.mem_lineage]

/-- The topmost node above a node lies above it and has no parent. -/
theorem topOf_spec (id : NodeId) : r.Above (r.topOf id) id ∧ r.parent? (r.topOf id) = none := by
  induction id using F.grounded.induction with
  | h id ih =>
    cases hp : r.parent? id with
    | none => rw [topOf_of_parent?_eq_none hp]; exact ⟨Above.refl r id, hp⟩
    | some p =>
      have htop : r.topOf id = r.topOf p := by
        rw [topOf, topOf, F.lineage_cons hp]
        rfl
      rw [htop]
      exact ⟨(ih p hp).1.under hp, (ih p hp).2⟩

/-- A node without a parent is the topmost node above those that it lies above. -/
theorem topOf_eq_iff (ha : r.parent? a = none) : r.topOf id = a ↔ r.Above a id := by
  obtain ⟨habove, htop⟩ := F.topOf_spec id
  constructor
  · rintro rfl
    exact habove
  · intro h
    rcases habove.total h with hta | hat
    · exact hta.eq_of_top ha
    · exact (hat.eq_of_top htop).symm

/-! ## The way down -/

/-- The number of nodes on the way up from a node, the node included, is at most the size of
    the arena. -/
theorem length_lineage_le (hid : r.isAlive id = true) : (r.lineage id).length ≤ r.nodes.size := by
  have h := F.length_ancestorsTo_lt r.nodes.size hid
  rw [lineage, List.length_cons]
  omega

theorem length_lineage_child (hp : r.parent? c = some id) :
    (r.lineage c).length = (r.lineage id).length + 1 := by
  rw [F.lineage_cons hp, List.length_cons]

/-- The way down ends as well, as the ways up have bounded lengths. -/
theorem grounded_down : WellFounded fun c id => r.parent? c = some id := by
  refine Subrelation.wf ?_ (measure fun id => r.nodes.size - (r.lineage id).length).wf
  intro c id hp
  obtain ⟨n, hn, _⟩ := exists_node?_of_parent? hp
  have hle := F.length_lineage_le (isAlive_of_node? hn)
  have heq := F.length_lineage_child hp
  show r.nodes.size - (r.lineage c).length < r.nodes.size - (r.lineage id).length
  omega

/-- A walk down that looks at one level at a time gives the same answer under all bounds that
    reach past the deepest node. -/
theorem walk_stable {β : Type} {f : Nat → NodeId → β}
    (hf : ∀ d e id, (∀ c ∈ r.children id, f d c = f e c) → f (d + 1) id = f (e + 1) id)
    (hid : r.isAlive id = true) {d e : Nat} (hd : r.nodes.size < d + (r.lineage id).length)
    (he : r.nodes.size < e + (r.lineage id).length) : f d id = f e id := by
  induction id using F.grounded_down.induction generalizing d e with
  | h id ih =>
    have hle := F.length_lineage_le hid
    obtain ⟨d, rfl⟩ : ∃ k, d = k + 1 := ⟨d - 1, by omega⟩
    obtain ⟨e, rfl⟩ : ∃ k, e = k + 1 := ⟨e - 1, by omega⟩
    refine hf d e id fun c hc => ?_
    have hp := F.parent?_of_mem hc
    obtain ⟨n, hn, _⟩ := exists_node?_of_parent? hp
    have heq := F.length_lineage_child hp
    exact ih c hp (isAlive_of_node? hn) (by omega) (by omega)

omit F in
theorem length_lineage_pos (r : Routine) (id : NodeId) : 0 < (r.lineage id).length := by
  rw [lineage, List.length_cons]
  omega

/-- A live node is listed before the nodes below its children, the last child first. -/
theorem rightFirst_eq (hid : r.isAlive id = true) :
    r.rightFirst id = id :: (r.children id).reverse.flatMap r.rightFirst := by
  have hpos := length_lineage_pos r id
  have hstep : r.rightFirstTo r.nodes.size id = r.rightFirstTo (r.nodes.size + 1) id := by
    refine F.walk_stable (f := r.rightFirstTo) ?_ hid (by omega) (by omega)
    intro d e id hc
    rw [rightFirstTo, rightFirstTo, List.flatMap_congr]
    exact fun c hmem => hc c (List.mem_reverse.mp hmem)
  rw [rightFirst, hstep, rightFirstTo]
  rfl

/-- A live node is listed before the nodes below its children, the first child first. -/
theorem preorder_eq (hid : r.isAlive id = true) :
    r.preorder id = id :: (r.children id).flatMap r.preorder := by
  have hpos := length_lineage_pos r id
  have hstep : r.preorderTo r.nodes.size id = r.preorderTo (r.nodes.size + 1) id := by
    refine F.walk_stable (f := r.preorderTo) ?_ hid (by omega) (by omega)
    intro d e id hc
    rw [preorderTo, preorderTo, List.flatMap_congr hc]
  rw [preorder, if_pos hid, hstep, preorderTo]
  congr 1
  refine List.flatMap_congr fun c hc => ?_
  obtain ⟨n, hn, _⟩ := exists_node?_of_parent? (F.parent?_of_mem hc)
  rw [preorder, if_pos (isAlive_of_node? hn)]

/-- A listing that starts with a node and goes on with the listings of its children, in any
    order, lists the nodes below the node, each once. -/
theorem listing_spec {f : NodeId → List NodeId} {order : NodeId → List NodeId}
    (hperm : ∀ id, (order id).Perm (r.children id))
    (hf : ∀ id, r.isAlive id = true → f id = id :: (order id).flatMap f)
    (hid : r.isAlive id = true) : (f id).Nodup ∧ ∀ x, x ∈ f id ↔ r.Above id x := by
  induction id using F.grounded_down.induction with
  | h id ih =>
    have hsub : ∀ c ∈ order id, (f c).Nodup ∧ ∀ x, x ∈ f c ↔ r.Above c x := by
      intro c hc
      have hp := F.parent?_of_mem ((hperm id).mem_iff.mp hc)
      obtain ⟨n, hn, _⟩ := exists_node?_of_parent? hp
      exact ih c hp (isAlive_of_node? hn)
    have hmem : ∀ x, x ∈ (order id).flatMap f ↔ ∃ c, r.parent? c = some id ∧ r.Above c x := by
      intro x
      rw [List.mem_flatMap]
      constructor
      · rintro ⟨c, hc, hx⟩
        exact ⟨c, F.parent?_of_mem ((hperm id).mem_iff.mp hc), ((hsub c hc).2 x).mp hx⟩
      · rintro ⟨c, hp, hx⟩
        have hc := (hperm id).mem_iff.mpr (F.listed hp)
        exact ⟨c, hc, ((hsub c hc).2 x).mpr hx⟩
    rw [hf id hid]
    refine ⟨List.nodup_cons.mpr ⟨?_, ?_⟩, fun x => ?_⟩
    · rw [hmem]
      rintro ⟨c, hp, hc⟩
      exact F.not_above_parent hp hc
    · refine List.nodup_flatMap.mpr ⟨fun c hc => (hsub c hc).1, ?_⟩
      have hnd : (order id).Nodup := (hperm id).nodup_iff.mpr (F.children_nodup id)
      refine hnd.imp_of_mem fun {c d} hc hd hne => ?_
      intro x hxc hxd
      exact F.disjoint_children ((hperm id).mem_iff.mp hc) ((hperm id).mem_iff.mp hd) hne
        (((hsub c hc).2 x).mp hxc) (((hsub d hd).2 x).mp hxd)
    · rw [List.mem_cons, hmem]
      constructor
      · rintro (rfl | ⟨c, hp, hc⟩)
        · exact Above.refl r x
        · exact (Above.parent hp).trans hc
      · intro h
        rcases h.cases_below with heq | ⟨c, hp, hc⟩
        · exact .inl heq.symm
        · exact .inr ⟨c, hp, hc⟩

theorem mem_rightFirst (hid : r.isAlive id = true) : x ∈ r.rightFirst id ↔ r.Above id x :=
  (F.listing_spec (fun id => List.reverse_perm (r.children id)) (fun _ => F.rightFirst_eq) hid).2 x

theorem mem_preorder (hid : r.isAlive id = true) : x ∈ r.preorder id ↔ r.Above id x :=
  (F.listing_spec (fun id => List.Perm.refl (r.children id)) (fun _ => F.preorder_eq) hid).2 x

theorem nodup_preorder (hid : r.isAlive id = true) : (r.preorder id).Nodup :=
  (F.listing_spec (fun id => List.Perm.refl (r.children id)) (fun _ => F.preorder_eq) hid).1

/-- The nodes listed below a node depend on the child lists there only. -/
theorem rightFirst_congr (hsize : s.nodes.size = r.nodes.size)
    (h : ∀ x, r.Above id x → s.children x = r.children x) : s.rightFirst id = r.rightFirst id := by
  have hwalk : ∀ d x, r.Above id x → s.rightFirstTo d x = r.rightFirstTo d x := by
    intro d
    induction d with
    | zero => exact fun _ _ => rfl
    | succ d ih =>
      intro x hx
      rw [rightFirstTo, rightFirstTo, h x hx, List.flatMap_congr]
      exact fun c hc => ih c (hx.trans (Above.parent (F.parent?_of_mem (List.mem_reverse.mp hc))))
  rw [rightFirst, rightFirst, hsize]
  exact hwalk _ id (Above.refl r id)

theorem preorder_congr (hsize : s.nodes.size = r.nodes.size) (hid : s.isAlive id = r.isAlive id)
    (h : ∀ x, r.Above id x → s.children x = r.children x) : s.preorder id = r.preorder id := by
  have hwalk : ∀ d x, r.Above id x → s.preorderTo d x = r.preorderTo d x := by
    intro d
    induction d with
    | zero => exact fun _ _ => rfl
    | succ d ih =>
      intro x hx
      rw [preorderTo, preorderTo, h x hx, List.flatMap_congr]
      exact fun c hc => ih c (hx.trans (Above.parent (F.parent?_of_mem hc)))
  rw [preorder, preorder, hsize, hid, hwalk _ id (Above.refl r id)]

end Forest

end Routine

end CilFold
