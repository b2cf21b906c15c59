/-
  Grafting: a fresh tree comes into the place of a node of the routine's tree.

  `Sprout r m u` says that `m` is `r` with the tree `u` of fresh nodes beside it. All edits of
  the passes that replace something first make such a tree, of one node, as a copy, or as a
  node over a copy; putting it into the place of a node then changes the trees of the routine
  in that place and nowhere else (`Grafted.holds_plant`).
-/
import CilFold.Proofs.Ends
import CilFold.Proofs.Upkeep

namespace CilFold

namespace Routine

variable {r m : Routine} {b id k p : NodeId} {t u : Tree NodeId}

/-- The second routine has, beside all that the first one has, a detached tree of fresh nodes. -/
structure Sprout (r m : Routine) (u : Tree NodeId) : Prop where
  grown : Extends r m
  forest : m.Forest
  detached : m.Detached u.label
  holds : m.Holds u
  fresh : ∀ x ∈ u.labels, r.nodes.size ≤ x.index
  only : ∀ k, m.isAlive k = true → r.isAlive k = true ∨ k ∈ u.labels

namespace Sprout

/-- A fresh node without children. -/
theorem leaf (F : r.Forest) (op : Op) (h : op.arity? = some 0) :
    Sprout r (r.grow op []) (.node r.nextId op []) := by
  have hfits : op.Fits 0 := fits_of_checkArity (checkArity_ok.mpr
    ⟨fun arity ha => Option.some.inj (h.symm.trans ha), fun _ => Nat.zero_le 1⟩)
  have hnode := node?_grow_nextId r op []
  refine ⟨(Extends.refl r).grow op (fun c hc => absurd hc List.not_mem_nil)
    fun c hc => absurd hc List.not_mem_nil, F.grow List.nodup_nil
    (fun c hc => absurd hc List.not_mem_nil) hfits, Detached.of_node? hnode rfl rfl,
    Holds.leaf (op?_of_node? hnode) (children_of_node? hnode), fun x hx => ?_, fun k hk => ?_⟩
  · rw [Tree.labels_node, List.flatMap_nil, List.mem_singleton] at hx
    rw [hx]
    exact Nat.le_refl _
  · rw [Tree.mem_labels_node]
    exact (alive_of_grow hk).imp_right .inl

/-- A fresh node over a fresh tree. -/
theorem wrap (S : Sprout r m u) (op : Op) (h : op.arity? = some 1) :
    Sprout r (m.grow op [u.label]) (.node m.nextId op [u]) := by
  have hcs : ∀ c ∈ [u.label], m.Detached c := fun c hc => List.mem_singleton.mp hc ▸ S.detached
  have hfits : op.Fits 1 := fits_of_checkArity (checkArity_ok.mpr
    ⟨fun arity ha => Option.some.inj (h.symm.trans ha), fun _ => Nat.le_refl 1⟩)
  have hnode := node?_grow_nextId m op [u.label]
  have v := views_grow op fun c hc => (hcs c hc).alive
  refine ⟨S.grown.grow op (fun c hc => List.mem_singleton.mp hc ▸ S.fresh _ u.label_mem_labels)
    fun c hc => (hcs c hc).alive, S.forest.grow (List.nodup_singleton _) hcs hfits,
    Detached.of_node? hnode rfl rfl, .node (op?_of_node? hnode) (children_of_node? hnode) ?_, ?_,
    fun k hk => ?_⟩
  · intro t ht
    rw [List.mem_singleton.mp ht]
    refine S.holds.congr fun k hk => ?_
    obtain ⟨x, hx, rfl⟩ := List.mem_map.mp hk
    have hne := (ne_of_dead (node?_nextId m) (S.holds.subtree hx).alive).symm
    rw [(v _).op, (v _).children, if_neg hne, if_neg hne]
    exact ⟨rfl, rfl⟩
  · intro x hx
    rcases Tree.mem_labels_node.mp hx with rfl | ⟨t, ht, hx⟩
    · exact S.grown.size
    · exact S.fresh x (List.mem_singleton.mp ht ▸ hx)
  · rw [Tree.mem_labels_node]
    rcases alive_of_grow hk with hk | rfl
    · exact (S.only k hk).imp_right fun hk => .inr ⟨u, List.mem_singleton_self u, hk⟩
    · exact .inr (.inl rfl)

variable (S : Sprout r m u) (F : r.Forest) (hid : r.parent? id = some p)
include S

theorem old (hk : r.isAlive k = true) : m.node? k = r.node? k :=
  S.grown.old k (index_lt_of_isAlive hk)

theorem ne_new (hk : r.isAlive k = true) : k ≠ u.label := by
  rintro rfl
  have h := S.fresh _ u.label_mem_labels
  exact absurd (index_lt_of_isAlive hk) (Nat.not_lt.mpr h)

theorem not_mem (hk : r.isAlive k = true) : k ∉ u.labels := fun h =>
  absurd (index_lt_of_isAlive hk) (Nat.not_lt.mpr (S.fresh k h))

/-- The fresh tree holds no node that was there before. -/
theorem not_above_new (hk : r.isAlive k = true) : ¬ m.Above u.label k := by
  rw [← S.forest.mem_labels S.holds]
  exact S.not_mem hk

include hid in
theorem parent?_place : m.parent? id = some p := by
  rw [parent?, S.old (isAlive_of_parent? hid)]
  exact hid

include F hid in
theorem above_place : m.Above id k ↔ r.Above id k := by
  obtain ⟨t, ht, hl⟩ := F.exists_holds (isAlive_of_parent? hid)
  have h := above_congr (x := k) F S.forest ht (S.grown.holds ht)
  rw [hl] at h
  exact h.symm

include F hid in
theorem encloses_place : m.encloses id k = r.encloses id k := by
  rw [Bool.eq_iff_iff, S.forest.encloses_iff, F.encloses_iff, S.above_place F hid]

include F hid in
/-- The routine after the graft, seen at a node that was there before. -/
theorem views_graft (hk : r.isAlive k = true) :
    Views (m.putInSlot p id u.label) k (if r.encloses id k then none else r.op? k)
      (if r.encloses id k then [] else
        if k = p then (r.children k).replace id u.label else r.children k)
      (if r.encloses id k then none else r.parent? k)
      (if r.encloses id k then false else r.isConnected k) := by
  have hplace := S.parent?_place hid
  have v := views_putInSlot S.forest hplace S.detached.alive S.detached.top
    (S.not_above_new (isAlive_of_parent? hid)) k
  have hold := S.old hk
  have hnew : m.encloses u.label k = false :=
    S.forest.encloses_false_iff.mpr (S.not_above_new hk)
  have hop : m.op? k = r.op? k := congrArg (Option.map Node.op) hold
  have hchildren : m.children k = r.children k := by
    unfold children
    rw [hold]
  have hparent : m.parent? k = r.parent? k := congrArg (Option.bind · Node.parent) hold
  have hconn : m.isConnected k = r.isConnected k := congrArg (Option.any Node.connected) hold
  rw [S.encloses_place F hid, hnew, if_neg (S.ne_new hk), hop, hchildren, hparent, hconn,
    Bool.and_false, Bool.or_false] at v
  exact v

include F hid in
/-- The fresh tree stands in the routine. -/
theorem holds_new : (m.putInSlot p id u.label).Holds u := by
  refine S.holds.congr fun k hk => ?_
  have hplace := S.parent?_place hid
  have v := views_putInSlot S.forest hplace S.detached.alive S.detached.top
    (S.not_above_new (isAlive_of_parent? hid)) k
  have hbelow : m.Above u.label k := (S.forest.mem_labels S.holds).mp hk
  have hkp : k ≠ p := by
    rintro rfl
    obtain ⟨n, hn⟩ := F.exists_parent_node? hid
    exact S.not_mem (isAlive_of_node? hn) hk
  have hkid : ¬ m.encloses id k = true := by
    rw [S.forest.encloses_iff]
    intro h
    rcases h.total hbelow with h | h
    · exact S.detached.not_above_of_parent? hplace h
    · exact S.not_above_new (isAlive_of_parent? hid) h
  rw [v.op, v.children, if_neg hkid, if_neg hkid, if_neg hkp]
  exact ⟨rfl, rfl⟩

include hid in
/-- Putting the fresh tree into its place makes no further node. -/
theorem alive_of_putInSlot (hk : (m.putInSlot p id u.label).isAlive k = true) :
    m.isAlive k = true := by
  have v := views_putInSlot S.forest (S.parent?_place hid) S.detached.alive S.detached.top
    (S.not_above_new (isAlive_of_parent? hid)) k
  obtain ⟨o, ho⟩ := exists_op?_of_isAlive hk
  rw [v.op] at ho
  split_ifs at ho
  exact isAlive_of_op? ho

/-! ## Validity -/

omit S in
/-- The fresh tree is in place if it is so by itself. -/
theorem placedBelow_new (S : Sprout r m u) (hu : u.Placed) : m.PlacedBelow u.label := by
  intro c q hq hc
  obtain ⟨x, hx, hl, hhold⟩ := S.forest.exists_subtree S.holds hq
  have hmem := S.forest.listed hc
  rw [← hl, hhold.children] at hmem
  obtain ⟨y, hy, hyc⟩ := List.mem_map.mp hmem
  have hyop := (hhold.operand hy).op?
  rw [hyc] at hyop
  rw [isBlock, hyop, ← hl, isContainer, hhold.op?]
  exact hu x hx y hy

/-- The fresh tree fits the place of an operand or an instruction. -/
theorem role_new (V : r.Valid) (hid : r.parent? id = some p) (hconn : r.isConnected id = true)
    (hblock : r.isBlock id = false) (hu : u.op.isBlock = false) :
    m.isBlock u.label = m.isContainer p := by
  obtain ⟨n, hn⟩ := V.forest.exists_parent_node? hid
  rw [isBlock, S.holds.op?, isContainer_congr (congrArg (Option.map Node.op)
    (S.old (isAlive_of_node? hn))), ← V.inPlace id p ((V.forest.shared hid).symm.trans hconn) hid,
    hblock]
  exact hu

end Sprout

/-! ## The routine afterwards -/

/-- What a routine is like after a fresh tree has come into the place of a node. -/
structure Grafted (r : Routine) (id p : NodeId) (u : Tree NodeId) (s : Routine) : Prop where
  place : r.parent? id = some p
  valid : s.Valid
  kept : Kept r s
  head : SameHead r s
  views : ∀ k, r.isAlive k = true →
    Views s k (if r.encloses id k then none else r.op? k)
      (if r.encloses id k then [] else
        if k = p then (r.children k).replace id u.label else r.children k)
      (if r.encloses id k then none else r.parent? k)
      (if r.encloses id k then false else r.isConnected k)
  new : s.Holds u
  fresh : ∀ x ∈ u.labels, r.nodes.size ≤ x.index
  only : ∀ k, s.isAlive k = true → r.isAlive k = true ∨ k ∈ u.labels

theorem Extends.sameHead {s : Routine} (h : Extends r s) : SameHead r s :=
  ⟨h.token, h.name, h.body, congrArg (Array.map Variable.bare) h.vars⟩

/-- The fresh tree can be put into the place of an operand or an instruction. -/
theorem Sprout.graft (S : Sprout r m u) (V : r.Valid) (hid : r.parent? id = some p)
    (hconn : r.isConnected id = true) (hblock : r.isBlock id = false)
    (hu : u.op.isBlock = false) (hplaced : u.Placed) :
    ∃ s, Edit.replace id u.label m = .ok () s ∧ Grafted r id p u s := by
  have hplace := S.parent?_place hid
  have habove := S.not_above_new (isAlive_of_parent? hid)
  have hrole := S.role_new V hid hconn hblock hu
  refine ⟨m.putInSlot p id u.label, Edit.replace_ok S.forest hplace S.detached habove hrole, ?_⟩
  exact {
    place := hid
    valid := (V.extended S.forest S.grown).putInSlot hplace S.detached habove hrole
      (S.placedBelow_new hplaced)
    kept := (Kept.extended S.grown).trans (Kept.putInSlot S.forest hplace S.detached habove)
    head := S.grown.sameHead.trans (sameHead_putInSlot m p id u.label)
    views := fun k hk => S.views_graft V.forest hid hk
    new := S.holds_new V.forest hid
    fresh := S.fresh
    only := fun k hk => S.only k (S.alive_of_putInSlot hid hk) }

namespace Grafted

variable {s : Routine} (G : Grafted r id p u s) (F : r.Forest)
include G F

theorem isAlive_iff (hk : r.isAlive k = true) : s.isAlive k = true ↔ ¬ r.Above id k := by
  have v := G.views k hk
  obtain ⟨op, hop⟩ := exists_op?_of_isAlive hk
  rw [← F.encloses_false_iff]
  constructor
  · intro hs
    obtain ⟨o, ho⟩ := exists_op?_of_isAlive hs
    rw [v.op] at ho
    split_ifs at ho with he
    exact Bool.eq_false_iff.mpr he
  · intro he
    exact isAlive_of_op? (v.op.trans ((if_neg (Bool.eq_false_iff.mp he)).trans hop))

/-- The fresh tree is where the place was. -/
theorem mem_children_new : u.label ∈ s.children p := by
  obtain ⟨n, hn⟩ := F.exists_parent_node? G.place
  rw [(G.views p (isAlive_of_node? hn)).children,
    if_neg (F.encloses_iff.not.mpr (F.not_above_parent G.place)), if_pos rfl]
  exact (mem_replace (F.children_nodup p) (F.listed G.place)).mpr (.inr rfl)

/-- A tree that is apart from the place stays as it is. -/
theorem holds_apart (ht : r.Holds t) (hp : p ∉ t.labels) (hbelow : ¬ r.Above id t.label) :
    s.Holds t := by
  refine ht.congr fun k hk => ?_
  obtain ⟨x, hx, rfl⟩ := List.mem_map.mp hk
  have v := G.views _ (ht.subtree hx).alive
  have hne : x.label ≠ p := by
    intro h
    exact hp (h ▸ hk)
  have hkid : ¬ r.encloses id x.label = true := by
    rw [F.encloses_iff]
    intro h
    -- the place would lie in the tree, and then its parent as well
    rcases h.total ((F.mem_labels ht).mp hk) with h | h
    · exact hbelow h
    · have hne : t.label ≠ id := fun he => hbelow (he ▸ Above.refl r t.label)
      exact hp ((F.mem_labels ht).mpr (h.above_parent hne G.place))
  rw [v.op, v.children, if_neg hkid, if_neg hkid, if_neg hne]
  exact ⟨rfl, rfl⟩

/-- A tree that shares no node with the one in the place stays as it is. -/
theorem holds_other {x : Tree NodeId} (hx : r.Holds x) (hl : x.label = id) (ht : r.Holds t)
    (hid : id ∉ t.labels) (htop : t.label ∉ x.labels) : s.Holds t := by
  refine G.holds_apart F ht (fun hp => hid ?_) fun hab => htop ?_
  · exact (F.mem_labels ht).mpr (((F.mem_labels ht).mp hp).under G.place)
  · exact (F.mem_labels hx).mpr (hl ▸ hab)

/-- A tree around the place changes there, and only there. -/
theorem holds_plant (ht : r.Holds t) (hbelow : ¬ r.Above id t.label) :
    s.Holds (t.plantAt id u) := by
  induction ht with
  | @node a op ts hop hc hts ih =>
    rw [Tree.label_node] at hbelow
    have hne : a ≠ id := fun he => hbelow (he ▸ Above.refl r a)
    have v := G.views a (isAlive_of_op? hop)
    rw [if_neg (F.encloses_iff.not.mpr hbelow), if_neg (F.encloses_iff.not.mpr hbelow)] at v
    have hparent : ∀ t ∈ ts, r.parent? t.label = some a := fun t ht =>
      F.parent?_of_mem (hc ▸ List.mem_map_of_mem ht)
    rw [Tree.plantAt_node hne]
    refine .node (v.op.trans hop) ?_ fun x hx => ?_
    · rw [v.children, List.map_map]
      split_ifs with hap
      · rw [replace_eq_map (F.children_nodup a), hc, List.map_map]
        exact List.map_congr_left fun t _ => (Tree.label_plantAt id t u).symm
      · rw [hc]
        refine List.map_congr_left fun t ht => ?_
        have hnot : t.label ≠ id := by
          intro he
          have hp := hparent t ht
          rw [he, G.place] at hp
          exact hap (Option.some.inj hp).symm
        exact ((Tree.label_plantAt id t u).trans (if_neg hnot)).symm
    · obtain ⟨t, ht, rfl⟩ := List.mem_map.mp hx
      by_cases he : t.label = id
      · rw [Tree.plantAt_top he]
        exact G.new
      · exact ih t ht fun hab => hbelow (hab.above_parent (Ne.symm he) (hparent t ht))

/-- The nodes of the tree afterwards are some of those before and the fresh ones. -/
theorem isConnected_cases (hk : s.isConnected k = true) :
    r.isConnected k = true ∨ k ∈ u.labels := by
  obtain ⟨t, ht, hl⟩ := F.exists_holds (isAlive_of_isConnected F.isConnected_body)
  have hbelow : ¬ r.Above id t.label := hl ▸ F.not_above_body G.place
  have hs := G.holds_plant F ht hbelow
  have hne : t.label ≠ id := fun he => hbelow (he ▸ Above.refl r t.label)
  have htop : (t.plantAt id u).label = s.body := by
    rw [Tree.label_plantAt, if_neg hne, hl, G.head.body]
  have hmem := G.valid.forest.isConnected_iff_above.mp hk
  rw [← htop, ← G.valid.forest.mem_labels hs] at hmem
  obtain ⟨x, hx, rfl⟩ := List.mem_map.mp hmem
  rcases Tree.mem_subtrees_rewrite hx with hold | ⟨y, _, z, hz, hxz⟩
  · exact .inl (F.isConnected_iff_above.mpr (hl ▸ (F.mem_labels ht).mp hold))
  · have hz : (if y.label = id then some u else none) = some z := hz
    split_ifs at hz
    cases hz
    exact .inr (List.mem_map_of_mem hxz)

/-- What lies above a node that is not in the place. -/
theorem above_iff {a : NodeId} (hk : r.isAlive k = true) (hbelow : ¬ r.Above id k) :
    s.Above a k ↔ r.Above a k := by
  have hparent : ∀ k, r.isAlive k = true → ¬ r.Above id k → s.parent? k = r.parent? k := by
    intro k hk hbelow
    rw [(G.views k hk).parent, if_neg (F.encloses_iff.not.mpr hbelow)]
  induction k using F.grounded.induction with
  | h k ih =>
    have hsame := hparent k hk hbelow
    have hup : ∀ q, r.parent? k = some q → (s.Above a q ↔ r.Above a q) := by
      intro q hq
      obtain ⟨n, hn⟩ := F.exists_parent_node? hq
      exact ih q hq (isAlive_of_node? hn) fun hab => hbelow (hab.under hq)
    constructor
    · intro h
      rcases h.cases with rfl | ⟨q, hq, h⟩
      · exact Above.refl r a
      · rw [hsame] at hq
        exact ((hup q hq).mp h).under hq
    · intro h
      rcases h.cases with rfl | ⟨q, hq, h⟩
      · exact Above.refl s a
      · exact ((hup q hq).mpr h).under (hsame.trans hq)

theorem length_children (hb : r.isAlive b = true) (hs : s.isAlive b = true) :
    (s.children b).length = (r.children b).length := by
  have hstays : ¬ r.encloses id b = true := by
    rw [F.encloses_iff]
    exact (G.isAlive_iff F hb).mp hs
  rw [(G.views b hb).children, if_neg hstays]
  split_ifs
  · exact List.length_replace
  · rfl

/-- What stands at an index of a list of children stays there, unless it is the place. -/
theorem getElem?_children {index : Nat} (hk : (r.children b)[index]? = some k) (hne : k ≠ id)
    (hs : s.isAlive b = true) : (s.children b)[index]? = some k := by
  obtain ⟨n, hn, _⟩ := exists_node?_of_mem_children (List.mem_of_getElem? hk)
  have hb := isAlive_of_node? hn
  have hstays : ¬ r.encloses id b = true := by
    rw [F.encloses_iff]
    exact (G.isAlive_iff F hb).mp hs
  rw [(G.views b hb).children, if_neg hstays]
  split_ifs
  · rw [replace_eq_map (F.children_nodup b), List.getElem?_map, hk, Option.map_some, if_neg hne]
  · exact hk

/-- The instruction at an index of a block stays there, and the block keeps its length, if
    neither of them lies in the place. -/
theorem instructions {block inst : NodeId} {index : Nat} (hblock : ¬ r.Above id block)
    (hinst : inst ≠ id) (hi : (r.instructions block)[index]? = some inst) :
    s.isAlive block = true ∧ (s.instructions block)[index]? = some inst ∧
      (s.instructions block).length = (r.instructions block).length := by
  have hb : r.isBlock block = true := by
    unfold Routine.instructions at hi
    split_ifs at hi with hb
    · exact hb
    · cases hi
  have halive := isAlive_of_isBlock hb
  have hs := (G.isAlive_iff F halive).mpr hblock
  have hb' : s.isBlock block = true := (isBlock_congr (G.kept.op block halive hs)).trans hb
  rw [Routine.instructions, if_pos hb] at hi
  rw [Routine.instructions, if_pos hb', Routine.instructions, if_pos hb]
  exact ⟨hs, G.getElem?_children F hi hinst hs, G.length_children F halive hs⟩

end Grafted

end Routine

namespace Edit

open Routine

variable {r : Routine} {t : Tree NodeId}

/-- Copying a tree makes a fresh tree with the same operations. -/
theorem clone_sprout (F : r.Forest) (ht : r.Holds t) :
    ∃ m u, clone t.label r = .ok u.label m ∧ Sprout r m u ∧ u.bare = t.bare := by
  obtain ⟨m, u, hrun, Fm, hcopy, hu⟩ := clone_spec F ht
  have hmem := List.mem_singleton_self u
  refine ⟨m, u, hrun, ⟨hcopy.toExtends, Fm, hu.detached u hmem, hu.holds u hmem,
    fun _ hx => hu.fresh hmem hx, fun k hk => ?_⟩, (List.cons.inj hu.bare).1⟩
  refine (hu.only hcopy.toExtends hk).imp_right ?_
  rintro ⟨w, hw, hk⟩
  exact List.mem_singleton.mp hw ▸ hk

end Edit

end CilFold
