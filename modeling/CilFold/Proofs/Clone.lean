/-
  Copying. On a forest, copying a live node succeeds: it puts fresh detached nodes at the end
  of the arena and leaves everything else as it was; the copy is a tree with the same
  operations, and its nodes have the next handles, each behind its operands (`clone_spec`).
  A handle without a node is refused.
-/
import CilFold.Proofs.Held

namespace CilFold

namespace Routine

variable {r s t : Routine} {id k : NodeId}

/-- The second routine has further nodes at the end of its arena, none of them connected. -/
structure Extends (r s : Routine) : Prop where
  token : s.token = r.token
  name : s.name = r.name
  body : s.body = r.body
  vars : s.vars = r.vars
  size : r.nodes.size ≤ s.nodes.size
  old : ∀ k : NodeId, k.index < r.nodes.size → s.node? k = r.node? k
  loose : ∀ k : NodeId, r.nodes.size ≤ k.index → s.isConnected k = false

namespace Extends

theorem refl (r : Routine) : Extends r r where
  token := rfl
  name := rfl
  body := rfl
  vars := rfl
  size := Nat.le_refl _
  old _ _ := rfl
  loose _ h := isConnected_of_dead (node?_eq_none_of_size_le h)

theorem node? (h : Extends r s) {n : Node} (hn : r.node? k = some n) : s.node? k = some n :=
  (h.old k (index_lt_of_node? hn)).trans hn

theorem trans (h : Extends r s) (h' : Extends s t) : Extends r t where
  token := h'.token.trans h.token
  name := h'.name.trans h.name
  body := h'.body.trans h.body
  vars := h'.vars.trans h.vars
  size := Nat.le_trans h.size h'.size
  old k hk := (h'.old k (Nat.lt_of_lt_of_le hk h.size)).trans (h.old k hk)
  loose k hk := by
    rcases Nat.lt_or_ge k.index s.nodes.size with hlt | hge
    · rw [isConnected, h'.old k hlt]
      exact h.loose k hk
    · exact h'.loose k hge

/-- A node over further nodes is one too. -/
theorem grow (h : Extends r s) (op : Op) {cs : List NodeId}
    (hcs : ∀ c ∈ cs, r.nodes.size ≤ c.index) (halive : ∀ c ∈ cs, s.isAlive c = true) :
    Extends r (s.grow op cs) where
  token := (sameHead_grow s op cs).token.trans h.token
  name := (sameHead_grow s op cs).name.trans h.name
  body := (sameHead_grow s op cs).body.trans h.body
  vars := (vars_grow s op cs).trans h.vars
  size := by
    rw [size_grow]
    exact Nat.le_succ_of_le h.size
  old k hk := by
    have hnext : k ≠ s.nextId := by
      rintro rfl
      exact absurd hk (Nat.not_lt.mpr h.size)
    have hkc : k ∉ cs := fun hc => absurd hk (Nat.not_lt.mpr (hcs k hc))
    rw [node?_grow, if_neg hnext, if_neg hkc, h.old k hk]
  loose k hk := by
    rw [(views_grow op halive k).connected]
    exact h.loose k hk

theorem usesListed (h : Extends r s) (U : r.UsesListed) : s.UsesListed := by
  refine U.congr (fun v => by rw [var?, h.vars, var?]) fun k => ?_
  rcases Nat.lt_or_ge k.index r.nodes.size with hlt | hge
  · rw [use?, h.old k hlt, use?]
  · rw [use?_of_loose (h.loose k hge), use?_of_loose]
    exact isConnected_of_dead (node?_eq_none_of_size_le hge)

theorem detached (h : Extends r s) (hid : r.Detached id) : s.Detached id := by
  obtain ⟨n, hn⟩ := isAlive_iff.mp hid.alive
  have hs := h.node? hn
  refine Detached.of_node? hs ?_ ?_
  · rw [← parent?_of_node? hn, hid.top]
  · rw [← isConnected_of_node? hn, hid.loose]

theorem holds (h : Extends r s) {t : Tree NodeId} (ht : r.Holds t) : s.Holds t := by
  refine ht.congr fun k hk => ?_
  obtain ⟨u, hu, rfl⟩ := List.mem_map.mp hk
  obtain ⟨n, hn⟩ := isAlive_iff.mp (ht.subtree hu).alive
  rw [op?_of_node? hn, op?_of_node? (h.node? hn), children_of_node? hn,
    children_of_node? (h.node? hn)]
  exact ⟨rfl, rfl⟩

end Extends

/-- The handles that the next nodes will get. -/
def nextIds (r : Routine) (count : Nat) : List NodeId :=
  (List.range' r.nodes.size count).map NodeId.mk

theorem mem_nextIds {count : Nat} :
    k ∈ r.nextIds count ↔ r.nodes.size ≤ k.index ∧ k.index < r.nodes.size + count := by
  rw [nextIds, List.mem_map, ← List.mem_range'_1]
  exact ⟨fun ⟨_, hi, hk⟩ => hk ▸ hi, fun hk => ⟨k.index, hk, rfl⟩⟩

theorem nodup_nextIds (r : Routine) (count : Nat) : (r.nextIds count).Nodup :=
  (List.nodup_range' (s := r.nodes.size) (n := count)).map fun _ _ h => congrArg NodeId.index h

theorem nextIds_add {m : Nat} (hsize : s.nodes.size = r.nodes.size + m) (n : Nat) :
    r.nextIds (m + n) = r.nextIds m ++ s.nextIds n := by
  rw [nextIds, nextIds, nextIds, hsize, ← List.map_append, List.range'_append_1]

theorem nextIds_succ (r : Routine) (count : Nat) :
    r.nextIds (count + 1) = r.nextIds count ++ [⟨r.nodes.size + count⟩] := by
  rw [nextIds, List.range'_concat, List.map_append, Nat.one_mul]
  rfl

/-- Blocks stand in containers, and nothing else does, in all trees of the arena. -/
def Placed (r : Routine) : Prop := ∀ c p, r.parent? c = some p → r.isBlock c = r.isContainer p

/-- A new node over nodes that are in place below it. -/
theorem Placed.grow (P : r.Placed) (F : r.Forest) {op : Op} {cs : List NodeId}
    (hcs : ∀ c ∈ cs, r.isAlive c = true ∧ r.isBlock c = op.isContainer) :
    (r.grow op cs).Placed := by
  intro c p hp
  have v := views_grow op fun c hc => (hcs c hc).1
  have hnext : r.nextId ∉ cs := fun h => ne_of_dead (node?_nextId r) (hcs _ h).1 rfl
  rw [(v c).parent] at hp
  rw [isBlock, (v c).op, isContainer, (v p).op]
  split_ifs at hp with hc
  · cases hp
    rw [if_pos rfl, if_neg (ne_of_mem_of_not_mem hc hnext)]
    exact (hcs c hc).2
  · have hc' : c ≠ r.nextId := by
      rintro rfl
      rw [parent?, node?_nextId] at hp
      cases hp
    rw [if_neg hc', if_neg (F.parent_ne_nextId hp)]
    exact P c p hp

/-- The further nodes of the second routine have operations that the first one has, and are in
    place if those of the first one are. -/
structure Copied (r s : Routine) : Prop extends Extends r s where
  ops : ∀ k op, s.op? k = some op → ∃ j, r.op? j = some op
  placed : r.Placed → s.Placed

namespace Copied

theorem refl (r : Routine) : Copied r r := ⟨Extends.refl r, fun k _ h => ⟨k, h⟩, fun P => P⟩

theorem trans (h : Copied r s) (h' : Copied s t) : Copied r t := by
  refine ⟨h.toExtends.trans h'.toExtends, fun k op hop => ?_, fun P => h'.placed (h.placed P)⟩
  obtain ⟨j, hj⟩ := h'.ops k op hop
  exact h.ops j op hj

/-- A node over copies is a copy too. -/
theorem grow (h : Copied r s) (F : s.Forest) {op : Op} {cs : List NodeId}
    (hcs : ∀ c ∈ cs, r.nodes.size ≤ c.index) (halive : ∀ c ∈ cs, s.isAlive c = true)
    (hop : ∃ j, r.op? j = some op) (hplaced : r.Placed → ∀ c ∈ cs, s.isBlock c = op.isContainer) :
    Copied r (s.grow op cs) := by
  refine ⟨h.toExtends.grow op hcs halive, fun k op' hop' => ?_, fun P =>
    (h.placed P).grow F fun c hc => ⟨halive c hc, hplaced P c hc⟩⟩
  rw [(views_grow op halive k).op] at hop'
  split_ifs at hop'
  · cases hop'
    exact hop
  · exact h.ops k op' hop'

end Copied

end Routine

namespace Edit

open Routine

variable {α β : Type} {r s s' : Routine} {id : NodeId}

theorem bind_ok {e : Edit α} {f : α → Edit β} {a : α} (h : e r = .ok a s) :
    (e >>= f) r = f a s := by
  simp only [bind, EStateM.bind, h]

/-- The copies of some trees, as they stand in the arena afterwards. -/
structure CopiesOf (r s : Routine) (ts us : List (Tree NodeId)) : Prop where
  detached : ∀ u ∈ us, s.Detached u.label
  holds : ∀ u ∈ us, s.Holds u
  bare : us.map Tree.bare = ts.map Tree.bare
  /-- The copies have the next handles, each node behind its operands. -/
  handles : (us.flatMap Tree.steps).map Prod.fst = r.nextIds (us.flatMap Tree.steps).length
  size : s.nodes.size = r.nodes.size + (us.flatMap Tree.steps).length

namespace CopiesOf

variable {ts us vs : List (Tree NodeId)} {t u : Tree NodeId}

theorem nil (r : Routine) : CopiesOf r r [] [] where
  detached _ hu := absurd hu List.not_mem_nil
  holds _ hu := absurd hu List.not_mem_nil
  bare := rfl
  handles := rfl
  size := rfl

theorem mem_handles (h : CopiesOf r s ts us) {x : NodeId} :
    (∃ u ∈ us, x ∈ u.labels) ↔ r.nodes.size ≤ x.index ∧ x.index < s.nodes.size := by
  rw [h.size, ← mem_nextIds, ← h.handles, List.map_flatMap, List.mem_flatMap]
  exact exists_congr fun u => and_congr_right fun _ => (u.steps_perm.mem_iff).symm

theorem fresh (h : CopiesOf r s ts us) (hu : u ∈ us) {x : NodeId} (hx : x ∈ u.labels) :
    r.nodes.size ≤ x.index := (h.mem_handles.mp ⟨u, hu, hx⟩).1

/-- Nothing else has come into the arena. -/
theorem only (h : CopiesOf r s ts us) (hcopy : Extends r s) {k : NodeId}
    (hk : s.isAlive k = true) : r.isAlive k = true ∨ ∃ u ∈ us, k ∈ u.labels := by
  rcases Nat.lt_or_ge k.index r.nodes.size with hlt | hge
  · rw [isAlive, hcopy.old k hlt] at hk
    exact .inl hk
  · exact .inr (h.mem_handles.mpr ⟨hge, index_lt_of_isAlive hk⟩)

/-- Further copies come behind the first ones. -/
theorem cons (h : CopiesOf r s [t] [u]) (h' : CopiesOf s s' ts us) (hcopies : Extends s s') :
    CopiesOf r s' (t :: ts) (u :: us) where
  detached w hw := by
    rcases List.mem_cons.mp hw with rfl | hw
    · exact hcopies.detached (h.detached w (List.mem_singleton_self w))
    · exact h'.detached w hw
  holds w hw := by
    rcases List.mem_cons.mp hw with rfl | hw
    · exact hcopies.holds (h.holds w (List.mem_singleton_self w))
    · exact h'.holds w hw
  bare := by
    rw [List.map_cons, List.map_cons, h'.bare, (List.cons.inj h.bare).1]
  handles := by
    have hfirst := h.handles
    have hsize := h.size
    rw [List.flatMap_singleton] at hfirst hsize
    rw [List.flatMap_cons, List.map_append, List.length_append, hfirst, h'.handles,
      nextIds_add hsize]
  size := by
    have hsize := h.size
    rw [List.flatMap_singleton] at hsize
    rw [h'.size, hsize, List.flatMap_cons, List.length_append, Nat.add_assoc]

/-- No handle is given to two copies. -/
theorem nodup (h : CopiesOf r s ts us) : (us.map Tree.label).Nodup := by
  have hsteps : ((us.flatMap Tree.steps).map Prod.fst).Nodup := h.handles ▸ nodup_nextIds r _
  rw [List.map_flatMap] at hsteps
  obtain ⟨_, happart⟩ := List.nodup_flatMap.mp hsteps
  refine List.pairwise_map.mpr (happart.imp fun {u w} hdisjoint hlabel => ?_)
  have hmem : ∀ u : Tree NodeId, u.label ∈ u.steps.map Prod.fst := fun u =>
    u.steps_perm.mem_iff.mpr u.label_mem_labels
  exact hdisjoint (hmem u) (hlabel ▸ hmem w)

end CopiesOf

/-- Copying trees one after the other. -/
theorem each_clone_spec {depth : Nat}
    (ih : ∀ (r : Routine) (t : Tree NodeId), r.Forest → r.Holds t → t.Within depth →
      ∃ s u, cloneTo depth t.label r = .ok u.label s ∧ s.Forest ∧ Copied r s ∧
        CopiesOf r s [t] [u])
    (ts : List (Tree NodeId)) (r : Routine) (F : r.Forest) (hts : ∀ t ∈ ts, r.Holds t)
    (hwithin : ∀ t ∈ ts, t.Within depth) :
    ∃ (s : Routine) (us : List (Tree NodeId)),
      each (cloneTo depth) (ts.map Tree.label) r = .ok (us.map Tree.label) s ∧ s.Forest ∧
      Copied r s ∧ CopiesOf r s ts us := by
  induction ts generalizing r with
  | nil => exact ⟨r, [], rfl, F, Copied.refl r, .nil r⟩
  | cons t ts ihts =>
    obtain ⟨s, u, hrun, Fs, hcopy, hu⟩ := ih r t F (hts t List.mem_cons_self)
      (hwithin t List.mem_cons_self)
    obtain ⟨s', us, hruns, Fs', hcopies, hus⟩ := ihts s Fs
      (fun t ht => hcopy.holds (hts t (List.mem_cons_of_mem _ ht)))
      fun t ht => hwithin t (List.mem_cons_of_mem _ ht)
    refine ⟨s', u :: us, ?_, Fs', hcopy.trans hcopies, hu.cons hus hcopies.toExtends⟩
    rw [List.map_cons, each, bind_ok hrun, bind_ok hruns]
    rfl

theorem cloneTo_spec (depth : Nat) (r : Routine) (t : Tree NodeId) (F : r.Forest) (ht : r.Holds t)
    (hwithin : t.Within depth) :
    ∃ s u, cloneTo depth t.label r = .ok u.label s ∧ s.Forest ∧ Copied r s ∧
      CopiesOf r s [t] [u] := by
  induction depth generalizing r t with
  | zero => exact hwithin.elim
  | succ depth ih =>
    cases ht with
    | @node id op ts hop hc hts =>
      obtain ⟨s, us, hruns, Fs, hcopy, hus⟩ := each_clone_spec ih ts r F hts hwithin
      obtain ⟨n, hn, hnop⟩ := Option.map_eq_some_iff.mp hop
      have hchildren : n.children = ts.map Tree.label := (children_of_node? hn).symm.trans hc
      have hids : ∀ c ∈ us.map Tree.label, s.Detached c ∧ r.nodes.size ≤ c.index := by
        intro c hcm
        obtain ⟨u, hu, rfl⟩ := List.mem_map.mp hcm
        exact ⟨hus.detached u hu, hus.fresh hu u.label_mem_labels⟩
      have hlen : (us.map Tree.label).length = (r.children id).length := by
        rw [hc, List.length_map, List.length_map, ← List.length_map (f := Tree.bare), hus.bare,
          List.length_map]
      have Fs' : (s.grow op (us.map Tree.label)).Forest :=
        Fs.grow hus.nodup (fun c hc => (hids c hc).1) (hlen ▸ F.fits' hop)
      -- the copy of a child has the child's operation
      have hroles : r.Placed → ∀ c ∈ us.map Tree.label, s.isBlock c = op.isContainer := by
        intro P c hcm
        obtain ⟨u, hu, rfl⟩ := List.mem_map.mp hcm
        obtain ⟨t, ht, hbare⟩ := List.mem_map.mp (hus.bare ▸ List.mem_map_of_mem hu)
        have htop : u.op = t.op := by rw [← Tree.op_bare, ← hbare, Tree.op_bare]
        have hrole := P t.label id (F.parent?_of_mem (hc ▸ List.mem_map_of_mem ht))
        rw [isBlock, (hts t ht).op?, isContainer, hop] at hrole
        rw [isBlock, (hus.holds u hu).op?, htop]
        exact hrole
      have hgrown := hcopy.grow Fs (fun c hc => (hids c hc).2) (fun c hc => (hids c hc).1.alive)
        ⟨id, hop⟩ hroles
      have v := views_grow (r := s) op fun c hc => (hids c hc).1.alive
      refine ⟨s.grow op (us.map Tree.label), .node s.nextId op us, ?_, Fs', hgrown, ?_⟩
      · rw [Tree.label_node, cloneTo, bind_ok (rfl : (get : Edit Routine) r = .ok r r)]
        simp only [hn, hnop]
        rw [hchildren, bind_ok hruns]
        rfl
      · have hsteps : [Tree.node s.nextId op us].flatMap Tree.steps =
            us.flatMap Tree.steps ++ [(s.nextId, op)] := by
          rw [List.flatMap_singleton, Tree.steps_node]
        refine ⟨fun u hu => ?_, fun u hu => ?_, ?_, ?_, ?_⟩
        · rw [List.mem_singleton.mp hu]
          exact Detached.of_node? (node?_grow_nextId s op (us.map Tree.label)) rfl rfl
        · rw [List.mem_singleton.mp hu]
          refine .node ?_ ?_ fun u hu => ?_
          · rw [(v s.nextId).op, if_pos rfl]
          · rw [(v s.nextId).children, if_pos rfl]
          · refine (hus.holds u hu).congr fun k hk => ?_
            obtain ⟨w, hw, rfl⟩ := List.mem_map.mp hk
            have hne := (ne_of_dead (node?_nextId s) ((hus.holds u hu).subtree hw).alive).symm
            rw [(v w.label).op, (v w.label).children, if_neg hne, if_neg hne]
            exact ⟨rfl, rfl⟩
        · rw [List.map_singleton, List.map_singleton, Tree.bare_node, Tree.bare_node, hus.bare]
        · rw [hsteps, List.map_append, hus.handles, List.length_append, List.length_singleton,
            nextIds_succ, ← hus.size]
          rfl
        · rw [hsteps, size_grow, hus.size, List.length_append]
          rfl

/-- Copying a live node of a forest succeeds. -/
theorem clone_spec (F : r.Forest) {t : Tree NodeId} (ht : r.Holds t) :
    ∃ s u, clone t.label r = .ok u.label s ∧ s.Forest ∧ Copied r s ∧ CopiesOf r s [t] [u] :=
  cloneTo_spec r.nodes.size r t F ht (F.within ht)

/-- A handle without a node cannot be copied. -/
theorem clone_of_dead (h : r.node? id = none) : clone id r = .error (.missing id) r := by
  unfold clone
  rw [bind_ok (rfl : (get : Edit Routine) r = .ok r r)]
  cases r.nodes.size with
  | zero => rfl
  | succ depth =>
    rw [cloneTo, bind_ok (rfl : (get : Edit Routine) r = .ok r r)]
    simp only [h]
    rfl

end Edit

end CilFold
