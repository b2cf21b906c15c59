/-
  Every edit keeps the forest. For each effect the new links, marks and child counts are read
  off the equations of the effect; the way up stays finite because a node is only ever put
  below a node that is not below it.
-/
import CilFold.Proofs.Effect

namespace CilFold

/-! ## Lists without repetitions -/

section NodupList

variable {α : Type} [DecidableEq α] {l : List α} {a b x : α} {i : Nat}

/-- Replacing the one occurrence of an element replaces it everywhere. -/
theorem replace_eq_map (h : l.Nodup) (a b : α) :
    l.replace a b = l.map fun x => if x = a then b else x := by
  induction l with
  | nil => rfl
  | cons x l ih =>
    obtain ⟨hx, hl⟩ := List.nodup_cons.mp h
    by_cases hxa : x = a
    · subst hxa
      rw [List.replace_cons_self, List.map_cons, if_pos rfl]
      have hid : ∀ y ∈ l, (if y = x then b else y) = y := by
        intro y hy
        refine if_neg ?_
        rintro rfl
        exact hx hy
      rw [List.map_congr_left hid, List.map_id']
    · have hax : (a == x) = false := beq_false_of_ne (Ne.symm hxa)
      rw [List.replace_cons, hax, List.map_cons, if_neg hxa, ih hl]

theorem mem_replace (h : l.Nodup) (ha : a ∈ l) :
    x ∈ l.replace a b ↔ (x ∈ l ∧ x ≠ a) ∨ x = b := by
  rw [replace_eq_map h, List.mem_map]
  constructor
  · rintro ⟨y, hy, rfl⟩
    by_cases hya : y = a
    · rw [if_pos hya]
      exact .inr rfl
    · rw [if_neg hya]
      exact .inl ⟨hy, hya⟩
  · rintro (⟨hx, hxa⟩ | rfl)
    · exact ⟨x, hx, if_neg hxa⟩
    · exact ⟨a, ha, if_pos rfl⟩

theorem nodup_replace (h : l.Nodup) (hb : b ∉ l) : (l.replace a b).Nodup := by
  induction l with
  | nil => exact List.nodup_nil
  | cons x l ih =>
    obtain ⟨hx, hl⟩ := List.nodup_cons.mp h
    have hbl : b ∉ l := fun hm => hb (List.mem_cons_of_mem x hm)
    by_cases hxa : x = a
    · subst hxa
      rw [List.replace_cons_self]
      exact List.nodup_cons.mpr ⟨hbl, hl⟩
    · have hax : (a == x) = false := beq_false_of_ne (Ne.symm hxa)
      rw [List.replace_cons, hax]
      refine List.nodup_cons.mpr ⟨fun hm => ?_, ih hl hbl⟩
      by_cases ha : a ∈ l
      · rcases (mem_replace hl ha).mp hm with ⟨hm, _⟩ | rfl
        · exact hx hm
        · exact hb List.mem_cons_self
      · rw [List.replace_of_not_mem ha] at hm
        exact hx hm

/-- Erasing a position erases the element that stands there. -/
theorem eraseIdx_eq_erase (h : l.Nodup) (hi : l[i]? = some a) : l.eraseIdx i = l.erase a := by
  obtain ⟨hlt, rfl⟩ := List.getElem?_eq_some_iff.mp hi
  exact (List.erase_eq_eraseIdx_of_idxOf (h.idxOf_getElem i hlt)).symm

theorem mem_eraseIdx (h : l.Nodup) (hi : l[i]? = some a) : x ∈ l.eraseIdx i ↔ x ∈ l ∧ x ≠ a := by
  rw [eraseIdx_eq_erase h hi, h.mem_erase_iff]
  exact And.comm

/-- Replacing an element fills its position. -/
theorem replace_eq_set (h : l.Nodup) (hi : l[i]? = some a) (b : α) : l.replace a b = l.set i b := by
  obtain ⟨hlt, _⟩ := List.getElem?_eq_some_iff.mp hi
  rw [replace_eq_map h]
  refine List.ext_getElem? fun j => ?_
  rw [List.getElem?_map, List.getElem?_set]
  by_cases hij : i = j
  · subst hij
    rw [if_pos rfl, if_pos hlt, hi, Option.map_some, if_pos rfl]
  · rw [if_neg hij]
    cases hj : l[j]? with
    | none => rfl
    | some x =>
      have hxa : x ≠ a := by
        rintro rfl
        exact hij ((List.getElem?_inj hlt h).mp (hi.trans hj.symm))
      rw [Option.map_some, if_neg hxa]

end NodupList

namespace Routine

variable {r s : Routine} {block container id inst new k p root : NodeId} {n : Node}

/-- A live node that is the top of a tree other than the routine's. -/
structure Detached (r : Routine) (id : NodeId) : Prop where
  alive : r.isAlive id = true
  top : r.parent? id = none
  loose : r.isConnected id = false

theorem Detached.of_node? (h : r.node? id = some n) (hp : n.parent = none)
    (hc : n.connected = false) : r.Detached id :=
  ⟨isAlive_of_node? h, (parent?_of_node? h).trans hp, (isConnected_of_node? h).trans hc⟩

theorem Detached.ne_body (F : r.Forest) (h : r.Detached id) : id ≠ r.body := by
  rintro rfl
  have hb := F.isConnected_body
  rw [h.loose] at hb
  cases hb

/-- A detached node that is not below another one is apart from it. -/
theorem Detached.not_above_of_parent? (h : r.Detached new) (hid : r.parent? id = some p) :
    ¬ r.Above id new := by
  intro ha
  have htop := h.top
  rw [← ha.eq_of_top htop] at htop
  rw [htop] at hid
  cases hid

theorem Forest.of_views
    (hroot : r.op? r.body = some .container ∧ r.parent? r.body = none ∧ r.isConnected r.body = true)
    (hnodup : ∀ id, (r.children id).Nodup)
    (hlink : ∀ c id, c ∈ r.children id ↔ r.parent? c = some id)
    (hgrounded : WellFounded fun p id => r.parent? id = some p)
    (hshared : ∀ id p, r.parent? id = some p → r.isConnected id = r.isConnected p)
    (hlone : ∀ id, r.parent? id = none → r.isConnected id = true → id = r.body)
    (hfits : ∀ id op, r.op? id = some op → op.Fits (r.children id).length) : r.Forest where
  root := by
    obtain ⟨hop, hp, hc⟩ := hroot
    obtain ⟨n, hn, hc⟩ := exists_node?_of_isConnected hc
    rw [op?_of_node? hn] at hop
    rw [parent?_of_node? hn] at hp
    exact ⟨n, hn, Option.some.inj hop, hp, hc⟩
  nodup hn := children_of_node? hn ▸ hnodup _
  child hn hc := (hlink _ _).mp (by rw [children_of_node? hn]; exact hc)
  listed hp := (hlink _ _).mpr hp
  grounded := hgrounded
  shared := hshared _ _
  lone hn hp hc :=
    hlone _ ((parent?_of_node? hn).trans hp) ((isConnected_of_node? hn).trans hc)
  fits hn := children_of_node? hn ▸ hfits _ _ (op?_of_node? hn)

namespace Forest

variable (F : r.Forest)
include F

theorem op?_body : r.op? r.body = some .container := by
  obtain ⟨n, hn, hop, _⟩ := F.root
  rw [op?_of_node? hn, hop]

theorem lone' (hp : r.parent? id = none) (hc : r.isConnected id = true) : id = r.body := by
  obtain ⟨n, hn, hk⟩ := exists_node?_of_isConnected hc
  exact F.lone hn ((parent?_of_node? hn).symm.trans hp) hk

theorem fits' {op : Op} (h : r.op? id = some op) : op.Fits (r.children id).length := by
  rw [op?, Option.map_eq_some_iff] at h
  obtain ⟨n, hn, rfl⟩ := h
  rw [children_of_node? hn]
  exact F.fits hn

theorem body_ne_nextId : r.body ≠ r.nextId := by
  obtain ⟨n, hn, _⟩ := F.root
  exact ne_nextId hn

theorem parent_ne_nextId (hp : r.parent? id = some p) : p ≠ r.nextId := by
  obtain ⟨n, hn⟩ := F.exists_parent_node? hp
  exact ne_nextId hn

/-- A node without a parent is no child. -/
theorem not_mem_children (hp : r.parent? k = none) (id : NodeId) : k ∉ r.children id := by
  intro h
  rw [F.parent?_of_mem h] at hp
  cases hp

/-! ## Growing -/

theorem grow {op : Op} {cs : List NodeId} (hnd : cs.Nodup) (hcs : ∀ c ∈ cs, r.Detached c)
    (hfits : op.Fits cs.length) : (r.grow op cs).Forest := by
  have v := views_grow op fun c hc => (hcs c hc).alive
  have hnext := views_none (node?_nextId r)
  have hbodyne := F.body_ne_nextId
  refine Forest.of_views ?root ?nodup ?link ?grounded ?shared ?lone ?fits
  case root =>
    have hbody : r.body ∉ cs := fun h => (hcs _ h).ne_body F rfl
    rw [(sameHead_grow r op cs).body, (v r.body).op, (v r.body).parent, (v r.body).connected,
      if_neg hbodyne, if_neg hbody]
    exact ⟨F.op?_body, F.parent?_body, F.isConnected_body⟩
  case nodup =>
    intro id
    rw [(v id).children]
    split_ifs
    · exact hnd
    · exact F.children_nodup id
  case link =>
    intro c id
    rw [(v id).children, (v c).parent]
    by_cases hid : id = r.nextId
    · rw [if_pos hid]
      by_cases hc : c ∈ cs
      · rw [if_pos hc, hid]
        exact ⟨fun _ => rfl, fun _ => hc⟩
      · rw [if_neg hc, hid, ← F.mem_children_iff, hnext.children]
        exact ⟨fun h => absurd h hc, fun h => absurd h List.not_mem_nil⟩
    · rw [if_neg hid, F.mem_children_iff]
      by_cases hc : c ∈ cs
      · rw [if_pos hc, (hcs c hc).top]
        exact ⟨fun h => (nomatch h), fun h => absurd (Option.some.inj h).symm hid⟩
      · rw [if_neg hc]
  case grounded =>
    refine grounded_of_attach (S := (· ∈ cs)) (q := r.nextId) F.grounded ?_ ?_
    · intro id p hp
      rw [(v id).parent] at hp
      by_cases hc : id ∈ cs
      · rw [if_pos hc] at hp
        exact .inr ⟨hc, (Option.some.inj hp).symm⟩
      · rw [if_neg hc] at hp
        exact .inl hp
    · intro x hx hc
      rw [hx.eq_of_top hnext.parent] at hc
      exact ne_of_dead (node?_nextId r) (hcs _ hc).alive rfl
  case shared =>
    intro id p hp
    rw [(v id).parent] at hp
    rw [(v id).connected, (v p).connected]
    by_cases hc : id ∈ cs
    · rw [if_pos hc] at hp
      rw [← Option.some.inj hp, (hcs id hc).loose, hnext.connected]
    · rw [if_neg hc] at hp
      exact F.shared hp
  case lone =>
    intro id hp hk
    rw [(v id).parent] at hp
    rw [(v id).connected] at hk
    rw [(sameHead_grow r op cs).body]
    by_cases hc : id ∈ cs
    · rw [if_pos hc] at hp
      cases hp
    · rw [if_neg hc] at hp
      exact F.lone' hp hk
  case fits =>
    intro id op' hop
    rw [(v id).op] at hop
    rw [(v id).children]
    by_cases hid : id = r.nextId
    · rw [if_pos hid] at hop ⊢
      rw [← Option.some.inj hop]
      exact hfits
    · rw [if_neg hid] at hop ⊢
      exact F.fits' hop

theorem appendBlock (hc : r.op? container = some .container) (kind : BlockKind) :
    (r.appendBlock container kind).Forest := by
  obtain ⟨nc, hnc, hopc⟩ := Option.map_eq_some_iff.mp hc
  have halive := isAlive_of_node? hnc
  have v := views_appendBlock halive kind
  have hnext := views_none (node?_nextId r)
  have hcne : container ≠ r.nextId := ne_nextId hnc
  have hbodyne := F.body_ne_nextId
  have hfresh := F.not_mem_children hnext.parent
  refine Forest.of_views ?root ?nodup ?link ?grounded ?shared ?lone ?fits
  case root =>
    rw [(sameHead_appendBlock r container kind).body, (v r.body).op, (v r.body).parent,
      (v r.body).connected, if_neg hbodyne, if_neg hbodyne, if_neg hbodyne]
    exact ⟨F.op?_body, F.parent?_body, F.isConnected_body⟩
  case nodup =>
    intro id
    rw [(v id).children]
    split_ifs
    · refine List.nodup_append.mpr ⟨F.children_nodup id, List.nodup_singleton _, ?_⟩
      intro a ha b hb hab
      rw [List.mem_singleton.mp hb] at hab
      exact hfresh id (hab ▸ ha)
    · exact F.children_nodup id
  case link =>
    intro c id
    rw [(v id).children, (v c).parent]
    by_cases hcn : c = r.nextId
    · rw [if_pos hcn, hcn]
      by_cases hid : id = container
      · rw [if_pos hid, hid]
        exact ⟨fun _ => rfl, fun _ => List.mem_append_right _ (List.mem_singleton_self _)⟩
      · rw [if_neg hid]
        exact ⟨fun h => absurd h (hfresh id), fun h => absurd (Option.some.inj h).symm hid⟩
    · rw [if_neg hcn, ← F.mem_children_iff]
      split_ifs
      · rw [List.mem_append, List.mem_singleton]
        exact ⟨fun h => h.resolve_right hcn, .inl⟩
      · rfl
  case grounded =>
    refine grounded_of_attach (S := (· = r.nextId)) (q := container) F.grounded ?_ ?_
    · intro id p hp
      rw [(v id).parent] at hp
      by_cases hid : id = r.nextId
      · rw [if_pos hid] at hp
        exact .inr ⟨hid, (Option.some.inj hp).symm⟩
      · rw [if_neg hid] at hp
        exact .inl hp
    · rintro x hx rfl
      exact ne_of_dead (node?_nextId r) (F.alive_of_above hx halive) rfl
  case shared =>
    intro id p hp
    rw [(v id).parent] at hp
    rw [(v id).connected, (v p).connected]
    by_cases hid : id = r.nextId
    · rw [if_pos hid] at hp
      rw [if_pos hid, ← Option.some.inj hp, if_neg hcne]
    · rw [if_neg hid] at hp
      rw [if_neg hid, if_neg (F.parent_ne_nextId hp)]
      exact F.shared hp
  case lone =>
    intro id hp hk
    rw [(v id).parent] at hp
    rw [(v id).connected] at hk
    rw [(sameHead_appendBlock r container kind).body]
    by_cases hid : id = r.nextId
    · rw [if_pos hid] at hp
      cases hp
    · rw [if_neg hid] at hp hk
      exact F.lone' hp hk
  case fits =>
    intro id op' hop
    rw [(v id).op] at hop
    rw [(v id).children]
    by_cases hid : id = r.nextId
    · rw [if_pos hid] at hop
      rw [← Option.some.inj hop]
      exact fun h _ => (nomatch h)
    · rw [if_neg hid] at hop
      split_ifs with hidc
      · rw [hidc, hc] at hop
        rw [← Option.some.inj hop]
        exact fun _ h => (nomatch h)
      · exact F.fits' hop

/-! ## Inserting and removing instructions -/

/-- Below another node or not, a node goes with its parent. -/
theorem encloses_parent (hp : r.parent? id = some p) (hne : id ≠ k) :
    r.encloses k id = r.encloses k p := by
  rw [Bool.eq_iff_iff, F.encloses_iff, F.encloses_iff]
  exact ⟨fun h => h.above_parent (Ne.symm hne) hp, fun h => h.under hp⟩

/-- A link that stays has both ends outside a removed subtree. -/
theorem not_encloses_parent (hp : r.parent? id = some p) (h : ¬ r.encloses k id = true) :
    ¬ r.encloses k p = true := by
  intro habove
  rw [F.encloses_iff] at h habove
  exact h (habove.under hp)

theorem encloses_false_iff : r.encloses k id = false ↔ ¬ r.Above k id := by
  rw [← Bool.not_eq_true, F.encloses_iff]

/-- The body lies below no other node. -/
theorem not_above_body (hp : r.parent? id = some p) : ¬ r.Above id r.body := by
  intro h
  rw [h.eq_of_top F.parent?_body, F.parent?_body] at hp
  cases hp

theorem insertAt (hblock : r.isBlock block = true) {index : Nat}
    (hindex : index ≤ (r.children block).length) (hinst : r.Detached inst)
    (hbelow : ¬ r.Above inst block) : (r.insertAt block index inst).Forest := by
  obtain ⟨op, hop, hopb⟩ := (Option.any_eq_true _ _).mp hblock
  obtain ⟨nb, hnb, _⟩ := Option.map_eq_some_iff.mp hop
  have v := views_insertAt F hinst.alive (isAlive_of_node? hnb) hbelow index
  have hbodyne : r.body ≠ inst := (hinst.ne_body F).symm
  have hloose := F.not_mem_children hinst.top
  have hne : block ≠ inst := fun h => hbelow (h ▸ Above.refl r inst)
  refine Forest.of_views ?root ?nodup ?link ?grounded ?shared ?lone ?fits
  case root =>
    rw [(sameHead_insertAt r block index inst).body, (v r.body).op, (v r.body).parent,
      (v r.body).connected, if_neg hbodyne, F.isConnected_body, Bool.true_or]
    exact ⟨F.op?_body, F.parent?_body, rfl⟩
  case nodup =>
    intro id
    rw [(v id).children]
    split_ifs with hid
    · subst hid
      rw [(List.perm_insertIdx inst _ hindex).nodup_iff, List.nodup_cons]
      exact ⟨hloose id, F.children_nodup id⟩
    · exact F.children_nodup id
  case link =>
    intro c id
    rw [(v id).children, (v c).parent]
    by_cases hc : c = inst
    · rw [if_pos hc, hc]
      by_cases hid : id = block
      · subst hid
        rw [if_pos rfl, List.mem_insertIdx hindex]
        exact ⟨fun _ => rfl, fun _ => .inl rfl⟩
      · rw [if_neg hid]
        exact ⟨fun h => absurd h (hloose id), fun h => absurd (Option.some.inj h).symm hid⟩
    · rw [if_neg hc, ← F.mem_children_iff]
      split_ifs with hid
      · subst hid
        rw [List.mem_insertIdx hindex]
        exact ⟨fun h => h.resolve_left hc, .inr⟩
      · rfl
  case grounded =>
    refine grounded_of_attach (S := (· = inst)) (q := block) F.grounded ?_ ?_
    · intro id p hp
      rw [(v id).parent] at hp
      by_cases hid : id = inst
      · rw [if_pos hid] at hp
        exact .inr ⟨hid, (Option.some.inj hp).symm⟩
      · rw [if_neg hid] at hp
        exact .inl hp
    · rintro x hx rfl
      exact hbelow hx
  case shared =>
    intro id p hp
    rw [(v id).parent] at hp
    rw [(v id).connected, (v p).connected]
    by_cases hid : id = inst
    · rw [if_pos hid] at hp
      rw [← Option.some.inj hp, hid, hinst.loose, encloses_self, Bool.and_true, Bool.false_or,
        Bool.or_and_distrib_left, Bool.or_self]
      cases r.isConnected block <;> rfl
    · rw [if_neg hid] at hp
      rw [F.shared hp, F.encloses_parent hp hid]
  case lone =>
    intro id hp hk
    rw [(v id).parent] at hp
    rw [(v id).connected, Bool.or_eq_true, Bool.and_eq_true, F.encloses_iff] at hk
    rw [(sameHead_insertAt r block index inst).body]
    by_cases hid : id = inst
    · rw [if_pos hid] at hp
      cases hp
    · rw [if_neg hid] at hp
      rcases hk with hk | ⟨_, hk⟩
      · exact F.lone' hp hk
      · exact absurd (hk.eq_of_top hp).symm hid
  case fits =>
    intro id op' hop'
    rw [(v id).op] at hop'
    rw [(v id).children]
    split_ifs with hid
    · rw [hid, hop] at hop'
      rw [← Option.some.inj hop']
      intro h
      rw [hopb] at h
      cases h
    · exact F.fits' hop'

theorem deleteAt (hblock : r.isBlock block = true) {index : Nat}
    (hinst : (r.children block)[index]? = some inst) : (r.deleteAt block index inst).Forest := by
  obtain ⟨op, hop, hopb⟩ := (Option.any_eq_true _ _).mp hblock
  have hpi : r.parent? inst = some block := F.parent?_of_mem (List.mem_of_getElem? hinst)
  have v := views_deleteAt F hpi index
  have hbody : ¬ r.encloses inst r.body = true := by
    rw [F.encloses_iff]
    exact F.not_above_body hpi
  refine Forest.of_views ?root ?nodup ?link ?grounded ?shared ?lone ?fits
  case root =>
    rw [(sameHead_deleteAt r block index inst).body, (v r.body).op, (v r.body).parent,
      (v r.body).connected, if_neg hbody, if_neg hbody, if_neg hbody]
    exact ⟨F.op?_body, F.parent?_body, F.isConnected_body⟩
  case nodup =>
    intro id
    rw [(v id).children]
    split_ifs
    · exact List.nodup_nil
    · exact (F.children_nodup id).eraseIdx index
    · exact F.children_nodup id
  case link =>
    intro c id
    rw [(v id).children, (v c).parent]
    by_cases hc : r.encloses inst c = true
    · rw [if_pos hc]
      refine ⟨fun h => absurd h ?_, fun h => (nomatch h)⟩
      split_ifs with hid hidb
      · exact List.not_mem_nil
      · subst hidb
        rw [mem_eraseIdx (F.children_nodup id) hinst, F.mem_children_iff]
        rintro ⟨hp, hci⟩
        exact hid ((F.encloses_parent hp hci).symm.trans hc)
      · rw [F.mem_children_iff]
        intro hp
        refine hid ((F.encloses_parent hp ?_).symm.trans hc)
        rintro rfl
        exact hidb (Option.some.inj (hp.symm.trans hpi))
    · have hci : c ≠ inst := by
        rintro rfl
        exact hc (encloses_self r c)
      rw [if_neg hc, ← F.mem_children_iff]
      split_ifs with hid hidb
      · refine ⟨fun h => absurd h List.not_mem_nil, fun h => absurd hid ?_⟩
        exact F.not_encloses_parent (F.parent?_of_mem h) hc
      · subst hidb
        rw [mem_eraseIdx (F.children_nodup id) hinst]
        exact ⟨fun h => h.1, fun h => ⟨h, hci⟩⟩
      · rfl
  case grounded =>
    refine grounded_of_cut F.grounded fun id p hp => ?_
    rw [(v id).parent] at hp
    split_ifs at hp
    exact hp
  case shared =>
    intro id p hp
    rw [(v id).parent] at hp
    rw [(v id).connected, (v p).connected]
    split_ifs at hp with hid
    rw [if_neg hid, if_neg (F.not_encloses_parent hp hid)]
    exact F.shared hp
  case lone =>
    intro id hp hk
    rw [(v id).parent] at hp
    rw [(v id).connected] at hk
    rw [(sameHead_deleteAt r block index inst).body]
    split_ifs at hp hk with hid
    exact F.lone' hp hk
  case fits =>
    intro id op' hop'
    rw [(v id).op] at hop'
    rw [(v id).children]
    split_ifs at hop' with hid
    rw [if_neg hid]
    split_ifs with hidb
    · rw [hidb, hop] at hop'
      rw [← Option.some.inj hop']
      intro h
      rw [hopb] at h
      cases h
    · exact F.fits' hop'

/-! ## Replacing and taking out -/

theorem mem_children_putInSlot (hid : r.parent? id = some p) (hnew : r.Detached new)
    (hne : ¬ r.Above new id) {c q : NodeId} :
    c ∈ (r.putInSlot p id new).children q ↔ (r.putInSlot p id new).parent? c = some q := by
  have v := views_putInSlot F hid hnew.alive hnew.top hne
  have hmem : id ∈ r.children p := F.listed hid
  have hidnew : ¬ r.encloses id new = true := by
    rw [F.encloses_iff]
    exact hnew.not_above_of_parent? hid
  have hidp : ¬ r.encloses id p = true := by
    rw [F.encloses_iff]
    exact F.not_above_parent hid
  have hloose := F.not_mem_children hnew.top
  rw [(v q).children, (v c).parent]
  by_cases hc : r.encloses id c = true
  · rw [if_pos hc]
    refine ⟨fun h => absurd h ?_, fun h => (nomatch h)⟩
    split_ifs with hq hqp
    · exact List.not_mem_nil
    · subst hqp
      rw [mem_replace (F.children_nodup q) hmem, F.mem_children_iff]
      rintro (⟨hp, hci⟩ | rfl)
      · exact hq ((F.encloses_parent hp hci).symm.trans hc)
      · exact hidnew hc
    · rw [F.mem_children_iff]
      intro hp
      refine hq ((F.encloses_parent hp ?_).symm.trans hc)
      rintro rfl
      exact hqp (Option.some.inj (hp.symm.trans hid))
  · have hci : c ≠ id := by
      rintro rfl
      exact hc (encloses_self r c)
    rw [if_neg hc]
    by_cases hcn : c = new
    · rw [if_pos hcn, hcn]
      split_ifs with hq hqp
      · refine ⟨fun h => absurd h List.not_mem_nil, fun h => absurd hq ?_⟩
        rw [← Option.some.inj h]
        exact hidp
      · subst hqp
        rw [mem_replace (F.children_nodup q) hmem]
        exact ⟨fun _ => rfl, fun _ => .inr rfl⟩
      · exact ⟨fun h => absurd h (hloose q), fun h => absurd (Option.some.inj h).symm hqp⟩
    · rw [if_neg hcn, ← F.mem_children_iff]
      split_ifs with hq hqp
      · refine ⟨fun h => absurd h List.not_mem_nil, fun h => absurd hq ?_⟩
        exact F.not_encloses_parent (F.parent?_of_mem h) hc
      · subst hqp
        rw [mem_replace (F.children_nodup q) hmem]
        exact ⟨fun h => (h.resolve_right hcn).1, fun h => .inl ⟨h, hci⟩⟩
      · rfl

theorem putInSlot (hid : r.parent? id = some p) (hnew : r.Detached new)
    (hne : ¬ r.Above new id) : (r.putInSlot p id new).Forest := by
  have v := views_putInSlot F hid hnew.alive hnew.top hne
  have hidnew : ¬ r.encloses id new = true := by
    rw [F.encloses_iff]
    exact hnew.not_above_of_parent? hid
  have hidp : ¬ r.encloses id p = true := by
    rw [F.encloses_iff]
    exact F.not_above_parent hid
  have hbody : ¬ r.encloses id r.body = true := by
    rw [F.encloses_iff]
    exact F.not_above_body hid
  have hbodyne : r.body ≠ new := (hnew.ne_body F).symm
  have hloose := F.not_mem_children hnew.top
  refine Forest.of_views ?root ?nodup ?link ?grounded ?shared ?lone ?fits
  case root =>
    rw [(sameHead_putInSlot r p id new).body, (v r.body).op, (v r.body).parent,
      (v r.body).connected, if_neg hbody, if_neg hbody, if_neg hbody, if_neg hbodyne,
      F.isConnected_body, Bool.true_or]
    exact ⟨F.op?_body, F.parent?_body, rfl⟩
  case nodup =>
    intro q
    rw [(v q).children]
    split_ifs
    · exact List.nodup_nil
    · exact nodup_replace (F.children_nodup q) (hloose q)
    · exact F.children_nodup q
  case link => exact fun c q => F.mem_children_putInSlot hid hnew hne
  case grounded =>
    refine grounded_of_attach (S := (· = new)) (q := p) F.grounded ?_ ?_
    · intro i q hq
      rw [(v i).parent] at hq
      split_ifs at hq with hi hin
      · exact .inr ⟨hin, (Option.some.inj hq).symm⟩
      · exact .inl hq
    · rintro x hx rfl
      exact hne (hx.under hid)
  case shared =>
    intro i q hq
    rw [(v i).parent] at hq
    rw [(v i).connected, (v q).connected]
    split_ifs at hq with hi hin
    · rw [← Option.some.inj hq, hin, if_neg hidnew, if_neg hidp, hnew.loose, encloses_self]
      cases r.isConnected p <;> rfl
    · rw [if_neg hi, if_neg (F.not_encloses_parent hq hi), F.shared hq, F.encloses_parent hq hin]
  case lone =>
    intro i hp hk
    rw [(v i).parent] at hp
    rw [(v i).connected] at hk
    rw [(sameHead_putInSlot r p id new).body]
    split_ifs at hp hk with hi hin
    rw [Bool.or_eq_true, Bool.and_eq_true, F.encloses_iff] at hk
    rcases hk with hk | ⟨_, hk⟩
    · exact F.lone' hp hk
    · exact absurd (hk.eq_of_top hp).symm hin
  case fits =>
    intro i op hop
    rw [(v i).op] at hop
    rw [(v i).children]
    split_ifs at hop with hi
    rw [if_neg hi]
    split_ifs
    · rw [List.length_replace]
      exact F.fits' hop
    · exact F.fits' hop

theorem mem_children_detach (hid : r.parent? id = some p) {c q : NodeId} :
    c ∈ (r.detach p id).children q ↔ (r.detach p id).parent? c = some q := by
  have v := views_detach F hid
  have hmem : id ∈ r.children p := F.listed hid
  have hidne : id ≠ r.nextId := by
    obtain ⟨n, hn, _⟩ := exists_node?_of_parent? hid
    exact ne_nextId hn
  have hfresh := F.not_mem_children (views_none (node?_nextId r)).parent
  rw [(v q).children, (v c).parent]
  by_cases hcn : c = r.nextId
  · rw [if_pos hcn, hcn]
    split_ifs with hqp
    · subst hqp
      rw [mem_replace (F.children_nodup q) hmem]
      exact ⟨fun _ => rfl, fun _ => .inr rfl⟩
    · exact ⟨fun h => absurd h (hfresh q), fun h => absurd (Option.some.inj h).symm hqp⟩
  · rw [if_neg hcn]
    by_cases hci : c = id
    · rw [if_pos hci, hci]
      refine ⟨fun h => absurd h ?_, fun h => (nomatch h)⟩
      split_ifs with hqp
      · subst hqp
        rw [mem_replace (F.children_nodup q) hmem]
        rintro (⟨_, h⟩ | h)
        · exact h rfl
        · exact hidne h
      · rw [F.mem_children_iff]
        intro h
        exact hqp (Option.some.inj (h.symm.trans hid))
    · rw [if_neg hci, ← F.mem_children_iff]
      split_ifs with hqp
      · subst hqp
        rw [mem_replace (F.children_nodup q) hmem]
        exact ⟨fun h => (h.resolve_right hcn).1, fun h => .inl ⟨h, hci⟩⟩
      · rfl

theorem detach (hid : r.parent? id = some p) : (r.detach p id).Forest := by
  have v := views_detach F hid
  have hnext := views_none (node?_nextId r)
  have hidp : r.encloses id p = false := F.encloses_false_iff.mpr (F.not_above_parent hid)
  have hbody : r.encloses id r.body = false := F.encloses_false_iff.mpr (F.not_above_body hid)
  have hpne := F.parent_ne_nextId hid
  have hbodyne := F.body_ne_nextId
  have hbodyid : r.body ≠ id := by
    rintro rfl
    rw [F.parent?_body] at hid
    cases hid
  have hfresh := F.not_mem_children hnext.parent
  refine Forest.of_views ?root ?nodup ?link ?grounded ?shared ?lone ?fits
  case root =>
    rw [(sameHead_detach r p id).body, (v r.body).op, (v r.body).parent, (v r.body).connected,
      if_neg hbodyne, if_neg hbodyne, if_neg hbodyne, if_neg hbodyid, hbody, F.isConnected_body]
    exact ⟨F.op?_body, F.parent?_body, rfl⟩
  case nodup =>
    intro q
    rw [(v q).children]
    split_ifs
    · exact nodup_replace (F.children_nodup q) (hfresh q)
    · exact F.children_nodup q
  case link => exact fun c q => F.mem_children_detach hid
  case grounded =>
    refine grounded_of_attach (S := (· = r.nextId)) (q := p) F.grounded ?_ ?_
    · intro i q hq
      rw [(v i).parent] at hq
      split_ifs at hq with hi hii
      · exact .inr ⟨hi, (Option.some.inj hq).symm⟩
      · exact .inl hq
    · rintro x hx rfl
      obtain ⟨n, hn⟩ := F.exists_parent_node? hid
      exact ne_of_dead (node?_nextId r) (F.alive_of_above hx (isAlive_of_node? hn)) rfl
  case shared =>
    intro i q hq
    rw [(v i).parent] at hq
    rw [(v i).connected, (v q).connected]
    split_ifs at hq with hi hii
    · rw [← Option.some.inj hq, if_pos hi, if_neg hpne, hidp, Bool.not_false, Bool.and_true]
    · rw [if_neg hi, if_neg (F.parent_ne_nextId hq), F.shared hq, F.encloses_parent hq hii]
  case lone =>
    intro i hp hk
    rw [(v i).parent] at hp
    rw [(v i).connected] at hk
    rw [(sameHead_detach r p id).body]
    split_ifs at hp hk with hi hii
    · rw [hii, encloses_self, Bool.not_true, Bool.and_false] at hk
      cases hk
    · rw [Bool.and_eq_true] at hk
      exact F.lone' hp hk.1
  case fits =>
    intro i op hop
    rw [(v i).op] at hop
    rw [(v i).children]
    split_ifs at hop with hi
    · rw [hi, if_neg hpne.symm, hnext.children, ← Option.some.inj hop]
      exact fun _ _ => ⟨fun arity h => Option.some.inj h, fun h => (nomatch h)⟩
    · split_ifs
      · rw [List.length_replace]
        exact F.fits' hop
      · exact F.fits' hop

end Forest

end Routine

end CilFold
