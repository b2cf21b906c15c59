/-
  What the check of a routine establishes. On a forest whose variables bear their handles, a
  routine passes exactly if its blocks are in place and its use-lists are right
  (`validate_ok_iff`): the search from the body then meets every connected node once.
-/
import CilFold.Routine.Validity
import CilFold.Proofs.Reachable

namespace CilFold

theorem forM_eq_ok {ε α : Type} {f : α → Except ε Unit} {l : List α} :
    l.forM f = .ok () ↔ ∀ a ∈ l, f a = .ok () := by
  induction l with
  | nil => exact ⟨fun _ a ha => absurd ha List.not_mem_nil, fun _ => rfl⟩
  | cons a l ih =>
    rw [List.forM_eq_forM, List.forM_cons, bind_eq_ok, ← List.forM_eq_forM,
      List.forall_mem_cons, ← ih]
    exact ⟨fun ⟨_, ha, hl⟩ => ⟨ha, hl⟩, fun ⟨ha, hl⟩ => ⟨(), ha, hl⟩⟩

/-- A loop that is refused is refused one of its elements. -/
theorem exists_of_forM_eq_error {ε α : Type} {f : α → Except ε Unit} {l : List α} {e : ε}
    (h : l.forM f = .error e) : ∃ a ∈ l, f a = .error e := by
  induction l with
  | nil => cases h
  | cons a l ih =>
    rw [List.forM_eq_forM, List.forM_cons, ← List.forM_eq_forM] at h
    cases ha : f a with
    | error e' =>
      rw [ha] at h
      cases h
      exact ⟨a, List.mem_cons_self, ha⟩
    | ok _ =>
      rw [ha] at h
      obtain ⟨b, hb, hfb⟩ := ih h
      exact ⟨b, List.mem_cons_of_mem a hb, hfb⟩

namespace Routine

variable {r : Routine} {c id p : NodeId} {n : Node}

/-- In the tree, the children of containers are blocks, and no other children are. -/
def InPlace (r : Routine) : Prop :=
  ∀ c p, r.isConnected p = true → r.parent? c = some p → r.isBlock c = r.isContainer p

/-- What holds of a routine that passes its check. -/
structure Valid (r : Routine) : Prop where
  forest : r.Forest
  numbered : r.Numbered
  inPlace : r.InPlace
  uses : r.UsesListed

section Forest

variable (F : r.Forest)
include F

theorem checkBody_ok : r.checkBody = .ok () := by
  obtain ⟨n, hn, hop, hp, hc⟩ := F.root
  rw [checkBody, hn]
  simp [hop, hp, hc, Op.isContainer]

theorem checkChild_ok (hn : r.node? id = some n) (hc : c ∈ n.children) :
    r.checkChild id n c = .ok () ↔ r.isBlock c = r.isContainer id := by
  obtain ⟨m, hm, hp⟩ := exists_node?_of_parent? (F.child hn hc)
  rw [checkChild, hm, isBlock_of_node? hm, isContainer_of_node? hn]
  simp only [hp, ne_eq, not_true_eq_false, if_false, ite_not]
  by_cases h : m.op.isBlock = n.op.isContainer
  · simp [h]
  · simp [h]

theorem checkReached_ok (hid : r.isConnected id = true) {cs : List NodeId} :
    r.checkReached id = .ok cs ↔
      r.children id = cs ∧ ∀ c ∈ r.children id, r.isBlock c = r.isContainer id := by
  obtain ⟨n, hn, hc⟩ := exists_node?_of_isConnected hid
  simp only [checkReached, hn, hc, Bool.not_true, Bool.false_eq_true, if_false, bind_eq_ok,
    pure_eq_ok, children_of_node? hn]
  constructor
  · rintro ⟨_, hall, rfl⟩
    refine ⟨rfl, fun c hc => (checkChild_ok F hn hc).mp (forM_eq_ok.mp hall c hc)⟩
  · rintro ⟨rfl, hall⟩
    exact ⟨(), forM_eq_ok.mpr fun c hc => (checkChild_ok F hn hc).mpr (hall c hc), rfl⟩

/-- The search reaches what lies below the handles of its stack, each node once, if all
    children there are in place; otherwise it fails. -/
theorem reach_spec (steps : Nat) (reached stack : List NodeId)
    (hstack : ∀ id ∈ stack, r.isConnected id = true)
    (hnd : (reached ++ stack.flatMap r.preorder).Nodup)
    (hsteps : (stack.flatMap r.preorder).length ≤ steps) :
    ((∀ id ∈ stack.flatMap r.preorder, ∀ c ∈ r.children id, r.isBlock c = r.isContainer id) →
      ∃ out, r.reach steps reached stack = .ok out) ∧
    ∀ out, r.reach steps reached stack = .ok out →
      out.Perm (reached ++ stack.flatMap r.preorder) ∧
      ∀ id ∈ stack.flatMap r.preorder, ∀ c ∈ r.children id, r.isBlock c = r.isContainer id := by
  induction steps generalizing reached stack with
  | zero =>
    cases stack with
    | nil =>
      refine ⟨fun _ => ⟨reached, rfl⟩, fun out hout => ?_⟩
      cases hout
      exact ⟨by simp, fun id hid => absurd hid List.not_mem_nil⟩
    | cons id rest =>
      obtain ⟨n, hn, _⟩ := exists_node?_of_isConnected (hstack id List.mem_cons_self)
      rw [List.flatMap_cons, F.preorder_eq (isAlive_of_node? hn)] at hsteps
      simp at hsteps
  | succ steps ih =>
    cases stack with
    | nil =>
      refine ⟨fun _ => ⟨reached, rfl⟩, fun out hout => ?_⟩
      cases hout
      exact ⟨by simp, fun id hid => absurd hid List.not_mem_nil⟩
    | cons id rest =>
      have hid := hstack id List.mem_cons_self
      obtain ⟨n, hn, _⟩ := exists_node?_of_isConnected hid
      have hpre := F.preorder_eq (isAlive_of_node? hn)
      -- the stack after the step stands for the same nodes but the one just reached
      have hperm : (id :: ((r.children id).reverse ++ rest).flatMap r.preorder).Perm
          ((id :: rest).flatMap r.preorder) := by
        rw [List.flatMap_cons, hpre, List.flatMap_append, List.cons_append]
        exact ((List.reverse_perm _).flatMap_right _).append_right _ |>.cons id
      have hmove : ((id :: reached) ++ ((r.children id).reverse ++ rest).flatMap r.preorder).Perm
          (reached ++ (id :: rest).flatMap r.preorder) :=
        List.perm_middle.symm.trans (hperm.append_left reached)
      have hnew : reached.contains id = false := by
        rw [← Bool.not_eq_true, List.contains_iff_mem]
        intro hmem
        have hmid := (hmove.nodup_iff.mpr hnd)
        rw [List.cons_append, List.nodup_cons] at hmid
        exact hmid.1 (List.mem_append_left _ hmem)
      have hstack' : ∀ x ∈ (r.children id).reverse ++ rest, r.isConnected x = true := by
        intro x hx
        rcases List.mem_append.mp hx with hx | hx
        · rw [F.shared (F.parent?_of_mem (List.mem_reverse.mp hx))]
          exact hid
        · exact hstack x (List.mem_cons_of_mem _ hx)
      have hlen : (((r.children id).reverse ++ rest).flatMap r.preorder).length ≤ steps := by
        have h := hperm.length_eq
        rw [List.length_cons] at h
        omega
      obtain ⟨hfwd, hbwd⟩ := ih _ _ hstack' (hmove.nodup_iff.mpr hnd) hlen
      simp only [reach, hnew, Bool.false_eq_true, if_false, bind_eq_ok, checkReached_ok F hid]
      constructor
      · intro hall
        have hall' : ∀ x ∈ id :: ((r.children id).reverse ++ rest).flatMap r.preorder,
            ∀ c ∈ r.children x, r.isBlock c = r.isContainer x :=
          fun x hx => hall x (hperm.mem_iff.mp hx)
        obtain ⟨out, hout⟩ := hfwd fun x hx => hall' x (List.mem_cons_of_mem _ hx)
        exact ⟨out, _, ⟨rfl, hall' id List.mem_cons_self⟩, hout⟩
      · rintro out ⟨_, ⟨rfl, hself⟩, hout⟩
        obtain ⟨hp, hrest⟩ := hbwd out hout
        refine ⟨hp.trans hmove, fun x hx => ?_⟩
        rcases List.mem_cons.mp (hperm.mem_iff.mpr hx) with rfl | hx
        · exact hself
        · exact hrest x hx

/-- The search from the body succeeds exactly if the blocks are in place, and then it has met
    the connected nodes, each once. -/
theorem reach_body_spec :
    (r.InPlace → ∃ out, r.reach r.nodes.size [] [r.body] = .ok out) ∧
    ∀ out, r.reach r.nodes.size [] [r.body] = .ok out →
      out.Nodup ∧ (∀ id, id ∈ out ↔ r.isConnected id = true) ∧ r.InPlace := by
  obtain ⟨n, hn, _⟩ := F.root
  have halive := isAlive_of_node? hn
  have hmem : ∀ id, id ∈ r.preorder r.body ↔ r.isConnected id = true := fun id =>
    (F.mem_preorder halive).trans F.isConnected_iff_above.symm
  have hnd := F.nodup_preorder halive
  have hlen : (r.preorder r.body).length ≤ r.nodes.size := by
    have hsub : r.preorder r.body ⊆ r.slots := by
      intro id hid
      obtain ⟨m, hm, _⟩ := exists_node?_of_isConnected ((hmem id).mp hid)
      exact mem_slots_of_node? hm
    have hle := hnd.length_le_of_subset hsub
    rwa [slots, List.length_map, List.length_range] at hle
  have hone : [r.body].flatMap r.preorder = r.preorder r.body := List.flatMap_singleton _ _
  have hreach := reach_spec F r.nodes.size [] [r.body]
    (fun id hid => List.mem_singleton.mp hid ▸ F.isConnected_body)
    (by rwa [hone, List.nil_append]) (by rwa [hone])
  rw [hone, List.nil_append] at hreach
  refine ⟨fun hplace => hreach.1 fun id hid c hc => ?_, fun out hout => ?_⟩
  · exact hplace c id ((hmem id).mp hid) (F.parent?_of_mem hc)
  · obtain ⟨hperm, hall⟩ := hreach.2 out hout
    refine ⟨hperm.nodup_iff.mpr hnd, fun id => hperm.mem_iff.trans (hmem id), fun c p hp hc => ?_⟩
    exact hall p ((hmem p).mpr hp) c (F.listed hc)

omit F in
theorem checkMarks_ok {out : List NodeId} (hout : ∀ id, id ∈ out ↔ r.isConnected id = true) :
    r.checkMarks out = .ok () := by
  unfold checkMarks
  split
  · next id hid =>
    have h := List.find?_some hid
    rw [Bool.and_eq_true, Bool.not_eq_true', ← Bool.not_eq_true, List.contains_iff_mem] at h
    exact absurd ((hout id).mpr h.1) h.2
  · rfl

omit F in
theorem checkUses_ok {out : List NodeId} (hnd : out.Nodup)
    (hout : ∀ id, id ∈ out ↔ r.isConnected id = true) {x : Variable} {kind : UseKind} :
    r.checkUses out x kind = .ok () ↔
      (x.uses kind).Nodup ∧ ∀ id, id ∈ x.uses kind ↔ r.use? id = some (kind, x.id) := by
  have hfound : ∀ id, id ∈ r.foundUses out kind x.id ↔ r.use? id = some (kind, x.id) := by
    intro id
    rw [foundUses, List.mem_filter, hout, beq_iff_eq]
    constructor
    · rintro ⟨hc, hop⟩
      obtain ⟨n, hn, hc⟩ := exists_node?_of_isConnected hc
      rw [op?_of_node? hn] at hop
      rw [use?_of_node? hn, if_pos hc]
      exact hop
    · intro hu
      obtain ⟨n, hn, hc, hu⟩ := use?_eq_some hu
      exact ⟨isConnected_iff.mpr ⟨n, hn, hc⟩, by rw [op?_of_node? hn]; exact hu⟩
  have hfnd : (r.foundUses out kind x.id).Nodup := hnd.filter _
  have hperm : (x.uses kind).isPerm (r.foundUses out kind x.id) = true ↔
      (x.uses kind).Nodup ∧ ∀ id, id ∈ x.uses kind ↔ r.use? id = some (kind, x.id) := by
    rw [List.isPerm_iff]
    constructor
    · intro hp
      exact ⟨hp.nodup_iff.mpr hfnd, fun id => hp.mem_iff.trans (hfound id)⟩
    · rintro ⟨hxnd, hmem⟩
      exact (List.perm_ext_iff_of_nodup hxnd hfnd).mpr fun id => (hmem id).trans (hfound id).symm
  rw [← hperm, checkUses]
  split <;> simp_all

/-- On a forest whose variables bear their handles, the check passes exactly if the blocks are
    in place and the use-lists are right. -/
theorem validate_ok_iff (N : r.Numbered) : r.validate = .ok () ↔ r.InPlace ∧ r.UsesListed := by
  obtain ⟨hfwd, hbwd⟩ := reach_body_spec F
  have huses : ∀ out, out.Nodup → (∀ id, id ∈ out ↔ r.isConnected id = true) →
      ((r.vars.toList.forM fun v => UseKind.all.forM (r.checkUses out v)) = .ok () ↔
        r.UsesListed) := by
    intro out hnd hout
    simp only [forM_eq_ok, checkUses_ok hnd hout]
    constructor
    · intro h v x hx kind
      have hid := N v x hx
      have hmem : x ∈ r.vars.toList := by
        rw [Array.mem_toList_iff]
        exact Array.mem_of_getElem? hx
      have hkind : kind ∈ UseKind.all := by cases kind <;> decide
      have hres := h x hmem kind hkind
      rwa [hid] at hres
    · intro U x hx kind _
      rw [Array.mem_toList_iff] at hx
      obtain ⟨i, hi⟩ := Array.mem_iff_getElem?.mp hx
      have hid := N ⟨i⟩ x hi
      rw [hid]
      exact U ⟨i⟩ x hi kind
  simp only [validate, bind_eq_ok, checkBody_ok F]
  constructor
  · rintro ⟨_, _, out, hout, _, _, hvars⟩
    obtain ⟨hnd, hmem, hplace⟩ := hbwd out hout
    exact ⟨hplace, (huses out hnd hmem).mp hvars⟩
  · rintro ⟨hplace, U⟩
    obtain ⟨out, hout⟩ := hfwd hplace
    obtain ⟨hnd, hmem, _⟩ := hbwd out hout
    exact ⟨(), trivial, out, hout, (), checkMarks_ok hmem, (huses out hnd hmem).mpr U⟩

end Forest

/-- A reachable routine passes its check exactly if it is valid. -/
theorem valid_iff (h : Reachable r) : r.validate = .ok () ↔ r.Valid := by
  rw [validate_ok_iff h.forest h.numbered]
  exact ⟨fun ⟨hp, hu⟩ => ⟨h.forest, h.numbered, hp, hu⟩, fun V => ⟨V.inPlace, V.uses⟩⟩

theorem Valid.validate (V : r.Valid) : r.validate = .ok () :=
  (validate_ok_iff V.forest V.numbered).mpr ⟨V.inPlace, V.uses⟩

end Routine

end CilFold
