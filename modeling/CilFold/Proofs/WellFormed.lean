/-
  The check of a routine is exact on every arena. `WellFormed r` says what the check is about
  without a walk: it follows the child lists from the body and asks that each node met there
  exists, is connected and hangs in one slot. Nothing is asked of the arena beforehand, so child
  lists may name destroyed nodes, name a node twice or run in circles.

  A walk that succeeds has met each node once, namely the body and every slot of a node it met
  (`reach_eq_ok`); that is why no slot can repeat another one. A well-formed routine has no
  second way to a node, so that the walk never meets one again (`exists_reach`). One step for
  each slot of the arena is enough for all of this (`validateWithin_eq`).
-/
import CilFold.Proofs.Validity

namespace CilFold.Routine

variable {r : Routine} {c id p : NodeId} {n : Node}

/-! ## Routines without a flaw -/

/-- The nodes to which the child lists lead from the body. -/
inductive FromBody (r : Routine) : NodeId → Prop where
  | body : FromBody r r.body
  | child {p c : NodeId} : FromBody r p → c ∈ r.children p → FromBody r c

/-- What the check of a routine is about. -/
structure WellFormed (r : Routine) : Prop where
  root : ∃ n, r.node? r.body = some n ∧ n.parent = none ∧ n.connected = true ∧ n.op = .container
  live : ∀ id, r.FromBody id → r.isAlive id = true ∧ r.isConnected id = true
  top : ∀ p, r.FromBody p → r.body ∉ r.children p
  once : ∀ id, r.FromBody id → id ≠ r.body →
    ∃! slot : NodeId × Nat, r.FromBody slot.1 ∧ (r.children slot.1)[slot.2]? = some id
  back : ∀ p c, r.FromBody p → c ∈ r.children p → r.parent? c = some p
  place : ∀ p c, r.FromBody p → c ∈ r.children p → (r.isBlock c = true ↔ r.isContainer p = true)
  marks : ∀ id, r.isAlive id = true → r.isConnected id = true → r.FromBody id
  uses : ∀ v ∈ r.vars, ∀ kind, (v.uses kind).Nodup ∧
    ∀ id, id ∈ v.uses kind ↔ r.FromBody id ∧ (r.op? id).bind Op.use? = some (kind, v.id)

/-- The check of a routine with a bound on the number of nodes that its walk may reach. -/
def validateWithin (r : Routine) (steps : Nat) : Except Flaw Unit := do
  r.checkBody
  let reached ← r.reach steps [] [r.body]
  r.checkMarks reached
  r.vars.toList.forM fun v => UseKind.all.forM (r.checkUses reached v)

/-! ## The checks of one node -/

theorem checkBody_eq_ok : r.checkBody = .ok () ↔
    ∃ n, r.node? r.body = some n ∧ n.parent = none ∧ n.connected = true ∧ n.op = .container := by
  unfold checkBody
  cases hn : r.node? r.body with
  | none => simp
  | some n =>
    have hop : n.op.isContainer = true ↔ n.op = .container := by
      cases n.op <;> simp [Op.isContainer]
    simp [and_assoc, hop]

theorem checkChild_eq_ok (hn : r.node? id = some n) : r.checkChild id n c = .ok () ↔
    r.parent? c = some id ∧ r.isBlock c = r.isContainer id := by
  unfold checkChild
  cases hc : r.node? c with
  | none => simp [parent?, hc]
  | some m =>
    rw [parent?_of_node? hc, isBlock_of_node? hc, isContainer_of_node? hn]
    by_cases hp : m.parent = some id
    · by_cases hb : m.op.isBlock = n.op.isContainer <;> simp [hp, hb]
    · simp [hp]

/-- What the walk asks of a node that it reaches. -/
def Checked (r : Routine) (id : NodeId) : Prop :=
  r.isConnected id = true ∧
    ∀ c ∈ r.children id, r.parent? c = some id ∧ r.isBlock c = r.isContainer id

theorem checkReached_eq_ok {cs : List NodeId} :
    r.checkReached id = .ok cs ↔ r.Checked id ∧ r.children id = cs := by
  unfold checkReached Checked
  cases hn : r.node? id with
  | none =>
    rw [isConnected, hn]
    simp [throw, throwThe, MonadExceptOf.throw]
  | some n =>
    rw [isConnected_of_node? hn, children_of_node? hn]
    have hall : n.children.forM (r.checkChild id n) = .ok () ↔
        ∀ c ∈ n.children, r.parent? c = some id ∧ r.isBlock c = r.isContainer id := by
      simp only [forM_eq_ok, checkChild_eq_ok hn]
    simp only [refuse_bind_eq_ok, bind_eq_ok, pure_eq_ok, Bool.not_eq_true', Bool.not_eq_false]
    constructor
    · rintro ⟨hc, _, hforM, rfl⟩
      exact ⟨⟨hc, hall.mp hforM⟩, rfl⟩
    · rintro ⟨⟨hc, hchildren⟩, rfl⟩
      exact ⟨hc, (), hall.mpr hchildren, rfl⟩

theorem Checked.alive (h : r.Checked id) : r.isAlive id = true := by
  obtain ⟨n, hn, _⟩ := exists_node?_of_isConnected h.1
  exact isAlive_of_node? hn

/-! ## Walks that succeed -/

/-- The nodes that a walk adds to those reached before: what was on its stack, and the children
    of all it added, each once. -/
theorem reach_eq_ok {steps : Nat} {reached stack out : List NodeId}
    (hstack : ∀ id ∈ stack, r.FromBody id) (h : r.reach steps reached stack = .ok out) :
    ∃ new, out.Perm (new ++ reached) ∧ new.Perm (stack ++ new.flatMap r.children) ∧
      (reached.Nodup → out.Nodup) ∧ ∀ id ∈ new, r.FromBody id ∧ r.Checked id := by
  induction steps generalizing reached stack with
  | zero =>
    cases stack with
    | nil =>
      cases h
      exact ⟨[], .refl _, .nil, id, fun _ h => absurd h List.not_mem_nil⟩
    | cons id rest => cases h
  | succ steps ih =>
    cases stack with
    | nil =>
      cases h
      exact ⟨[], .refl _, .nil, id, fun _ h => absurd h List.not_mem_nil⟩
    | cons id rest =>
      have hid := hstack id List.mem_cons_self
      rw [reach, refuse_bind_eq_ok, bind_eq_ok] at h
      obtain ⟨hnot, _, hcheck, h⟩ := h
      obtain ⟨hchecked, rfl⟩ := checkReached_eq_ok.mp hcheck
      have hstack' : ∀ x ∈ (r.children id).reverse ++ rest, r.FromBody x := by
        intro x hx
        rcases List.mem_append.mp hx with hx | hx
        · exact .child hid (List.mem_reverse.mp hx)
        · exact hstack x (List.mem_cons_of_mem _ hx)
      obtain ⟨new, hout, hnew, hnodup, hall⟩ := ih hstack' h
      refine ⟨id :: new, hout.trans List.perm_middle, ?_, fun hnd => hnodup ?_, fun x hx => ?_⟩
      · -- what is new behind the node came from its children or from the rest of the stack
        rw [List.flatMap_cons, List.cons_append]
        refine .cons id (hnew.trans ?_)
        rw [← List.append_assoc]
        exact ((List.reverse_perm _).append_right rest).trans List.perm_append_comm |>.append_right _
      · rw [List.contains_iff_mem] at hnot
        exact List.nodup_cons.mpr ⟨hnot, hnd⟩
      · rcases List.mem_cons.mp hx with rfl | hx
        · exact ⟨hid, hchecked⟩
        · exact hall x hx

/-- A walk from the body that succeeds has reached what the child lists lead to. No two slots of
    the nodes it reached hold the same node, and none holds the body. -/
theorem reach_body_eq_ok {steps : Nat} {out : List NodeId}
    (h : r.reach steps [] [r.body] = .ok out) :
    out.Nodup ∧ (∀ id, id ∈ out ↔ r.FromBody id) ∧ (∀ id, r.FromBody id → r.Checked id) ∧
      (∀ id, r.FromBody id → (r.children id).Nodup) ∧
      ∀ id, r.FromBody id → r.body ∉ r.children id := by
  have hstack : ∀ id ∈ [r.body], r.FromBody id := fun id hid => List.mem_singleton.mp hid ▸ .body
  obtain ⟨new, hout, hnew, hnodup, hall⟩ := reach_eq_ok hstack h
  rw [List.append_nil] at hout
  have hnd : out.Nodup := hnodup List.nodup_nil
  have hmem : ∀ id, id ∈ new ↔ r.FromBody id := by
    refine fun id => ⟨fun hid => (hall id hid).1, fun hid => ?_⟩
    induction hid with
    | body => exact hnew.mem_iff.mpr List.mem_cons_self
    | child _ hc ih =>
      exact hnew.mem_iff.mpr (List.mem_append_right _ (List.mem_flatMap.mpr ⟨_, ih, hc⟩))
  have hslots := hnew.nodup_iff.mp (hout.nodup_iff.mp hnd)
  rw [List.singleton_append, List.nodup_cons, List.nodup_flatMap] at hslots
  obtain ⟨hbody, hchildren, _⟩ := hslots
  refine ⟨hnd, fun id => hout.mem_iff.trans (hmem id), fun id hid => (hall id ((hmem id).mpr hid)).2,
    fun id hid => hchildren id ((hmem id).mpr hid), fun id hid hc => hbody ?_⟩
  exact List.mem_flatMap.mpr ⟨id, (hmem id).mpr hid, hc⟩

/-! ## Walks on well-formed routines -/

/-- What holds between the nodes reached and the stack while a well-formed routine is walked
    over: they are all different, and each but the body has its parent among those reached. -/
structure Walking (r : Routine) (reached stack : List NodeId) : Prop where
  nodup : (reached ++ stack).Nodup
  below : ∀ id ∈ reached ++ stack, r.FromBody id
  parent : ∀ id ∈ reached ++ stack, id = r.body ∨ ∃ p ∈ reached, r.parent? id = some p

namespace WellFormed

variable (W : r.WellFormed)
include W

theorem checked (hid : r.FromBody id) : r.Checked id :=
  ⟨(W.live id hid).2, fun c hc => ⟨W.back id c hid hc, Bool.eq_iff_iff.mpr (W.place id c hid hc)⟩⟩

theorem nodup_children (hid : r.FromBody id) : (r.children id).Nodup := by
  rw [List.nodup_iff_getElem?_ne_getElem?]
  intro i j hij hj heq
  have hget : (r.children id)[j]? = some (r.children id)[j] := List.getElem?_eq_getElem hj
  have hmem : (r.children id)[j] ∈ r.children id := List.getElem_mem hj
  have hne : (r.children id)[j] ≠ r.body := fun he => W.top id hid (he ▸ hmem)
  have hslot : (id, i) = (id, j) :=
    (W.once _ (.child hid hmem) hne).unique ⟨hid, heq.trans hget⟩ ⟨hid, hget⟩
  have hidx : i = j := congrArg Prod.snd hslot
  omega

/-- The children of a node on top of the stack are new. -/
theorem walking_step {reached rest : List NodeId} (h : Walking r reached (id :: rest)) :
    Walking r (id :: reached) ((r.children id).reverse ++ rest) := by
  have hid : r.FromBody id := h.below id (List.mem_append_right _ List.mem_cons_self)
  have hold : ((id :: reached) ++ rest).Nodup := List.perm_middle.nodup_iff.mp h.nodup
  have hmem : ∀ x, x ∈ (id :: reached) ++ rest ↔ x ∈ reached ++ id :: rest :=
    fun x => List.perm_middle.symm.mem_iff
  have hnew : ∀ x ∈ (id :: reached) ++ rest, x ∉ r.children id := by
    intro x hx hc
    rcases h.parent x ((hmem x).mp hx) with rfl | ⟨p, hp, hpx⟩
    · exact W.top id hid hc
    · -- its parent is the node itself, which was not reached before
      rw [W.back id x hid hc, Option.some.injEq] at hpx
      subst hpx
      exact (List.nodup_cons.mp (hold.sublist (List.sublist_append_left _ _))).1 hp
  have hperm : ((id :: reached) ++ ((r.children id).reverse ++ rest)).Perm
      (((id :: reached) ++ rest) ++ r.children id) := by
    rw [List.append_assoc]
    exact (((List.reverse_perm _).append_right rest).trans List.perm_append_comm).append_left _
  refine ⟨hperm.nodup_iff.mpr (List.nodup_append'.mpr ⟨hold, W.nodup_children hid, hnew⟩),
    fun x hx => ?_, fun x hx => ?_⟩
  · rcases List.mem_append.mp (hperm.mem_iff.mp hx) with hx | hx
    · exact h.below x ((hmem x).mp hx)
    · exact .child hid hx
  · rcases List.mem_append.mp (hperm.mem_iff.mp hx) with hx | hx
    · rcases h.parent x ((hmem x).mp hx) with hbody | ⟨p, hp, hpx⟩
      · exact .inl hbody
      · exact .inr ⟨p, List.mem_cons_of_mem _ hp, hpx⟩
    · exact .inr ⟨id, List.mem_cons_self, W.back id x hid hx⟩

theorem exists_reach {steps : Nat} {reached stack : List NodeId} (h : Walking r reached stack)
    (hsteps : r.nodes.size ≤ steps + reached.length) :
    ∃ out, r.reach steps reached stack = .ok out := by
  induction steps generalizing reached stack with
  | zero =>
    cases stack with
    | nil => exact ⟨reached, rfl⟩
    | cons id rest =>
      -- there are more nodes than slots
      have hsub : reached ++ id :: rest ⊆ r.slots := by
        intro x hx
        obtain ⟨n, hn⟩ := isAlive_iff.mp (W.live x (h.below x hx)).1
        exact mem_slots_of_node? hn
      have hle := h.nodup.length_le_of_subset hsub
      simp only [slots, List.length_append, List.length_cons, List.length_map,
        List.length_range] at hle
      omega
  | succ steps ih =>
    cases stack with
    | nil => exact ⟨reached, rfl⟩
    | cons id rest =>
      have hid : r.FromBody id := h.below id (List.mem_append_right _ List.mem_cons_self)
      have hnot : ¬ reached.contains id = true := by
        rw [List.contains_iff_mem]
        exact fun hmem => (List.nodup_append'.mp h.nodup).2.2 hmem List.mem_cons_self
      obtain ⟨out, hout⟩ := ih (W.walking_step h) (by rw [List.length_cons]; omega)
      refine ⟨out, ?_⟩
      rw [reach, refuse_bind_eq_ok, bind_eq_ok]
      exact ⟨hnot, _, checkReached_eq_ok.mpr ⟨W.checked hid, rfl⟩, hout⟩

end WellFormed

/-! ## The bound of the walk -/

/-- With as many steps as there are slots, one more step makes no difference: a handle that is
    left over then was reached before. -/
theorem reach_succ {steps : Nat} {reached stack : List NodeId}
    (hreached : reached.Nodup) (hlive : ∀ id ∈ reached, r.isAlive id = true)
    (hstack : ∀ id ∈ stack, r.isAlive id = true) (hsteps : r.nodes.size ≤ steps + reached.length) :
    r.reach (steps + 1) reached stack = r.reach steps reached stack := by
  induction steps generalizing reached stack with
  | zero =>
    cases stack with
    | nil => rfl
    | cons id rest =>
      have hall : id ∈ reached := by
        by_contra hnot
        have hsub : id :: reached ⊆ r.slots := by
          intro x hx
          have hx' : r.isAlive x = true := by
            rcases List.mem_cons.mp hx with rfl | hx
            · exact hstack x List.mem_cons_self
            · exact hlive x hx
          obtain ⟨n, hn⟩ := isAlive_iff.mp hx'
          exact mem_slots_of_node? hn
        have hle := (List.nodup_cons.mpr ⟨hnot, hreached⟩).length_le_of_subset hsub
        simp only [slots, List.length_cons, List.length_map, List.length_range] at hle
        omega
      show (if reached.contains id then _ else _) = _
      rw [if_pos (List.contains_iff_mem.mpr hall)]
      rfl
  | succ steps ih =>
    cases stack with
    | nil => rfl
    | cons id rest =>
      rw [reach, reach]
      by_cases hmem : reached.contains id = true
      · simp only [if_pos hmem]
        rfl
      · simp only [if_neg hmem]
        cases hcheck : r.checkReached id with
        | error flaw => rfl
        | ok cs =>
          obtain ⟨hchecked, rfl⟩ := checkReached_eq_ok.mp hcheck
          refine ih (List.nodup_cons.mpr ⟨fun h => hmem (List.contains_iff_mem.mpr h), hreached⟩)
            ?_ ?_ (by rw [List.length_cons]; omega)
          · intro x hx
            rcases List.mem_cons.mp hx with rfl | hx
            · exact hchecked.alive
            · exact hlive x hx
          · intro x hx
            rcases List.mem_append.mp hx with hx | hx
            · obtain ⟨m, hm, _⟩ := exists_node?_of_parent? (hchecked.2 x (List.mem_reverse.mp hx)).1
              exact isAlive_of_node? hm
            · exact hstack x (List.mem_cons_of_mem _ hx)

/-- The check gives the same answer under all bounds from the size of the arena on. -/
theorem validateWithin_eq {steps : Nat} (hsteps : r.nodes.size ≤ steps) :
    r.validateWithin steps = r.validate := by
  cases hbody : r.checkBody with
  | error flaw => simp [validateWithin, validate, hbody, bind, Except.bind]
  | ok _ =>
    obtain ⟨n, hn, _⟩ := checkBody_eq_ok.mp hbody
    have hreach : r.reach steps [] [r.body] = r.reach r.nodes.size [] [r.body] := by
      induction hsteps with
      | refl => rfl
      | @step steps hle ih =>
        rw [← ih, reach_succ List.nodup_nil (fun _ h => absurd h List.not_mem_nil)
          (fun id hid => List.mem_singleton.mp hid ▸ isAlive_of_node? hn) hle]
    rw [validateWithin, validate, hreach]

/-! ## The check as a whole -/

theorem checkMarks_eq_ok {out : List NodeId} : r.checkMarks out = .ok () ↔
    ∀ id, r.isConnected id = true → id ∈ out := by
  unfold checkMarks
  split
  · next id hid =>
    have h := List.find?_some hid
    rw [Bool.and_eq_true, Bool.not_eq_true', ← Bool.not_eq_true, List.contains_iff_mem] at h
    exact iff_of_false (fun he => nomatch he) fun hall => h.2 (hall id h.1)
  · next hnone =>
    refine iff_of_true rfl fun id hid => ?_
    obtain ⟨n, hn, _⟩ := exists_node?_of_isConnected hid
    have h := List.find?_eq_none.mp hnone id (mem_slots_of_node? hn)
    rw [hid, Bool.true_and, Bool.not_eq_true', Bool.not_eq_false] at h
    exact List.contains_iff_mem.mp h

/-- The use-lists are checked against the nodes that were reached. -/
theorem checkAllUses_eq_ok {out : List NodeId} (hnd : out.Nodup)
    (hout : ∀ id, id ∈ out ↔ r.FromBody id) (hconn : ∀ id, id ∈ out ↔ r.isConnected id = true) :
    (r.vars.toList.forM fun v => UseKind.all.forM (r.checkUses out v)) = .ok () ↔
      ∀ v ∈ r.vars, ∀ kind, (v.uses kind).Nodup ∧
        ∀ id, id ∈ v.uses kind ↔ r.FromBody id ∧ (r.op? id).bind Op.use? = some (kind, v.id) := by
  have huse : ∀ id u, r.use? id = some u ↔ r.FromBody id ∧ (r.op? id).bind Op.use? = some u := by
    intro id u
    rw [← hout, hconn]
    constructor
    · intro hu
      obtain ⟨n, hn, hc, hu⟩ := use?_eq_some hu
      exact ⟨isConnected_iff.mpr ⟨n, hn, hc⟩, by rw [op?_of_node? hn]; exact hu⟩
    · rintro ⟨hc, hu⟩
      obtain ⟨n, hn, hc⟩ := exists_node?_of_isConnected hc
      rw [op?_of_node? hn] at hu
      rw [use?_of_node? hn, if_pos hc]
      exact hu
  have hkind : ∀ kind, kind ∈ UseKind.all := fun kind => by cases kind <;> decide
  simp only [forM_eq_ok, checkUses_ok hnd hconn, huse, hkind, forall_true_left,
    Array.mem_toList_iff]

/-- The check of a routine passes exactly if the routine is well-formed, whatever its arena is
    like, and comes to its answer in as many steps as the arena has slots: no larger bound
    changes it. -/
theorem validate_ok_iff_wellFormed (r : Routine) :
    (r.validate = .ok () ↔ r.WellFormed) ∧
      ∀ steps, r.nodes.size ≤ steps → r.validateWithin steps = r.validate := by
  refine ⟨?_, fun steps hsteps => validateWithin_eq hsteps⟩
  simp only [validate, bind_eq_ok]
  constructor
  · rintro ⟨_, hbody, out, hreach, _, hmarks, huses⟩
    obtain ⟨hnd, hout, hchecked, hchildren, htop⟩ := reach_body_eq_ok hreach
    have hconn : ∀ id, id ∈ out ↔ r.isConnected id = true := fun id =>
      ⟨fun hid => (hchecked id ((hout id).mp hid)).1, checkMarks_eq_ok.mp hmarks id⟩
    exact {
      root := checkBody_eq_ok.mp hbody
      live := fun id hid => ⟨(hchecked id hid).alive, (hchecked id hid).1⟩
      top := htop
      once := by
        intro id hid hne
        have hslot : ∃ p, r.FromBody p ∧ id ∈ r.children p := by
          cases hid with
          | body => exact absurd rfl hne
          | child hp hc => exact ⟨_, hp, hc⟩
        obtain ⟨p, hp, hc⟩ := hslot
        obtain ⟨i, hi⟩ := List.mem_iff_getElem?.mp hc
        refine ⟨(p, i), ⟨hp, hi⟩, ?_⟩
        rintro ⟨q, j⟩ ⟨hq : r.FromBody q, hj : (r.children q)[j]? = some id⟩
        have hback := ((hchecked q hq).2 id (List.mem_of_getElem? hj)).1
        rw [((hchecked p hp).2 id hc).1, Option.some.injEq] at hback
        subst hback
        obtain ⟨hlt, _⟩ := List.getElem?_eq_some_iff.mp hj
        rw [(List.getElem?_inj hlt (hchildren p hp)).mp (hj.trans hi.symm)]
      back := fun p c hp hc => ((hchecked p hp).2 c hc).1
      place := fun p c hp hc => Bool.eq_iff_iff.mp ((hchecked p hp).2 c hc).2
      marks := fun id _ hid => (hout id).mp ((hconn id).mpr hid)
      uses := (checkAllUses_eq_ok hnd hout hconn).mp huses }
  · intro W
    have hstart : Walking r [] [r.body] := by
      refine ⟨List.nodup_singleton _, fun id hid => ?_, fun id hid => ?_⟩
      · exact List.mem_singleton.mp hid ▸ .body
      · exact .inl (List.mem_singleton.mp hid)
    obtain ⟨out, hreach⟩ := W.exists_reach hstart (Nat.le_refl r.nodes.size)
    obtain ⟨hnd, hout, _⟩ := reach_body_eq_ok hreach
    have hconn : ∀ id, id ∈ out ↔ r.isConnected id = true := by
      refine fun id => ⟨fun hid => (W.live id ((hout id).mp hid)).2, fun hid => (hout id).mpr ?_⟩
      obtain ⟨n, hn, _⟩ := exists_node?_of_isConnected hid
      exact W.marks id (isAlive_of_node? hn) hid
    exact ⟨(), checkBody_eq_ok.mpr W.root, out, hreach, (),
      checkMarks_eq_ok.mpr fun id => (hconn id).mpr,
      (checkAllUses_eq_ok hnd hout hconn).mpr W.uses⟩

end CilFold.Routine
