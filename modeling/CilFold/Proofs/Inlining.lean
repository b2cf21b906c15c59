/-
  The single-use inliner on a valid routine. It is not refused, and what it does is a number of
  moves, one for each definition that it consumes (`Moves`). What a sequence of moves leaves of
  a routine is then shown by induction over it.
-/
import CilFold.Proofs.Report
import CilFold.Proofs.Shapes

namespace CilFold

namespace Routine

variable {r s : Routine} {block d id inst k load p target value : NodeId} {index count : Nat}

/-! ## Loads -/

/-- The use-lists of a declared variable have the nodes of the tree that use it. -/
theorem Valid.mem_uses (V : r.Valid) {v : VarId} {x : Variable} (hx : r.var? v = some x)
    (kind : UseKind) (op : Op) (huse : ∀ o : Op, o.use? = some (kind, v) ↔ o = op) :
    k ∈ x.uses kind ↔ r.op? k = some op ∧ r.isConnected k = true := by
  rw [(V.uses v x hx kind).2 k]
  constructor
  · intro hu
    obtain ⟨n, hn, hc, hu⟩ := use?_eq_some hu
    exact ⟨(op?_of_node? hn).trans (congrArg some ((huse _).mp hu)),
      isConnected_iff.mpr ⟨n, hn, hc⟩⟩
  · rintro ⟨hop, hc⟩
    obtain ⟨n, hn, hconn⟩ := isConnected_iff.mp hc
    rw [op?_of_node? hn] at hop
    rw [use?_of_node? hn, if_pos hconn]
    exact (huse _).mpr (Option.some.inj hop)

theorem Valid.mem_stores_iff (V : r.Valid) {v : VarId} {x : Variable} (hx : r.var? v = some x) :
    k ∈ x.stores ↔ r.op? k = some (.stloc v) ∧ r.isConnected k = true :=
  V.mem_uses hx .store (.stloc v) fun o => by cases o <;> simp [Op.use?]

/-- A definition can be folded exactly if its variable has this one load and one store, may be
    folded under the options, and is loaded in a place that the value can be evaluated at. -/
theorem foldable?_eq_some {options : InlineOptions} :
    r.foldable? target options d = some (value, load) ↔
      ∃ v x store, r.stloc? d = some (v, value) ∧ r.var? v = some x ∧ x.stores = [store] ∧
        x.loads = [load] ∧ x.addresses = [] ∧
        (x.kind == .stackSlot || options.isAggressive) = true ∧
        r.evaluatedFirst target load = true := by
  simp only [foldable?, Option.bind_eq_bind, Option.bind_eq_some_iff]
  constructor
  · intro ⟨⟨v, val⟩, hst, x, hx, h⟩
    split at h
    · next store l hs hl ha =>
      split_ifs at h with hc
      cases h
      rw [Bool.and_eq_true] at hc
      exact ⟨v, x, store, hst, hx, hs, hl, ha, hc.1, hc.2⟩
    · cases h
  · intro ⟨v, x, store, hst, hx, hs, hl, ha, hkind, hfirst⟩
    refine ⟨(v, value), hst, x, hx, ?_⟩
    simp only [hs, hl, ha, hkind, hfirst, Bool.and_self, if_true]

/-- A variable with one store on its list is stored by one node of the tree. -/
theorem Valid.eq_of_stores (V : r.Valid) {v : VarId} {x : Variable} (hx : r.var? v = some x)
    (hone : x.stores.length = 1) {j : NodeId} (hj : r.op? j = some (.stloc v))
    (hjc : r.isConnected j = true) (hk : r.op? k = some (.stloc v)) (hkc : r.isConnected k = true) :
    j = k := by
  obtain ⟨only, honly⟩ := List.length_eq_one_iff.mp hone
  have hlisted : ∀ i, r.op? i = some (.stloc v) → r.isConnected i = true → i = only := by
    intro i hi hic
    have hmem := (V.mem_stores_iff hx).mpr ⟨hi, hic⟩
    rw [honly] at hmem
    exact List.mem_singleton.mp hmem
  exact (hlisted j hj hjc).trans (hlisted k hk hkc).symm

/-- A variable with one store whose address is not taken is used by its loads and that store. -/
theorem Valid.use_cases (V : r.Valid) {v : VarId} {x : Variable} {kind : UseKind}
    (hx : r.var? v = some x) (hstores : x.stores.length = 1) (haddresses : x.addresses = [])
    (hinst : r.use? inst = some (.store, v)) (huse : r.use? k = some (kind, v)) :
    kind = .load ∨ k = inst := by
  have hmem := ((V.uses v x hx kind).2 k).mpr huse
  cases kind with
  | load => exact .inl rfl
  | store =>
    have hmem : k ∈ x.stores := hmem
    have hmem' : inst ∈ x.stores := ((V.uses v x hx .store).2 inst).mpr hinst
    obtain ⟨only, honly⟩ := List.length_eq_one_iff.mp hstores
    rw [honly, List.mem_singleton] at hmem hmem'
    exact .inr (hmem.trans hmem'.symm)
  | address =>
    have hmem : k ∈ x.addresses := hmem
    rw [haddresses] at hmem
    cases hmem

theorem Valid.mem_addresses_iff (V : r.Valid) {v : VarId} {x : Variable}
    (hx : r.var? v = some x) :
    k ∈ x.addresses ↔ r.op? k = some (.ldloca v) ∧ r.isConnected k = true :=
  V.mem_uses hx .address (.ldloca v) fun o => by cases o <;> simp [Op.use?]

theorem Valid.mem_loads_iff (V : r.Valid) {v : VarId} {x : Variable} (hx : r.var? v = some x) :
    k ∈ x.loads ↔ r.op? k = some (.ldloc v) ∧ r.isConnected k = true :=
  V.mem_uses hx .load (.ldloc v) fun o => by cases o <;> simp [Op.use?]

/-- A load on the use-list of a variable is a connected `ldloc` with a parent. -/
theorem Valid.load_spec (V : r.Valid) {v : VarId} {x : Variable} (hx : r.var? v = some x)
    (hl : load ∈ x.loads) :
    r.op? load = some (.ldloc v) ∧ r.isConnected load = true ∧ ∃ p, r.parent? load = some p := by
  obtain ⟨hop, hconn⟩ := (V.mem_loads_iff hx).mp hl
  exact ⟨hop, hconn, V.forest.exists_parent hconn (isContainer_of_op? hop)⟩

theorem Valid.nodup_loads (V : r.Valid) (v : VarId) : (r.loads v).Nodup := by
  unfold loads
  split
  · next x hx => exact (V.uses v x hx .load).1
  · exact List.nodup_nil

theorem Valid.op?_of_mem_loads (V : r.Valid) {v : VarId} (hl : load ∈ r.loads v) :
    r.op? load = some (.ldloc v) ∧ r.isConnected load = true := by
  unfold loads at hl
  split at hl
  · next x hx =>
    obtain ⟨hop, hc, _⟩ := V.load_spec hx hl
    exact ⟨hop, hc⟩
  · cases hl

theorem Valid.mem_loads (V : r.Valid) {v : VarId} {x : Variable} (hx : r.var? v = some x)
    (hop : r.op? load = some (.ldloc v)) (hc : r.isConnected load = true) : load ∈ r.loads v := by
  rw [loads, hx]
  exact (V.mem_loads_iff hx).mpr ⟨hop, hc⟩

theorem Valid.movable_of_foldable (V : r.Valid) (hblock : r.isBlock block = true)
    (hconn : r.isConnected block = true) (hd : (r.children block)[index]? = some d)
    (htarget : r.isAlive target = true → (r.children block)[index + 1]? = some target)
    {options : InlineOptions} (h : r.foldable? target options d = some (value, load)) :
    ∃ p, r.Movable block target index d value load p := by
  obtain ⟨v, x, store, hst, hx, hs, hl, ha, _, hfirst⟩ := foldable?_eq_some.mp h
  obtain ⟨hop, hchildren⟩ := stloc?_eq_some.mp hst
  obtain ⟨hload, _, p, hp⟩ := V.load_spec hx (hl ▸ List.mem_singleton_self load)
  have hdc := (V.forest.shared (V.forest.parent?_of_mem (List.mem_of_getElem? hd))).trans hconn
  have honly : ∀ u k, r.op? d = some (.stloc u) → r.op? k = some (.stloc u) →
      r.isConnected k = true → k = d := by
    intro u k hd' hk hkc
    cases hop.symm.trans hd'
    exact V.eq_of_stores hx (by rw [hs]; rfl) hk hkc hop hdc
  have hstores : x.stores = [d] := by
    have hmem := (V.mem_stores_iff hx).mpr ⟨hop, hdc⟩
    rw [hs, List.mem_singleton] at hmem
    rw [hs, hmem]
  exact ⟨p, hblock, hconn, hd, ⟨v, hop⟩, honly, hchildren, ⟨v, hload⟩, hp,
    inside_of_evaluatedFirst hfirst, hfirst, ⟨v, x, hop, hload, hx, hstores, hl, ha⟩, htarget⟩

/-! ## Sequences of moves -/

/-- A number of moves out of the definitions in front of an index of a block, the last one
    first. -/
inductive Moves (block target : NodeId) : Nat → Nat → Routine → Routine → Prop where
  | done {r : Routine} {index : Nat} : Moves block target index 0 r r
  | step {r s : Routine} {d value load p : NodeId} {index count : Nat} :
      r.Movable block target index d value load p →
      Moves block target index count (r.move block index d value load p) s →
      Moves block target (index + 1) (count + 1) r s

namespace Movable

variable (M : r.Movable block target index d value load p) (F : r.Forest)
include M F

theorem alive_move (hk : (r.move block index d value load p).isAlive k = true) :
    r.isAlive k = true ∧ k ≠ d ∧ k ≠ load := by
  obtain ⟨n, hn⟩ := isAlive_iff.mp hk
  rw [M.node?_move F k] at hn
  by_cases h : k = d ∨ k = load
  · rw [if_pos h] at hn
    cases hn
  · rw [if_neg h] at hn
    obtain ⟨m, hm, _⟩ := Option.map_eq_some_iff.mp hn
    exact ⟨isAlive_of_node? hm, fun hkd => h (.inl hkd), fun hkl => h (.inr hkl)⟩

theorem block_stays : ¬ (block = d ∨ block = load) := by
  rintro (h | h)
  · exact F.ne_parent (M.parent_definition F) h.symm
  · exact M.block_ne_load h

theorem isBlock_move : (r.move block index d value load p).isBlock block = true := by
  rw [isBlock_congr ((M.views_move F block).op.trans (if_neg (M.block_stays F)))]
  exact M.isBlock

theorem connected_move : (r.move block index d value load p).isConnected block = true := by
  rw [(M.views_move F block).connected, if_neg (M.block_stays F)]
  exact M.connected

/-- The instructions after a move: the definition is gone, and where the instruction behind it
    was the load, the value stands there. -/
theorem children_move : ∃ head, (r.move block index d value load p).children block =
    (r.children block).take index ++ head :: (r.children block).drop (index + 2) ∧
    (head = target ∨ (head = value ∧ load = target)) := by
  have hnext := M.target_eq F
  obtain ⟨hlt, htarget⟩ := List.getElem?_eq_some_iff.mp hnext
  have hsplit : ∀ l : List NodeId, (hl : index + 1 < l.length) →
      l.eraseIdx index = l.take index ++ l[index + 1] :: l.drop (index + 2) := by
    intro l hl
    rw [List.eraseIdx_eq_take_drop_succ, List.drop_eq_getElem_cons hl]
  rw [(M.views_move F block).children, if_neg (M.block_stays F), if_pos rfl]
  rcases M.slot_cases F with ⟨rfl, hlt'⟩ | ⟨_, hb, _⟩
  · refine ⟨value, ?_, .inr ⟨rfl, hlt'⟩⟩
    rw [if_pos rfl, hlt', replace_eq_set (F.children_nodup p) hnext,
      hsplit _ (by rw [List.length_set]; exact hlt), List.getElem_set_self,
      List.take_set_of_le (Nat.le_succ index), List.drop_set_of_lt (Nat.lt_succ_self _)]
  · have hpb : block ≠ p := by
      rintro rfl
      rw [M.isBlock] at hb
      cases hb
    rw [if_neg hpb, hsplit _ hlt, htarget]
    exact ⟨target, rfl, .inl rfl⟩

/-- What stands where the definition stood. -/
theorem getElem?_move : ∃ head,
    ((r.move block index d value load p).children block)[index]? = some head ∧
    (head = target ∨ (head = value ∧ load = target)) := by
  obtain ⟨head, hchildren, hhead⟩ := M.children_move F
  obtain ⟨hlt, _⟩ := List.getElem?_eq_some_iff.mp (M.target_eq F)
  have hlen : ((r.children block).take index).length = index := by
    rw [List.length_take]
    omega
  refine ⟨head, ?_, hhead⟩
  rw [hchildren, List.getElem?_append_right (Nat.le_of_eq hlen), hlen, Nat.sub_self,
    List.getElem?_cons_zero]

theorem length_move : ((r.move block index d value load p).children block).length + 1 =
    (r.children block).length := by
  obtain ⟨head, hchildren, _⟩ := M.children_move F
  obtain ⟨hlt, _⟩ := List.getElem?_eq_some_iff.mp (M.target_eq F)
  rw [hchildren, List.length_append, List.length_take, List.length_cons, List.length_drop]
  omega

/-- The target, if it is still there, has moved up to the index of the definition. -/
theorem target_move (h : (r.move block index d value load p).isAlive target = true) :
    ((r.move block index d value load p).children block)[index]? = some target := by
  obtain ⟨head, hget, hhead⟩ := M.getElem?_move F
  rcases hhead with rfl | ⟨_, rfl⟩
  · exact hget
  · exact absurd rfl (M.alive_move F h).2.2

theorem kept_move : Kept r (r.move block index d value load p) := by
  have v := M.views_move F
  have hstays : ∀ {k}, (r.move block index d value load p).isAlive k = true →
      ¬ (k = d ∨ k = load) := fun hk h => h.elim (M.alive_move F hk).2.1 (M.alive_move F hk).2.2
  refine ⟨?_, fun k _ hs => (M.alive_move F hs).1, fun k _ hs => ?_, fun k hr hs => ?_,
    fun k q hp hq hs => ?_⟩
  · rw [move, size_deleteAt, size_putInSlot, size_detach]
    exact Nat.le_succ _
  · rw [(v k).op, if_neg (hstays hs)]
  · rw [(v k).connected, if_neg (hstays hs)]
    exact hr
  · -- the value that moves hangs in a definition, not in a block
    have hkv : k ≠ value := by
      rintro rfl
      cases Option.some.inj ((M.parent_value F).symm.trans hp)
      rw [M.not_block_definition] at hq
      cases hq
    have hqs : ¬ (q = d ∨ q = load) := by
      rintro (rfl | rfl)
      · rw [M.not_block_definition] at hq
        cases hq
      · obtain ⟨v, hv⟩ := M.loads
        rw [Routine.isBlock, hv] at hq
        cases hq
    rw [(v k).parent, if_neg (hstays hs), if_neg hkv, isBlock_congr ((v q).op.trans (if_neg hqs))]
    exact ⟨hp, hq⟩

/-- A move touches the instructions of no other block. -/
theorem children_move_of_ne {b : NodeId} (hb : r.isBlock b = true) (hne : b ≠ block)
    (hs : (r.move block index d value load p).isAlive b = true) :
    (r.move block index d value load p).children b = r.children b := by
  have hstays : ¬ (b = d ∨ b = load) := fun h =>
    h.elim (M.alive_move F hs).2.1 (M.alive_move F hs).2.2
  have hbp : b ≠ p := by
    rintro rfl
    rcases M.slot_cases F with ⟨h, _⟩ | ⟨_, h, _⟩
    · exact hne h
    · rw [hb] at h
      cases h
  rw [(M.views_move F b).children, if_neg hstays, if_neg hne, if_neg hbp]

end Movable

namespace Moves

variable (V : r.Valid)
include V

theorem valid (h : Moves block target index count r s) : s.Valid := by
  induction h with
  | done => exact V
  | step M _ ih => exact ih (M.valid_move V)

theorem kept (h : Moves block target index count r s) : Kept r s := by
  induction h with
  | done => exact Kept.refl _
  | step M _ ih => exact (M.kept_move V.forest).trans (ih (M.valid_move V))

omit V in
theorem sameHead (h : Moves block target index count r s) : SameHead r s := by
  induction h with
  | done => exact SameHead.refl _
  | step _ _ ih => exact (Movable.sameHead_move _ _ _ _ _ _ _).trans ih

omit V in
theorem le (h : Moves block target index count r s) : count ≤ index := by
  induction h with
  | done => exact Nat.zero_le _
  | step _ _ ih => exact Nat.succ_le_succ ih

/-- The block that the moves take place in stays. -/
theorem isBlock (h : Moves block target index count r s) (hb : r.isBlock block = true)
    (hc : r.isConnected block = true) : s.isBlock block = true ∧ s.isConnected block = true := by
  induction h with
  | done => exact ⟨hb, hc⟩
  | step M _ ih =>
    exact ih (M.valid_move V) (M.isBlock_move V.forest) (M.connected_move V.forest)

theorem children_of_ne {b : NodeId} (h : Moves block target index count r s)
    (hb : r.isBlock b = true) (hne : b ≠ block) (hs : s.isAlive b = true) :
    s.children b = r.children b := by
  induction h with
  | done => rfl
  | step M hrest ih =>
    have V' := M.valid_move V
    have hkept := M.kept_move V.forest
    have halive := isAlive_of_isBlock hb
    have hmid := (hrest.kept V').alive b
      (Nat.lt_of_lt_of_le (index_lt_of_isAlive halive) hkept.size) hs
    rw [ih V' ((isBlock_congr (hkept.op b halive hmid)).trans hb) hs]
    exact M.children_move_of_ne V.forest hb hne hmid

/-- The definitions in front of the index are gone, as many as there were moves; what stood
    behind the index still does. -/
theorem children (h : Moves block target index count r s)
    (hlen : index ≤ (r.children block).length) :
    ∃ tail, s.children block = (r.children block).take (index - count) ++ tail ∧
      tail.length = (r.children block).length - index ∧
      tail.drop 1 = (r.children block).drop (index + 1) := by
  induction h with
  | @done r index =>
    refine ⟨(r.children block).drop index, ?_, List.length_drop, ?_⟩
    · rw [Nat.sub_zero, List.take_append_drop]
    · rw [List.drop_drop]
  | @step r s d value load p index count M _ ih =>
    obtain ⟨head, hchildren, _⟩ := M.children_move V.forest
    obtain ⟨hlt, _⟩ := List.getElem?_eq_some_iff.mp (M.target_eq V.forest)
    have hmove := M.length_move V.forest
    obtain ⟨tail, hs, hlength, hdrop⟩ := ih (M.valid_move V) (by omega)
    refine ⟨tail, ?_, by omega, ?_⟩
    · rw [hs, hchildren, List.take_append_of_le_length, List.take_take, Nat.add_sub_add_right,
        Nat.min_eq_left (Nat.sub_le _ _)]
      rw [List.length_take]
      omega
    · rw [hdrop, hchildren]
      have hsplit : ((r.children block).take index).length = index := by
        rw [List.length_take]
        omega
      rw [List.drop_append, hsplit, List.drop_eq_nil_of_le (by omega), List.nil_append,
        Nat.add_sub_cancel_left, List.drop_succ_cons, List.drop_zero]

end Moves

end Routine

namespace Inliner

open Routine PassM

variable {w : Work} {r : Routine} {block target : NodeId} {index : Nat} {options : InlineOptions}

/-- The three edits of a move are not refused. -/
theorem move_ends {d value load p : NodeId} (V : r.Valid)
    (M : r.Movable block target index d value load p) {f : NodeId → PassM Nat}
    {Q : Nat → Work → Prop} (h : Ends (f value) (w.on (r.move block index d value load p)) Q) :
    Ends (do
      let value ← PassM.edit (Edit.extract value)
      PassM.edit (Edit.replace load value)
      PassM.edit (Edit.remove block index)
      f value) (w.on r) Q := by
  have F := V.forest
  have F₁ := F.detach (M.parent_value F)
  have hextract := Edit.extract_ok F (M.parent_value F) M.not_block_definition
    M.not_container_definition
  have hreplace := Edit.replace_ok F₁ (M.parent_load_detach F) (M.detached_value F)
    (M.not_above_load_detach F) (M.role_value V)
  have hremove := Edit.remove_ok (M.isBlock_putInSlot_detach F) (M.getElem?_putInSlot_detach F)
  exact Ends.bind (Ends.edit hextract (Ends.bind (Ends.edit hreplace
    (Ends.bind (Ends.edit hremove h)))))

/-- Folding definitions into a target is a sequence of moves. -/
theorem foldInto_ends (V : r.Valid) (hblock : r.isBlock block = true)
    (hconn : r.isConnected block = true) (hlen : index ≤ (r.children block).length)
    (htarget : r.isAlive target = true → (r.children block)[index]? = some target) :
    Ends (foldInto block target options index) (w.on r) fun count w' =>
      Moves block target index count r w'.routine ∧ Logged (w.on r) w' := by
  induction index generalizing w r with
  | zero => exact Ends.pure ⟨.done, Logged.refl _⟩
  | succ index ih =>
    obtain ⟨d, hd⟩ : ∃ d, (r.children block)[index]? = some d :=
      ⟨_, List.getElem?_eq_getElem hlen⟩
    have hinst : (r.instructions block)[index]? = some d := by
      rw [instructions, if_pos hblock, hd]
    rw [foldInto]
    refine Ends.bind (Ends.instruction hinst (Ends.bind (Ends.routine ?_)))
    cases hf : r.foldable? target options d with
    | none => exact Ends.pure ⟨.done, Logged.refl _⟩
    | some pair =>
      obtain ⟨value, load⟩ := pair
      obtain ⟨p, M⟩ := V.movable_of_foldable hblock hconn hd htarget hf
      have F := V.forest
      refine move_ends V M (Ends.bind (Ends.noteNode fun e hkind hmethod => ?_))
      have hlen' : index ≤ ((r.move block index d value load p).children block).length := by
        have h := M.length_move F
        omega
      refine (ih (M.valid_move V) (M.isBlock_move F) (M.connected_move F) hlen'
        (M.target_move F)).andThen ?_
      rintro count w' s ⟨hmoves, hlog⟩
      refine Ends.pure ⟨.step M hmoves, Logged.trans (Logged.single hkind ?_ (.inlined M)) hlog⟩
      rw [← (Movable.sameHead_move r block index d value load p).token]
      exact hmethod

theorem singleUse_ends (V : r.Valid) (hblock : r.isBlock block = true)
    (hconn : r.isConnected block = true) :
    Ends (singleUse block index options) (w.on r) fun count w' =>
      (∃ target, Moves block target index count r w'.routine) ∧ Logged (w.on r) w' := by
  refine Ends.bind (Ends.routine ?_)
  have hinst : r.instructions block = r.children block := if_pos hblock
  cases ht : (r.instructions block)[index]? with
  | none => exact Ends.pure ⟨⟨block, .done⟩, Logged.refl _⟩
  | some target =>
    rw [hinst] at ht
    obtain ⟨hlt, _⟩ := List.getElem?_eq_some_iff.mp ht
    exact (foldInto_ends V hblock hconn (Nat.le_of_lt hlt) fun _ => ht).mono
      fun count w' s h => ⟨⟨target, h.1⟩, h.2⟩

end Inliner

/-! ## Removing an instruction -/

namespace Routine

variable {r s : Routine} {block inst : NodeId} {index count : Nat}

/-- What a removal leaves after which the inliner consumed some definitions. -/
def Vacated (block : NodeId) (index : Nat) (inst : NodeId) (count : Nat) (r s : Routine) : Prop :=
  ∃ target, Moves block target index count (r.deleteAt block index inst) s

theorem getElem?_instructions (hi : (r.instructions block)[index]? = some inst) :
    r.isBlock block = true ∧ (r.children block)[index]? = some inst := by
  unfold instructions at hi
  split_ifs at hi with hb
  · exact ⟨hb, hi⟩
  · cases hi

theorem Valid.views_block_deleteAt (V : r.Valid)
    (hi : (r.children block)[index]? = some inst) :
    Views (r.deleteAt block index inst) block (r.op? block) ((r.children block).eraseIdx index)
      (r.parent? block) (r.isConnected block) := by
  have F := V.forest
  have hpi : r.parent? inst = some block := F.parent?_of_mem (List.mem_of_getElem? hi)
  have hne : ¬ r.encloses inst block = true := by
    rw [F.encloses_iff]
    exact F.not_above_parent hpi
  have v := views_deleteAt F hpi index block
  simp only [if_neg hne, if_true] at v
  exact v

namespace Vacated

variable (V : r.Valid) (hi : (r.instructions block)[index]? = some inst)
  (hc : r.isConnected block = true) (h : Vacated block index inst count r s)
include V hi

theorem valid_deleteAt : (r.deleteAt block index inst).Valid :=
  V.deleteAt (getElem?_instructions hi).1 (getElem?_instructions hi).2

theorem isBlock_deleteAt : (r.deleteAt block index inst).isBlock block = true := by
  obtain ⟨hb, hi⟩ := getElem?_instructions hi
  rw [isBlock_congr (V.views_block_deleteAt hi).op]
  exact hb

theorem connected_deleteAt (hc : r.isConnected block = true) :
    (r.deleteAt block index inst).isConnected block = true :=
  (V.views_block_deleteAt (getElem?_instructions hi).2).connected.trans hc

theorem length_deleteAt : ((r.deleteAt block index inst).children block).length + 1 =
    (r.children block).length := by
  obtain ⟨_, hi⟩ := getElem?_instructions hi
  obtain ⟨hlt, _⟩ := List.getElem?_eq_some_iff.mp hi
  rw [(V.views_block_deleteAt hi).children, List.length_eraseIdx_of_lt hlt]
  omega

include h

theorem valid : s.Valid := by
  obtain ⟨_, hmoves⟩ := h
  exact hmoves.valid (valid_deleteAt V hi)

theorem kept : Kept r s := by
  obtain ⟨_, hmoves⟩ := h
  exact (Kept.deleteAt V.forest (getElem?_instructions hi).2).trans
    (hmoves.kept (valid_deleteAt V hi))

omit V hi in
theorem sameHead : SameHead r s := by
  obtain ⟨_, hmoves⟩ := h
  exact (sameHead_deleteAt r block index inst).trans hmoves.sameHead

omit V hi in
theorem le : count ≤ index := by
  obtain ⟨_, hmoves⟩ := h
  exact hmoves.le

include hc in
theorem block_stays : s.isBlock block = true ∧ s.isConnected block = true := by
  obtain ⟨_, hmoves⟩ := h
  exact hmoves.isBlock (valid_deleteAt V hi) (isBlock_deleteAt V hi) (connected_deleteAt V hi hc)

/-- The removed instruction and the consumed definitions are missing from the block. -/
theorem children : ∃ tail,
    s.children block = (r.children block).take (index - count) ++ tail ∧
      tail.length + (index + 1) = (r.children block).length ∧
      tail.drop 1 = (r.children block).drop (index + 2) := by
  obtain ⟨_, hmoves⟩ := h
  have hlen := length_deleteAt V hi
  obtain ⟨hlt, _⟩ := List.getElem?_eq_some_iff.mp (getElem?_instructions hi).2
  obtain ⟨tail, hs, hlength, hdrop⟩ := hmoves.children (valid_deleteAt V hi) (by omega)
  have herase := (V.views_block_deleteAt (getElem?_instructions hi).2).children
  rw [List.eraseIdx_eq_take_drop_succ] at herase
  have hfront : ((r.children block).take index).length = index := by
    rw [List.length_take]
    omega
  refine ⟨tail, ?_, by omega, ?_⟩
  · rw [hs, herase, List.take_append_of_le_length (by omega), List.take_take,
      Nat.min_eq_left (Nat.sub_le _ _)]
  · rw [hdrop, herase, List.drop_append, hfront, List.drop_eq_nil_of_le (by omega),
      List.nil_append, Nat.add_sub_cancel_left, List.drop_drop]

theorem length : (s.children block).length + (count + 1) = (r.children block).length := by
  obtain ⟨tail, hs, hlength, _⟩ := children V hi h
  have hle := le h
  obtain ⟨hlt, _⟩ := List.getElem?_eq_some_iff.mp (getElem?_instructions hi).2
  rw [hs, List.length_append, List.length_take]
  omega

theorem children_of_ne {b : NodeId} (hb : r.isBlock b = true) (hne : b ≠ block)
    (hs : s.isAlive b = true) : s.children b = r.children b := by
  obtain ⟨_, hmoves⟩ := h
  have F := V.forest
  have hi' := (getElem?_instructions hi).2
  have hkept := Kept.deleteAt F hi'
  have halive := isAlive_of_isBlock hb
  have V' := valid_deleteAt V hi
  have hmid := (hmoves.kept V').alive b
    (Nat.lt_of_lt_of_le (index_lt_of_isAlive halive) hkept.size) hs
  rw [hmoves.children_of_ne V' ((isBlock_congr (hkept.op b halive hmid)).trans hb) hne hs]
  have v := views_deleteAt F (F.parent?_of_mem (List.mem_of_getElem? hi')) index b
  have hstays : ¬ r.encloses inst b = true := by
    intro he
    obtain ⟨o, ho⟩ := exists_op?_of_isAlive hmid
    rw [v.op, if_pos he] at ho
    cases ho
  rw [v.children, if_neg hstays, if_neg hne]

end Vacated

end Routine

open Routine PassM in
/-- Removing an instruction with the single-use inliner is not refused. The inliner reports what
    it does; the removal itself is for the caller to report. -/
theorem Context.vacate_ends {w : Work} {r : Routine} {block inst : NodeId} {index : Nat}
    {settings : Settings} (V : r.Valid) (hc : r.isConnected block = true)
    (hi : (r.instructions block)[index]? = some inst) :
    Ends (Context.vacate { settings, inliner := Inliner.singleUse } block index) (w.on r)
      fun count w' => Vacated block index inst count r w'.routine ∧
        Logged (w.on (r.deleteAt block index inst)) w' := by
  obtain ⟨hblock, hi'⟩ := getElem?_instructions hi
  refine Ends.bind (Ends.edit (Edit.remove_ok hblock hi') ?_)
  exact Inliner.singleUse_ends (Vacated.valid_deleteAt V hi) (Vacated.isBlock_deleteAt V hi)
    (Vacated.connected_deleteAt V hi hc)

end CilFold
