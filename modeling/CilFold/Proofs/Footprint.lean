/-
  What the passes leave alone. A reported change takes place in the tree below the body: a node
  outside of it stays as it is, and what is made comes into it (`Confined`). Of a declaration
  only the type can change, and it becomes the type of a receiver (`Redeclared`). Both are shown
  of each of the reported changes, and then of all that a pass does.
-/
import CilFold.Proofs.CaptureEffect
import CilFold.Proofs.SafePass

namespace CilFold

/-- The second variable is the first one, apart from its type and its uses. -/
structure Variable.Same (x y : Variable) : Prop where
  id : y.id = x.id
  kind : y.kind = x.kind
  index : y.index = x.index
  name : y.name = x.name

namespace Variable.Same

variable {x y z : Variable}

theorem trans (h : x.Same y) (h' : y.Same z) : x.Same z :=
  ⟨h'.id.trans h.id, h'.kind.trans h.kind, h'.index.trans h.index, h'.name.trans h.name⟩

theorem of_bare (h : y.bare = x.bare) : x.Same y :=
  ⟨(congrArg Variable.id h :), (congrArg Variable.kind h :), (congrArg Variable.index h :),
    (congrArg Variable.name h :)⟩

theorem isReceiver (h : x.Same y) : y.isReceiver = x.isReceiver := by
  rw [Variable.isReceiver, h.kind, Variable.isReceiver]

end Variable.Same

namespace Routine

variable {r s t : Routine} {kind : EventKind} {es : List Event} {block id inst k p : NodeId}
  {index : Nat} {u : Tree NodeId}

/-! ## Nodes -/

/-- The nodes outside the tree stay as they are, and new nodes belong to the tree. -/
structure Confined (r s : Routine) : Prop extends Kept r s where
  loose : ∀ k, r.isAlive k = true → r.isConnected k = false → s.node? k = r.node? k
  joins : ∀ k, s.isAlive k = true → r.isAlive k = true ∨ s.isConnected k = true

namespace Confined

theorem refl (r : Routine) : Confined r r := ⟨Kept.refl r, fun _ _ _ => rfl, fun _ h => .inl h⟩

theorem trans (h : Confined r s) (h' : Confined s t) : Confined r t := by
  refine ⟨h.toKept.trans h'.toKept, fun k hk hc => ?_, fun k hk => ?_⟩
  · have hs := h.loose k hk hc
    have halive : s.isAlive k = true := (congrArg Option.isSome hs).trans hk
    have hloose : s.isConnected k = false := (congrArg (Option.any _) hs).trans hc
    exact (h'.loose k halive hloose).trans hs
  · rcases h'.joins k hk with hs | ht
    · exact (h.joins k hs).imp_right fun hc => h'.connected k hc hk
    · exact .inr ht

/-- No node has left the tree without being destroyed, and none was made outside of it. -/
theorem loose_iff (h : Confined r s) : s.isAlive k = true ∧ s.isConnected k = false ↔
    r.isAlive k = true ∧ r.isConnected k = false := by
  constructor
  · rintro ⟨hs, hc⟩
    refine ⟨(h.joins k hs).resolve_right (Bool.eq_false_iff.mp hc), Bool.eq_false_iff.mpr ?_⟩
    intro hr
    rw [h.connected k hr hs] at hc
    cases hc
  · rintro ⟨hr, hc⟩
    rw [isAlive, isConnected, h.loose k hr hc]
    exact ⟨hr, hc⟩

theorem retype (v : VarId) (type : TypeDecl) :
    Confined r (r.modifyVariable v fun x => { x with type }) :=
  ⟨Kept.retype v type, fun _ _ _ => rfl, fun _ h => .inl h⟩

end Confined

/-- What is below a node of the tree belongs to it. -/
theorem Forest.not_encloses_of_loose (F : r.Forest) (hid : r.isConnected id = true)
    (hk : r.isConnected k = false) : ¬ r.encloses id k = true := by
  rw [F.encloses_iff]
  intro h
  rw [F.isConnected_of_above h, hid] at hk
  cases hk

/-- A graft in the tree leaves nothing behind: the fresh tree hangs in the place of the old. -/
theorem Grafted.confined (G : Grafted r id p u s) (F : r.Forest)
    (hconn : r.isConnected id = true) : Confined r s := by
  have hp : r.isConnected p = true := (F.shared G.place).symm.trans hconn
  refine ⟨G.kept, fun k hk hc => ?_, fun k hk => (G.only k hk).imp_right fun hu => ?_⟩
  · have v := G.views k hk
    have hout := F.not_encloses_of_loose hconn hc
    have hkp : k ≠ p := by
      rintro rfl
      rw [hp] at hc
      cases hc
    simp only [if_neg hout, if_neg hkp] at v
    exact v.node?_eq
  · -- the fresh tree hangs below the parent of the place, which is still in the tree
    have F' := G.valid.forest
    have hmem := G.mem_children_new F
    obtain ⟨n, hn, _⟩ := exists_node?_of_mem_children hmem
    have hps := G.kept.connected p hp (isAlive_of_node? hn)
    rw [F'.isConnected_of_above ((F'.mem_labels G.new).mp hu), F'.shared (F'.parent?_of_mem hmem)]
    exact hps

theorem Confined.deleteAt (V : r.Valid) (hc : r.isConnected block = true)
    (hi : (r.children block)[index]? = some inst) : Confined r (r.deleteAt block index inst) := by
  have F := V.forest
  have hpi : r.parent? inst = some block := F.parent?_of_mem (List.mem_of_getElem? hi)
  have hkept := Kept.deleteAt F hi
  refine ⟨hkept, fun k _ hk => ?_, fun k hk => .inl (hkept.alive k ?_ hk)⟩
  · have hkb : k ≠ block := by
      rintro rfl
      rw [hc] at hk
      cases hk
    have v := views_deleteAt F hpi index k
    simp only [if_neg (F.not_encloses_of_loose ((F.shared hpi).trans hc) hk), if_neg hkb] at v
    exact v.node?_eq
  · rw [← size_deleteAt r block index inst]
    exact index_lt_of_isAlive hk

theorem Movable.confined {d load target value : NodeId}
    (M : r.Movable block target index d value load p) (F : r.Forest) :
    Confined r (r.move block index d value load p) := by
  refine ⟨M.kept_move F, fun k _ hk => ?_, fun k hk => .inl (M.alive_move F hk).1⟩
  have hne : ∀ x, r.isConnected x = true → k ≠ x := by
    rintro x hx rfl
    rw [hx] at hk
    cases hk
  -- all that a move touches is in the tree, so it is not the node in question
  have hd := M.connected_definition F
  have v := M.views_move F k
  simp only [if_neg (not_or.mpr ⟨hne d hd, hne load (M.connected_load F)⟩),
    if_neg (hne block M.connected), if_neg (hne p (M.connected_slot F)),
    if_neg (hne value ((F.shared (M.parent_value F)).trans hd))] at v
  exact v.node?_eq

/-! ## Declarations -/

/-- Each variable is still the same one, and has its type or that of a receiver. -/
structure Redeclared (r s : Routine) : Prop where
  size : s.vars.size = r.vars.size
  declared : ∀ v x, r.var? v = some x → ∃ y, s.var? v = some y ∧ x.Same y ∧
    (y.type = x.type ∨ ∃ this z, r.var? this = some z ∧ z.isReceiver = true ∧ y.type = z.type)

theorem exists_var?_of_size_eq {v : VarId} {x : Variable} (hsize : s.vars.size = r.vars.size)
    (hx : s.var? v = some x) : ∃ y, r.var? v = some y := by
  obtain ⟨hlt, _⟩ := Array.getElem?_eq_some_iff.mp hx
  exact ⟨_, Array.getElem?_eq_getElem (hsize ▸ hlt)⟩

/-- Declarations that differ in their uses only. -/
theorem SameHead.exists_same (h : SameHead r s) {v : VarId} {x : Variable}
    (hx : r.var? v = some x) : ∃ y, s.var? v = some y ∧ x.Same y ∧ y.type = x.type := by
  have hv := h.var? v
  rw [hx, Option.map_some] at hv
  obtain ⟨y, hy, hbare⟩ := Option.map_eq_some_iff.mp hv
  exact ⟨y, hy, .of_bare hbare, (congrArg Variable.type hbare :)⟩

namespace Redeclared

theorem of_sameHead (h : SameHead r s) : Redeclared r s := by
  refine ⟨h.size_vars, fun v x hx => ?_⟩
  obtain ⟨y, hy, hsame, htype⟩ := h.exists_same hx
  exact ⟨y, hy, hsame, .inl htype⟩

theorem trans (h : Redeclared r s) (h' : Redeclared s t) : Redeclared r t := by
  refine ⟨h'.size.trans h.size, fun v x hx => ?_⟩
  obtain ⟨y, hy, hxy, htype⟩ := h.declared v x hx
  obtain ⟨z, hz, hyz, htype' | ⟨this, w, hw, hrecv, htype'⟩⟩ := h'.declared v y hy
  · exact ⟨z, hz, hxy.trans hyz, htype'.symm ▸ htype⟩
  · -- the receiver was one before, and had its type or that of another receiver
    obtain ⟨w₀, hw₀⟩ := exists_var?_of_size_eq h.size hw
    obtain ⟨w₁, hw₁, hsame, htypes⟩ := h.declared this w₀ hw₀
    obtain rfl := Option.some.inj (hw.symm.trans hw₁)
    refine ⟨z, hz, hxy.trans hyz, .inr ?_⟩
    rcases htypes with heq | ⟨other, o, ho, horecv, heq⟩
    · exact ⟨this, w₀, hw₀, hsame.isReceiver ▸ hrecv, htype'.trans heq⟩
    · exact ⟨other, o, ho, horecv, htype'.trans heq⟩

theorem retype {this : VarId} {z : Variable} (hz : r.var? this = some z)
    (hrecv : z.isReceiver = true) (v : VarId) :
    Redeclared r (r.modifyVariable v fun x => { x with type := z.type }) := by
  refine ⟨Array.size_modify, fun k x hx => ?_⟩
  rw [var?_modifyVariable, hx]
  split
  · exact ⟨_, rfl, ⟨rfl, rfl, rfl, rfl⟩, .inr ⟨this, z, hz, hrecv, rfl⟩⟩
  · exact ⟨x, rfl, ⟨rfl, rfl, rfl, rfl⟩, .inl rfl⟩

end Redeclared

/-! ## Reported changes -/

namespace Reported

variable (h : Reported r kind s) (V : r.Valid)
include h

include V in
theorem valid : s.Valid := by
  cases h with
  | retyped _ _ => exact V.retype _ _
  | replaced _ G _ _ _ _ => exact G.valid
  | removed _ hi _ =>
    obtain ⟨hb, hi⟩ := getElem?_instructions hi
    exact V.deleteAt hb hi
  | inlined M => exact M.valid_move V

include V in
theorem confined : Confined r s := by
  cases h with
  | retyped _ _ => exact .retype _ _
  | replaced _ G hconn _ _ _ => exact G.confined V.forest hconn
  | removed hc hi _ => exact .deleteAt V hc (getElem?_instructions hi).2
  | inlined M => exact M.confined V.forest

theorem redeclared : Redeclared r s := by
  cases h with
  | retyped hz hrecv => exact .retype hz hrecv _
  | replaced _ G _ _ _ _ => exact .of_sameHead G.head
  | removed _ _ _ => exact .of_sameHead (sameHead_deleteAt r _ _ _)
  | inlined _ => exact .of_sameHead (Movable.sameHead_move r _ _ _ _ _ _)

end Reported

namespace Reports

variable (h : Reports r es s)
include h

theorem confined (V : r.Valid) : Confined r s := by
  induction h with
  | done => exact Confined.refl _
  | step hchange _ _ ih => exact (hchange.confined V).trans (ih (hchange.valid V))

theorem redeclared : Redeclared r s := by
  induction h with
  | done => exact .of_sameHead (SameHead.refl _)
  | step hchange _ _ ih => exact hchange.redeclared.trans ih

end Reports

end Routine

/-! ## Passes -/

namespace Pass

open Routine PassM

variable {pass : Pass} {w : Work} {r : Routine} {settings : Settings}

/-- What a run of a pass comes to: a number of reported changes, which leave the declarations
    alone unless the pass is the one for captured receivers. -/
theorem run_reports (hpass : pass ∈ all) (V : r.Valid) :
    Ends (pass.run { settings, inliner := Inliner.singleUse }) (w.on r) fun _ w' =>
      Logged (w.on r) w' ∧ (pass = CapturedReceiver.pass ∨ SameHead r w'.routine) := by
  simp only [all, List.mem_cons, List.not_mem_nil, or_false] at hpass
  rcases hpass with rfl | rfl | rfl
  · exact (CapturedReceiver.run_ends V).mono fun _ _ _ h => ⟨h.logged, .inl rfl⟩
  · exact (SelfStore.run_ends V).mono fun _ _ _ h => ⟨h.1.logged, .inr h.2⟩
  · exact (Alias.run_ends V).mono fun _ _ _ h => ⟨h.1.logged, .inr h.2⟩

/-- A pass over a valid routine touches its tree and nothing else. The nodes outside the tree are
    the same afterwards and are as they were, so nothing that the pass made or took out is left
    over. A handle names the operation that it named before, or no node; a handle whose node was
    destroyed names none. The variables stay declared as they were, except that the pass for
    captured receivers may give one the type of a receiver. -/
theorem leaves_rest (hreach : Reachable w.routine) (hvalid : w.routine.validate = .ok ())
    (hpass : pass ∈ all) (settings : Settings) :
    ∃ w', pass.run { settings, inliner := Inliner.singleUse } w = .ok () w' ∧
      (∀ k, w'.routine.isAlive k = true ∧ w'.routine.isConnected k = false ↔
        w.routine.isAlive k = true ∧ w.routine.isConnected k = false) ∧
      (∀ k, w.routine.isAlive k = true → w.routine.isConnected k = false →
        w'.routine.node? k = w.routine.node? k) ∧
      (∀ k, w.routine.isAlive k = true → w'.routine.isAlive k = true →
        w'.routine.op? k = w.routine.op? k) ∧
      (∀ k : NodeId, k.index < w.routine.nodes.size → w.routine.isAlive k = false →
        w'.routine.isAlive k = false) ∧
      w'.routine.vars.size = w.routine.vars.size ∧
      ∀ v x, w.routine.var? v = some x → ∃ y, w'.routine.var? v = some y ∧ x.Same y ∧
        (y.type = x.type ∨ pass = CapturedReceiver.pass ∧
          ∃ this z, w.routine.var? this = some z ∧ z.isReceiver = true ∧ y.type = z.type) := by
  have V := (Routine.valid_iff hreach).mp hvalid
  obtain ⟨_, w', hrun, ⟨es, _, hreports⟩, hhead⟩ :
    Ends (pass.run { settings, inliner := Inliner.singleUse }) (w.on w.routine) _ :=
    run_reports hpass V
  have hreports : Reports w.routine es w'.routine := hreports
  have hconfined := hreports.confined V
  have hdeclared := hreports.redeclared
  refine ⟨w', hrun, fun k => hconfined.loose_iff, hconfined.loose, hconfined.op,
    fun k hlt hk => ?_, hdeclared.size, fun v x hx => ?_⟩
  · refine Bool.eq_false_iff.mpr fun hs => ?_
    rw [hconfined.alive k hlt hs] at hk
    cases hk
  · rcases hhead with heq | hhead
    · obtain ⟨y, hy, hsame, htype⟩ := hdeclared.declared v x hx
      exact ⟨y, hy, hsame, htype.imp_right fun h => ⟨heq, h⟩⟩
    · obtain ⟨y, hy, hsame, htype⟩ := hhead.exists_same hx
      exact ⟨y, hy, hsame, .inl htype⟩

/-- The calls that build the closure with a load beside the tree, and with a handle of which the
    node was destroyed. -/
def Sample.calls : List Primitive :=
  CapturedReceiver.Sample.calls ++
    [.load ⟨2⟩, .nop, .push ⟨1⟩ ⟨15⟩, .remove ⟨1⟩ 4]

/-- The closure with a load beside it. -/
def Sample.routine : Routine :=
  Sample.calls.foldl Primitive.after (Routine.empty ⟨0x06000001⟩ "Draw")

set_option maxRecDepth 8000 in
/-- The fold of a closure makes four nodes and leaves seven alive. The load beside the tree is
    one of these, as it was, and the destroyed node does not come back. -/
theorem rest_of_closure : ∃ w', CapturedReceiver.pass.run
      { settings := {}, inliner := Inliner.singleUse } { routine := Sample.routine } = .ok () w' ∧
    Sample.routine.node? ⟨14⟩ = some { op := .ldloc ⟨2⟩, children := [] } ∧
    w'.routine.node? ⟨14⟩ = Sample.routine.node? ⟨14⟩ ∧
    Sample.routine.isAlive ⟨15⟩ = false ∧ w'.routine.isAlive ⟨15⟩ = false ∧
    Sample.routine.nodes.size = 16 ∧ w'.routine.nodes.size = 20 ∧ w'.routine.liveCount = 7 ∧
    (w'.routine.var? ⟨1⟩).map (·.type) = some TypeDecl.widget := by
  have hreach : Reachable Sample.routine := (Reachable.empty _ _).after Sample.calls
  obtain ⟨w', hrun, _, hrest, _, hdead, _⟩ := leaves_rest (w := { routine := Sample.routine })
    hreach (by decide +kernel) List.mem_cons_self {}
  have hload : Sample.routine.node? ⟨14⟩ = some { op := .ldloc ⟨2⟩, children := [] } := by
    decide +kernel
  have hgone : Sample.routine.isAlive ⟨15⟩ = false := by decide +kernel
  have hsize : Sample.routine.nodes.size = 16 := by decide +kernel
  have hend :
      let run := CapturedReceiver.pass.run { settings := {}, inliner := Inliner.singleUse }
      let s := (run.after { routine := Sample.routine }).routine
      s.nodes.size = 20 ∧ s.liveCount = 7 ∧
        (s.var? ⟨1⟩).map (·.type) = some TypeDecl.widget := by decide +kernel
  simp only [after_of_ok hrun] at hend
  refine ⟨w', hrun, hload, hrest ⟨14⟩ (isAlive_of_node? hload) (isConnected_of_node? hload), hgone,
    hdead ⟨15⟩ ?_ hgone, hsize, hend⟩
  rw [hsize]
  decide

end Pass

end CilFold
