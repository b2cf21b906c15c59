/-
  The whole effect of the fold of a capture object, with an inliner that leaves everything as
  it is: the tree below the body becomes what `Capture.folded` makes of it.
-/
import CilFold.Proofs.CaptureRemove

namespace CilFold

open Routine PassM

namespace CapturedReceiver

variable {w : Work} {r s : Routine} {block inst : NodeId} {index : Nat} {c : Capture}
  {ctx : Context} {goal : Tree (Option NodeId)}

/-- What holds while forwarding stores are removed and nothing is inlined. Pruning the stores
    that are left gives `goal`. -/
structure Pruning (r : Routine) (goal : Tree (Option NodeId)) (pending : List NodeId) (w : Work) :
    Prop where
  valid : w.routine.Valid
  kept : Kept r w.routine
  head : SameHead r w.routine
  stores : ∀ st ∈ pending, r.isConnected st = true ∧
    ∃ owner, r.parent? st = some owner ∧ r.isBlock owner = true
  marks : (r.marked w.routine r.body).prune (fun a => pending.any (some · == a)) = goal

theorem prune_step {next : Nat} {stores : List NodeId} {placed : PlacedStore}
    (hidle : ∀ block index options w, ctx.inliner block index options w = .ok 0 w)
    (h : Pruning r goal stores (w.on s)) (hlast : s.lastPlaced? stores = some placed) :
    Ends (do
        PassM.noteNode name .instructionRemoved placed.position placed.store
        let inlined ← ctx.vacate placed.owner placed.position
        if placed.owner == block then rewind next placed.position inlined else pure next)
      (w.on s) fun _ => Pruning r goal (dropStore stores placed.store) := by
  have V : s.Valid := h.valid
  have F := V.forest
  have hkept : Kept r s := h.kept
  have hbody : s.body = r.body := h.head.body
  obtain ⟨hmem, hconn, hi⟩ := hkept.lastPlaced h.stores F hlast
  obtain ⟨hb, hi'⟩ := getElem?_instructions hi
  have hp : s.parent? placed.store = some placed.owner :=
    F.parent?_of_mem (List.mem_of_getElem? hi')
  have hdrop := dropStore_perm hmem
  have V' := V.deleteAt hb hi'
  have hkept' := hkept.trans (Kept.deleteAt F hi')
  have hhead' := h.head.trans (sameHead_deleteAt s placed.owner placed.position placed.store)
  have hmarks' : (r.marked (s.deleteAt placed.owner placed.position placed.store) r.body).prune
      (fun a => (dropStore stores placed.store).any (some · == a)) = goal := by
    have hmarks : (r.marked s r.body).prune (fun a => stores.any (some · == a)) = goal := h.marks
    have hlt := index_lt_of_isAlive (isAlive_of_isConnected (h.stores _ hmem).1)
    rw [marked_deleteAt F V'.forest hi' hlt (hbody ▸ isAlive_of_isConnected F.isConnected_body)
      (hbody ▸ F.not_above_body hp), Tree.prune_prune, ← hmarks]
    refine Tree.prune_congr fun a _ => ?_
    rw [hdrop.any_eq, (List.perm_cons_erase hmem).any_eq, List.any_cons, Bool.beq_comm]
  refine Ends.bind (Ends.noteNode fun e _ _ => ?_)
  refine Ends.bind (Ends.bind (Ends.edit (Edit.remove_ok hb hi') ?_))
  generalize s.deleteAt placed.owner placed.position placed.store = s' at *
  have hend : ∀ w' : Work, Pruning r goal (dropStore stores placed.store) (w'.on s') := fun w' =>
    ⟨V', hkept', hhead', fun st hst => h.stores st (List.mem_of_mem_erase (hdrop.mem_iff.mp hst)),
      hmarks'⟩
  refine ⟨0, (w.noted e).on s', hidle _ _ _ _, ?_⟩
  split
  · exact rewind_ends (Nat.zero_le _) (Nat.zero_add 1) fun _ _ => hend _
  · exact Ends.pure (hend _)

/-- When no pending store is left in the tree, there is nothing to prune. -/
theorem Pruning.marked_eq {left : List NodeId} (h : Pruning r goal left (w.on s))
    (hnone : s.lastPlaced? left = none) : r.marked s r.body = goal := by
  have V : s.Valid := h.valid
  have F := V.forest
  have hbody : s.body = r.body := h.head.body
  have hmarks : (r.marked s r.body).prune (fun a => left.any (some · == a)) = goal := h.marks
  rw [← hmarks, Tree.prune_eq_self]
  intro a ha
  rw [marked, Tree.labels_map] at ha
  obtain ⟨k, hk, rfl⟩ := List.mem_map.mp ha
  have halive : s.isAlive s.body = true := isAlive_of_isConnected F.isConnected_body
  rw [← hbody, F.mem_labels (F.holds_tree halive), label_tree] at hk
  rw [List.any_eq_false]
  intro st hst he
  obtain ⟨rfl, _⟩ := origin_eq_some.mp (beq_iff_eq.mp he).symm
  obtain ⟨_, owner, hp, hblock⟩ := h.stores k hst
  obtain ⟨hp', _⟩ := h.kept.slot k owner hp hblock (hk.alive halive)
  have hsome := F.placed?_isSome hp'
  rw [lastPlaced?_eq_none hnone hst] at hsome
  cases hsome

theorem removeForwards_prunes {next : Nat} {stores : List NodeId}
    (hidle : ∀ block index options w, ctx.inliner block index options w = .ok 0 w)
    (h : Pruning r goal stores (w.on s)) :
    Ends (removeForwards ctx block stores.length stores next) (w.on s) fun _ w' =>
      w'.routine.Valid ∧ SameHead r w'.routine ∧ r.marked w'.routine r.body = goal := by
  refine (removeForwards_ends (I := fun stores _ => Pruning r goal stores)
    (fun stores next w s placed h hlast => prune_step hidle h hlast) h).mono ?_
  rintro last w' s' ⟨left, hend, hnone⟩
  refine ⟨hend.valid, hend.head, hend.marked_eq ?_⟩
  rcases hnone with hnone | hlength
  · exact hnone
  · obtain rfl := List.eq_nil_of_length_eq_zero (by omega : left.length = 0)
    rfl

/-- The stores that are removed are the recorded ones. -/
theorem any_forwards (V : r.Valid) {v : Variable} (hv : r.var? c.holder = some v)
    (a : Option NodeId) : ((r.capturePlan c).forwards.map (·.store)).any (some · == a) =
      (c.recorded (r.tree r.body)).any (some ·.store == a) := by
  rw [List.any_map, (perm_forwards V hv).any_eq, List.any_map]
  rfl

/-- Folding a capture object, with an inliner that leaves everything as it is, is not refused.
    It rewrites the tree below the body as `Capture.folded` says, each node that stays under its
    handle; the variable gets the type of the receiver, and all other declarations stay as they
    were. -/
theorem fold_eq_folded (ctx : Context) {this : VarId} (hreach : Reachable w.routine)
    (hvalid : w.routine.validate = .ok ()) (hblock : w.routine.isConnected block = true)
    (hi : (w.routine.instructions block)[index]? = some inst)
    (hc : w.routine.capture? ctx.settings inst = some c)
    (hthis : w.routine.ldloc? c.receiver = some this)
    (hidle : ∀ block index options w, ctx.inliner block index options w = .ok 0 w) :
    ∃ next w', fold ctx block index c w = .ok next w' ∧ w'.routine.validate = .ok () ∧
      w.routine.marked w'.routine w'.routine.body =
        c.folded inst this (w.routine.tree w.routine.body) ∧
      SameHead (c.retyped w.routine) w'.routine ∧
      (w'.routine.var? c.holder).map (·.type) = (w.routine.var? this).map (·.type) := by
  have V := (Routine.valid_iff hreach).mp hvalid
  obtain ⟨_, _, _, ht, ⟨x, hx, _⟩, y, hy, _, htype⟩ := capture?_spec V.forest hc
  have hrecv := ((ht.operand (List.mem_singleton_self _)).operand (List.mem_singleton_self _)).op?
  have hthis := ldloc?_eq_some.mp hthis
  cases hrecv.symm.trans hthis
  have V₁ : (c.retyped w.routine).Valid := V.retype c.holder c.receiverType
  have hx₁ : (c.retyped w.routine).var? c.holder = some { x with type := c.receiverType } := by
    rw [Capture.retyped, var?_modifyVariable, if_pos rfl, hx]
    rfl
  have htree : (c.retyped w.routine).tree (c.retyped w.routine).body =
      w.routine.tree w.routine.body := tree_retyped c V
  have hstart : Scanned w block (w.on w.routine) := Scanned.start ⟨V, Logged.refl w⟩ hblock
  obtain ⟨next, w', hfold, V', hhead, hmarks⟩ : Ends (fold ctx block index c) (w.on w.routine)
      fun _ w' => w'.routine.Valid ∧ SameHead (c.retyped w.routine) w'.routine ∧
        (c.retyped w.routine).marked w'.routine (c.retyped w.routine).body =
          c.folded inst this (w.routine.tree w.routine.body) := by
    refine fold_ends hstart hi hc hthis fun w' s hrefolded => ?_
    rw [← htree] at hrefolded ⊢
    generalize c.retyped w.routine = r₁ at *
    have hpruning : Pruning r₁ (c.folded inst this (r₁.tree r₁.body))
        ((r₁.capturePlan c).forwards.map (·.store)) (w'.on s) := by
      refine ⟨hrefolded.valid, hrefolded.kept, hrefolded.head, fun st hst => ?_, ?_⟩
      · obtain ⟨f, hf, rfl⟩ := List.mem_map.mp hst
        obtain ⟨_, owner, _, hconn, hp, hb⟩ := forwards_spec V₁ hx₁ hf
        exact ⟨hconn, owner, hp, hb⟩
      · rw [hrefolded.marks, Capture.folded]
        exact Tree.prune_congr fun a _ => any_forwards V₁ hx₁ a
    have hlength : (r₁.capturePlan c).forwards.length =
        ((r₁.capturePlan c).forwards.map (·.store)).length := (List.length_map _).symm
    rw [hlength]
    exact removeForwards_prunes hidle hpruning
  refine ⟨next, w', hfold, V'.validate, ?_, hhead, ?_⟩
  · rw [hhead.body]
    exact hmarks
  · have hvar := hhead.var? c.holder
    rw [hx₁, Option.map_some] at hvar
    obtain ⟨x', hx', hbare⟩ := Option.map_eq_some_iff.mp hvar
    have hxtype : x'.type = c.receiverType := congrArg Variable.type hbare
    rw [hx', hy, Option.map_some, Option.map_some, hxtype, htype]

/-! ## A closure -/

namespace Sample

def closure : TypeDecl := ⟨⟨0x02000002⟩, "Shop", "<>c__CompilerGenerated0", 0, .object⟩

def value : FieldDecl := ⟨⟨0x04000001⟩, "value", closure, .void⟩

def outer : FieldDecl := ⟨⟨0x04000002⟩, "outer", closure, .widget⟩

def construct : CallSite where
  kind := .newobj
  method := ⟨⟨0x06000002⟩, ".ctor", closure, .void, 1, 0x1000⟩

/-- The calls that build a routine with one closure, the variables being `this`, `cap` and `x`:

      stloc cap(newobj closure::.ctor(ldloc this))
      stobj Void(ldflda value(ldloc cap), ldloc x)
      ldflda value(ldloc cap)
      ldobj Widget(ldflda outer(ldloc cap)) -/
def calls : List Primitive :=
  [ .declare .receiver 0 "this" .widget, .declare .localSlot 0 "cap" closure,
    .declare .localSlot 1 "x" .void, .newBlock ⟨0⟩ .controlFlow,
    .load ⟨0⟩, .create (.call construct) [⟨2⟩], .create (.stloc ⟨1⟩) [⟨3⟩], .push ⟨1⟩ ⟨4⟩,
    .load ⟨1⟩, .create (.ldflda value) [⟨5⟩], .load ⟨2⟩,
    .create (.stobj .void) [⟨6⟩, ⟨7⟩], .push ⟨1⟩ ⟨8⟩,
    .load ⟨1⟩, .create (.ldflda value) [⟨9⟩], .push ⟨1⟩ ⟨10⟩,
    .load ⟨1⟩, .create (.ldflda outer) [⟨11⟩], .create (.ldobj .widget) [⟨12⟩],
    .push ⟨1⟩ ⟨13⟩]

/-- The routine with one closure. -/
def routine : Routine := calls.foldl Primitive.after (Routine.empty ⟨0x06000001⟩ "Draw")

end Sample

set_option maxRecDepth 8000 in
/-- The fold leaves `stloc cap(ldloc this)`, `ldloca x` and `ldloc cap`. -/
theorem fold_sample : ∃ next w',
    fold { settings := {}, inliner := Inliner.idle } ⟨1⟩ 0
      ⟨⟨1⟩, ⟨2⟩, .widget, Sample.closure⟩ { routine := Sample.routine } = .ok next w' ∧
    Sample.routine.marked w'.routine w'.routine.body =
      .node (some ⟨0⟩) .container [.node (some ⟨1⟩) (.block .controlFlow)
        [.node none (.stloc ⟨1⟩) [.node none (.ldloc ⟨0⟩) []], .node none (.ldloca ⟨2⟩) [],
          .node none (.ldloc ⟨1⟩) []]] := by
  have hreach : Reachable Sample.routine := (Reachable.empty _ _).after Sample.calls
  have hi : (Sample.routine.instructions ⟨1⟩)[0]? = some ⟨4⟩ := rfl
  have hc : Sample.routine.capture? {} ⟨4⟩ = some ⟨⟨1⟩, ⟨2⟩, .widget, Sample.closure⟩ := rfl
  have hthis : Sample.routine.ldloc? ⟨2⟩ = some ⟨0⟩ := rfl
  obtain ⟨next, w', hfold, _, hmarked, _⟩ := fold_eq_folded (w := { routine := Sample.routine })
    ⟨{}, Inliner.idle⟩ hreach rfl rfl hi hc hthis fun _ _ _ _ => rfl
  exact ⟨next, w', hfold, hmarked.trans rfl⟩

end CapturedReceiver

end CilFold
