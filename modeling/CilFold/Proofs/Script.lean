/-
  Passes as scripts.

  A script is a computation of a pass cut into its steps: it looks at the routine, puts another
  routine into its place, or appends an event. There is no step that looks at the log, so what
  a script does to the routine and which events it appends cannot depend on the events that are
  there. `PassM.Scripted t m` says that the computation `m` can be written as a script that, on a
  routine with the token `t`, keeps the token and names it in all its events. The lemmas follow
  the ways in which computations are put together, up to the application of a pass.

  Nothing here needs a valid routine: an edit keeps the token on every routine, also when it is
  refused halfway.
-/
import CilFold.Proofs.SafePass

namespace CilFold

variable {α β : Type}

/-! ## Edits -/

namespace Edit

open Routine

/-- What an edit leaves, refused or not. -/
def left (e : Edit α) (r : Routine) : Routine :=
  match e r with
  | .ok _ s | .error _ s => s

/-- The edit leaves the token as it is. -/
def KeepsToken (e : Edit α) : Prop := ∀ r, (e.left r).token = r.token

variable {e : Edit α} {f : α → Edit β}

namespace KeepsToken

theorem pure (a : α) : KeepsToken (Pure.pure a : Edit α) := fun _ => rfl

theorem throw (fault : Fault) : KeepsToken (throw fault : Edit α) := fun _ => rfl

theorem get : KeepsToken (get : Edit Routine) := fun _ => rfl

theorem ofModify {g : Routine → Routine} (h : ∀ r, SameHead r (g r)) :
    KeepsToken (modify g : Edit Unit) := fun r => (h r).token

theorem bind (he : KeepsToken e) (hf : ∀ a, KeepsToken (f a)) : KeepsToken (e >>= f) := by
  intro r
  have h := he r
  unfold left at h ⊢
  simp only [Bind.bind, EStateM.bind]
  cases hr : e r with
  | ok a s =>
    rw [hr] at h
    exact (hf a s).trans h
  | error fault s =>
    rw [hr] at h
    exact h

theorem step {check : Routine → Except Fault β} {answer : Routine → β → α}
    {effect : Routine → β → Routine} (h : ∀ r b, (effect r b).token = r.token) :
    KeepsToken (Edit.step check answer effect) := by
  intro r
  cases hcheck : check r with
  | error fault => rw [left, step_of_error hcheck]
  | ok b =>
    rw [left, step_of_ok hcheck]
    exact h r b

theorem check (look : Routine → Except Fault β) : KeepsToken (Edit.check look) :=
  step fun _ _ => rfl

theorem amend (id : NodeId) (g : Node → Node) : KeepsToken (Edit.amend id g) :=
  step fun _ _ => rfl

theorem alloc (op : Op) (children : List NodeId) : KeepsToken (Edit.alloc op children) :=
  step fun r _ => (sameHead_grow r op children).token

theorem create (op : Op) (children : List NodeId) : KeepsToken (Edit.create op children) :=
  step fun r _ => (sameHead_grow r op children).token

theorem retype (id : VarId) (type : TypeDecl) : KeepsToken (Edit.retype id type) :=
  step fun _ _ => rfl

/-- The last step of an insertion. -/
theorem connectIf (c : Bool) (id : NodeId) :
    KeepsToken (if c then modify (·.connect id) else Pure.pure () : Edit Unit) := by
  split
  · exact ofModify fun r => sameHead_connect r id
  · exact pure ()

theorem uproot (id : NodeId) :
    KeepsToken (modify fun r => (r.disconnect id).destroy id : Edit Unit) :=
  ofModify fun r => (sameHead_disconnect r id).trans (sameHead_destroy _ id)

theorem remove (block : NodeId) (index : Nat) : KeepsToken (Edit.remove block index) :=
  bind (check _) fun inst => bind (amend _ _) fun _ => uproot inst

theorem replace (id new : NodeId) : KeepsToken (Edit.replace id new) :=
  bind get fun _ => bind (check _) fun _ => bind (uproot id) fun _ => bind (amend _ _) fun _ =>
    bind (amend _ _) fun _ => connectIf _ new

theorem extract (id : NodeId) : KeepsToken (Edit.extract id) :=
  bind get fun _ => bind (check _) fun _ =>
    bind (ofModify fun r => sameHead_disconnect r id) fun _ => bind (amend _ _) fun _ =>
      bind (alloc _ _) fun _ => bind (amend _ _) fun _ => bind (amend _ _) fun _ => pure id

theorem each {e : NodeId → Edit α} (he : ∀ id, KeepsToken (e id)) (ids : List NodeId) :
    KeepsToken (Edit.each e ids) := by
  induction ids with
  | nil => exact pure []
  | cons id ids ih => exact bind (he id) fun _ => bind ih fun _ => pure _

theorem cloneTo (depth : Nat) (id : NodeId) : KeepsToken (Edit.cloneTo depth id) := by
  induction depth generalizing id with
  | zero => exact throw _
  | succ depth ih =>
    refine bind get fun r => ?_
    split
    · exact throw _
    · exact bind (each ih _) fun _ => alloc _ _

theorem clone (id : NodeId) : KeepsToken (Edit.clone id) := bind get fun _ => cloneTo _ id

end KeepsToken

end Edit

/-! ## Scripts -/

/-- A computation of a pass, step by step. -/
inductive Script (α : Type) where
  | done (a : α)
  | refused (fault : Fault)
  | look (next : Routine → Script α)
  | put (r : Routine) (next : Script α)
  | append (e : Event) (next : Script α)

namespace Script

/-- What a script computes when it runs alone. -/
def denote : Script α → PassM α
  | done a => pure a
  | refused fault => throw fault
  | look next => fun w => (next w.routine).denote w
  | put r next => fun w => next.denote (w.on r)
  | append e next => fun w => next.denote (w.noted e)

/-- One script after the other. -/
def bind : Script α → (α → Script β) → Script β
  | done a, f => f a
  | refused fault, _ => refused fault
  | look next, f => look fun r => (next r).bind f
  | put r next, f => put r (next.bind f)
  | append e next, f => append e (next.bind f)

/-- An edit as a script. -/
def ofEdit (e : Edit α) : Script α :=
  look fun r =>
    match e r with
    | .ok a s => put s (done a)
    | .error fault s => put s (refused fault)

/-- On a routine with the token, the script keeps the token and names it in its events. -/
def Marked (t : Token) : Script α → Prop
  | done _ => True
  | refused _ => True
  | look next => ∀ r, r.token = t → (next r).Marked t
  | put r next => r.token = t ∧ next.Marked t
  | append e next => e.method = some t ∧ next.Marked t

variable {s : Script α} {f : α → Script β} {w w' : Work} {a : α} {t : Token}

theorem denote_bind (s : Script α) (f : α → Script β) :
    (s.bind f).denote = s.denote >>= fun a => (f a).denote := by
  funext w
  induction s generalizing w with
  | done a => rfl
  | refused fault => rfl
  | look next ih => exact ih w.routine w
  | put r next ih => exact ih (w.on r)
  | append e next ih => exact ih (w.noted e)

theorem denote_ofEdit (e : Edit α) : (ofEdit e).denote = PassM.edit e := by
  funext w
  show Script.denote (match e w.routine with
    | .ok a s => put s (done a)
    | .error fault s => put s (refused fault)) w = _
  unfold PassM.edit
  cases e w.routine with
  | ok a s => rfl
  | error fault s => rfl

theorem Marked.ofEdit {e : Edit α} (he : e.KeepsToken) : (Script.ofEdit e).Marked t := by
  intro r hr
  have h := he r
  unfold Edit.left at h
  show Marked t (match e r with
    | .ok a s => put s (done a)
    | .error fault s => put s (refused fault))
  cases hs : e r with
  | ok a s =>
    rw [hs] at h
    exact ⟨h.trans hr, trivial⟩
  | error fault s =>
    rw [hs] at h
    exact ⟨h.trans hr, trivial⟩

theorem Marked.bind (hs : s.Marked t) (hf : ∀ a, (f a).Marked t) : (s.bind f).Marked t := by
  induction s with
  | done a => exact hf a
  | refused fault => trivial
  | look next ih => exact fun r hr => ih r (hs r hr)
  | put r next ih => exact ⟨hs.1, ih hs.2⟩
  | append e next ih => exact ⟨hs.1, ih hs.2⟩

/-- The log only grows. -/
theorem exists_events (h : s.denote w = .ok a w') :
    ∃ es, w'.log.events = w.log.events ++ es := by
  induction s generalizing w with
  | done b =>
    cases h
    exact ⟨[], (List.append_nil _).symm⟩
  | refused fault => cases h
  | look next ih => exact ih w.routine h
  | put r next ih => exact ih (w := w.on r) h
  | append e next ih =>
    obtain ⟨es, hes⟩ := ih (w := w.noted e) h
    exact ⟨e :: es, hes.trans (List.append_assoc _ _ _)⟩

/-- Alone and on an empty log, a marked script leaves nothing but events that name the routine. -/
theorem Marked.events (hs : s.Marked t) (hw : w.routine.token = t)
    (hlog : ∀ e ∈ w.log.events, e.method = some t) (h : s.denote w = .ok a w') :
    ∀ e ∈ w'.log.events, e.method = some t := by
  induction s generalizing w with
  | done b =>
    cases h
    exact hlog
  | refused fault => cases h
  | look next ih => exact ih w.routine (hs _ hw) hw hlog h
  | put r next ih => exact ih (w := w.on r) hs.2 hs.1 hlog h
  | append e next ih =>
    refine ih (w := w.noted e) hs.2 hw (fun e' he' => ?_) h
    rcases List.mem_append.mp he' with he' | he'
    · exact hlog e' he'
    · rw [List.mem_singleton.mp he']
      exact hs.1

end Script

/-! ## Computations that are scripts -/

namespace PassM

/-- The computation can be written as a script that is marked with the token. -/
def Scripted (t : Token) (m : PassM α) : Prop := ∃ s : Script α, s.denote = m ∧ s.Marked t

namespace Scripted

variable {t : Token} {m : PassM α} {f : α → PassM β}

theorem pure (a : α) : Scripted t (Pure.pure a : PassM α) := ⟨.done a, rfl, trivial⟩

theorem throw (fault : Fault) : Scripted t (throw fault : PassM α) := ⟨.refused fault, rfl, trivial⟩

theorem bind (hm : Scripted t m) (hf : ∀ a, Scripted t (f a)) : Scripted t (m >>= f) := by
  obtain ⟨s, rfl, hs⟩ := hm
  choose next hnext hmarked using hf
  refine ⟨s.bind next, ?_, hs.bind hmarked⟩
  rw [Script.denote_bind]
  simp only [hnext]

theorem routine : Scripted t PassM.routine := ⟨.look .done, rfl, fun _ _ => trivial⟩

/-- What is done after a look at the routine may speak of the token that it has. -/
theorem look {f : Routine → PassM β} (hf : ∀ r, Scripted r.token (f r)) :
    Scripted t (PassM.routine >>= f) := by
  choose next hnext hmarked using hf
  refine ⟨.look next, ?_, fun r hr => hr ▸ hmarked r⟩
  funext w
  show (next w.routine).denote w = f w.routine w
  rw [hnext]

theorem edit {e : Edit α} (he : e.KeepsToken) : Scripted t (PassM.edit e) :=
  ⟨.ofEdit e, Script.denote_ofEdit e, .ofEdit he⟩

theorem record {e : Event} (he : e.method = some t) : Scripted t (PassM.record e) :=
  ⟨.append e (.done ()), rfl, he, trivial⟩

theorem note (pass : String) (kind : EventKind) (location : Nat) (message : String) :
    Scripted t (PassM.note pass kind location message) := look fun _ => record rfl

theorem noteNode (pass : String) (kind : EventKind) (location : Nat) (id : NodeId) :
    Scripted t (PassM.noteNode pass kind location id) := look fun _ => note _ _ _ _

theorem instruction (block : NodeId) (index : Nat) :
    Scripted t (PassM.instruction block index) := by
  refine look fun r => ?_
  split
  · exact pure _
  · exact throw _

theorem stepBack (index count : Nat) : Scripted t (PassM.stepBack index count) := by
  unfold PassM.stepBack
  split
  · exact pure _
  · exact throw _

theorem rewind (cursor removed inlined : Nat) :
    Scripted t (CilFold.rewind cursor removed inlined) := by
  unfold CilFold.rewind
  split
  · exact stepBack _ _
  · split
    · exact pure _
    · exact pure _

theorem forM {f : α → PassM Unit} (hf : ∀ a, Scripted t (f a)) (l : List α) :
    Scripted t (l.forM f) := by
  induction l with
  | nil => exact pure ()
  | cons a l ih => exact bind (hf a) fun _ => ih

variable {visit : NodeId → Nat → NodeId → PassM Nat}

theorem scanFrom {visit : Nat → NodeId → PassM Nat} (hvisit : ∀ t i id, Scripted t (visit i id))
    (block : NodeId) (steps index : Nat) : Scripted t (PassM.scanFrom block visit steps index) := by
  induction steps generalizing t index with
  | zero =>
    refine look fun r => ?_
    split
    · exact throw _
    · exact pure ()
  | succ steps ih =>
    refine look fun r => ?_
    split
    · exact pure ()
    · exact bind (hvisit _ _ _) fun next => ih next

theorem scan {visit : Nat → NodeId → PassM Nat} (hvisit : ∀ t i id, Scripted t (visit i id))
    (block : NodeId) : Scripted t (PassM.scan block visit) :=
  look fun _ => scanFrom hvisit block _ _

theorem scanControlFlow (hvisit : ∀ t block i id, Scripted t (visit block i id)) :
    Scripted t (PassM.scanControlFlow visit) := by
  refine look fun _ => forM (fun container => look fun _ => forM (fun block => ?_) _) _
  refine look fun r => ?_
  split
  · exact scan (fun t => hvisit t block) block
  · exact pure ()

theorem scanEntries (hvisit : ∀ t block i id, Scripted t (visit block i id)) :
    Scripted t (PassM.scanEntries visit) := by
  refine look fun r => forM (fun container => look fun r => ?_) _
  split
  · split
    · exact scan (fun t => hvisit t _) _
    · exact pure ()
  · exact pure ()

end Scripted

end PassM

/-- The requests to the inliner are scripts. -/
def Context.Scripted (ctx : Context) : Prop :=
  ∀ t block index options, PassM.Scripted t (ctx.inliner block index options)

theorem PassM.Scripted.vacate {t : Token} {ctx : Context} (hctx : ctx.Scripted) (block : NodeId)
    (index : Nat) : Scripted t (ctx.vacate block index) :=
  bind (edit (.remove block index)) fun _ => hctx _ _ _ _

/-! ## The inliner and the passes -/

open PassM

variable {t : Token} {ctx : Context}

namespace Inliner

theorem foldInto_scripted (block target : NodeId) (options : InlineOptions) (index : Nat) :
    Scripted t (foldInto block target options index) := by
  induction index generalizing t with
  | zero => exact .pure 0
  | succ index ih =>
    refine .bind (.instruction block index) fun d => .look fun r => ?_
    split
    · exact .pure 0
    · exact .bind (.edit (.extract _)) fun value => .bind (.edit (.replace _ _)) fun _ =>
        .bind (.edit (.remove _ _)) fun _ => .bind (.noteNode _ _ _ _) fun _ =>
          .bind ih fun _ => .pure _

theorem singleUse_scripted (block : NodeId) (index : Nat) (options : InlineOptions) :
    Scripted t (singleUse block index options) := by
  refine .look fun r => ?_
  split
  · exact .pure 0
  · exact foldInto_scripted _ _ _ _

end Inliner

namespace SelfStore

theorem run_scripted (hctx : ctx.Scripted) : Scripted t (pass.run ctx) := by
  have hvisit : ∀ t block i id, Scripted t (visit ctx block i id) := by
    intro t block i id
    refine .look fun r => ?_
    split
    · exact .bind (.noteNode _ _ _ _) fun _ => .bind (.vacate hctx _ _) fun _ => .stepBack _ _
    · exact .pure _
  show Scripted t
    (if ctx.settings.dropSelfStores then scanControlFlow (visit ctx) else Pure.pure ())
  split
  · exact .scanControlFlow hvisit
  · exact .pure ()

end SelfStore

namespace Alias

theorem replaceLoads_scripted (index : Nat) (receiver : NodeId) (loads : List NodeId) :
    Scripted t (replaceLoads index receiver loads) :=
  .forM (fun _ => .bind (.edit (.clone _)) fun _ => .bind (.edit (.replace _ _)) fun _ =>
    .noteNode _ _ _ _) loads

theorem run_scripted (hctx : ctx.Scripted) : Scripted t (pass.run ctx) := by
  have hvisit : ∀ t block i id, Scripted t (visit ctx block i id) := by
    intro t block i id
    refine .look fun r => ?_
    split
    · exact .pure _
    · exact .bind (replaceLoads_scripted _ _ _) fun _ => .bind (.noteNode _ _ _ _) fun _ =>
        .bind (.vacate hctx _ _) fun _ => .stepBack _ _
  refine .look fun r => ?_
  split
  · exact .scanControlFlow hvisit
  · exact .pure ()

end Alias

namespace CapturedReceiver

theorem collapseWrappers_scripted (index : Nat) (holder : VarId) (wrappers : List NodeId) :
    Scripted t (collapseWrappers index holder wrappers) := by
  refine .forM (fun wrapper => .look fun r => ?_) wrappers
  split
  · exact .bind (.edit (.alloc _ _)) fun _ => .bind (.edit (.replace _ _)) fun _ => .note _ _ _ _
  · exact .pure ()

theorem standIn_keepsToken (source : ForwardSource) : (standIn source).KeepsToken := by
  cases source with
  | loaded var => exact .alloc _ _
  | unboxed id => exact .clone id

theorem foldReferences_scripted (index : Nat) (plan : CapturePlan) (loads : List NodeId) :
    Scripted t (foldReferences index plan loads) := by
  refine .forM (fun load => .look fun r => ?_) loads
  split
  · exact .pure ()
  · exact .bind (.edit (standIn_keepsToken _)) fun _ => .bind (.edit (.replace _ _)) fun _ =>
      .noteNode _ _ _ _

theorem replaceConstruction_scripted (block : NodeId) (index : Nat) (c : Capture) :
    Scripted t (replaceConstruction block index c) :=
  .bind (.instruction _ _) fun _ => .bind (.edit (.clone _)) fun _ =>
    .bind (.edit (.create _ _)) fun _ => .bind (.edit (.replace _ _)) fun _ => .noteNode _ _ _ _

variable (hctx : ctx.Scripted)
include hctx

theorem removeForwards_scripted (block : NodeId) (count : Nat) (stores : List NodeId) (next : Nat) :
    Scripted t (removeForwards ctx block count stores next) := by
  induction count generalizing t stores next with
  | zero => exact .pure next
  | succ count ih =>
    refine .look fun r => ?_
    split
    · exact .pure next
    · refine .bind (.noteNode _ _ _ _) fun _ => .bind (.vacate hctx _ _) fun inlined => ?_
      show Scripted r.token (if _ then _ else _)
      split
      · exact .bind (.rewind _ _ _) fun next => ih _ next
      · exact .bind (.pure next) fun next => ih _ next

theorem fold_scripted (block : NodeId) (index : Nat) (c : Capture) :
    Scripted t (fold ctx block index c) :=
  .bind (.edit (.retype _ _)) fun _ => .bind (.note _ _ _ _) fun _ => .look fun _ =>
    .bind (collapseWrappers_scripted _ _ _) fun _ => .look fun _ =>
      .bind (foldReferences_scripted _ _ _) fun _ => .bind (replaceConstruction_scripted _ _ _)
        fun _ => removeForwards_scripted hctx _ _ _ _

theorem run_scripted : Scripted t (pass.run ctx) := by
  have hvisit : ∀ t block i id, Scripted t (visit ctx block i id) := by
    intro t block i id
    refine .look fun r => ?_
    split
    · exact .pure _
    · exact fold_scripted hctx _ _ _
  show Scripted t (if ctx.settings.foldCaptures then scanEntries (visit ctx) else Pure.pure ())
  split
  · exact .scanEntries hvisit
  · exact .pure ()

end CapturedReceiver

namespace Pass

variable {pass : Pass}

theorem recheck_scripted : Scripted t (recheck pass t) := by
  refine .bind .routine fun r => ?_
  split
  · exact .pure ()
  · exact .bind (.record rfl) fun _ => .throw _

/-- The application of a pass with the single-use inliner is a script. It never looks at the log,
    and all its events name the routine. -/
theorem apply_scripted (hpass : pass ∈ all) (settings : Settings) :
    Scripted t (apply pass { settings, inliner := Inliner.singleUse }) := by
  have hctx : Context.Scripted { settings, inliner := Inliner.singleUse } :=
    fun _ block index options => Inliner.singleUse_scripted block index options
  have hrun : ∀ t, Scripted t (pass.run { settings, inliner := Inliner.singleUse }) := by
    intro t
    simp only [all, List.mem_cons, List.not_mem_nil, or_false] at hpass
    rcases hpass with rfl | rfl | rfl
    · exact CapturedReceiver.run_scripted hctx
    · exact SelfStore.run_scripted hctx
    · exact Alias.run_scripted hctx
  refine .look fun r => .bind (.record rfl) fun _ => .bind (hrun _) fun _ => ?_
  have hend : Scripted r.token
      (announce pass r.token .passCompleted EventKind.passCompleted.description) := .record rfl
  split
  · exact .bind recheck_scripted fun _ => hend
  · exact hend

end Pass

end CilFold
