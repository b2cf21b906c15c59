/-
  Application of passes: to one routine, with the start, the check and the end recorded, and
  to many routines, each on its own.
-/
import CilFold.Pass.CapturedReceiver
import CilFold.Pass.Alias
import CilFold.Pass.SelfStore
import CilFold.Routine.Validity

namespace CilFold

namespace Pass

/-- Records an event of a pass about the whole routine. -/
def announce (pass : Pass) (token : Token) (kind : EventKind) (message : String) : PassM Unit :=
  PassM.record ((((Event.ofKind kind).inMethod token).byPass pass.name).withMessage message)

/-- Checks the routine, and records the flaw if there is one. -/
def recheck (pass : Pass) (token : Token) : PassM Unit := do
  let r ← PassM.routine
  match r.validate with
  | .ok () => return ()
  | .error flaw => do
    announce pass token .error (Fault.malformed flaw).message
    throw (.malformed flaw)

/-- Runs a pass between the events of its start and its end. If the settings ask for it, the
    routine is checked afterwards. -/
def apply (pass : Pass) (ctx : Context) : PassM Unit := do
  let r ← PassM.routine
  announce pass r.token .passStarted EventKind.passStarted.description
  pass.run ctx
  if ctx.settings.recheck then recheck pass r.token
  announce pass r.token .passCompleted EventKind.passCompleted.description

/-- The routine and the events that applying a pass to it with the single-use inliner and an
    empty log leaves, or the refusal that it ended in. -/
def applyAlone (pass : Pass) (settings : Settings) (r : Routine) :
    Routine × Except Fault (List Event) :=
  match apply pass { settings, inliner := Inliner.singleUse } { routine := r } with
  | .ok _ w => (w.routine, .ok w.log.events)
  | .error fault w => (w.routine, .error fault)

/-- Applies a pass to each routine on its own. The events come in the order of the routines;
    if a routine is refused, there are none. -/
def applyAll (pass : Pass) (settings : Settings) (routines : List Routine) :
    List Routine × Except Fault (List Event) :=
  let outcomes := routines.map (applyAlone pass settings)
  (outcomes.map (·.1), (outcomes.mapM Prod.snd).map List.flatten)

end Pass

end CilFold
