/-
  Passes over a routine. A pass works on the routine and on the log of events at once; when
  it is refused an edit, it ends there, and what it did until then stays.

  After each removal of an instruction the inliner is asked to fold the definitions in front
  of the gap. It answers how many instructions it consumed there, so that the scan of the
  block can step back by as many.
-/
import CilFold.Event
import CilFold.Settings
import CilFold.Routine.Edit
import CilFold.Routine.Pattern
import CilFold.Routine.Render

namespace CilFold

/-- One request to the inliner, with its answer. -/
structure InlineRequest where
  block : NodeId
  index : Nat
  options : InlineOptions
  consumed : Nat
deriving DecidableEq

/-- What a pass works on. -/
structure Work where
  routine : Routine
  log : EventLog := {}
  /-- The requests to an inliner that notes them. -/
  requests : List InlineRequest := []
deriving DecidableEq

/-- A computation of a pass. -/
abbrev PassM := EStateM Fault Work

namespace PassM

/-- The routine as it is. -/
def routine : PassM Routine := do return (← get).routine

/-- Runs an edit on the routine. -/
def edit {α : Type} (e : Edit α) : PassM α := fun w =>
  match e w.routine with
  | .ok a r => .ok a { w with routine := r }
  | .error fault r => .error fault { w with routine := r }

/-- Appends an event to the log. -/
def record (e : Event) : PassM Unit := modify fun w => { w with log := w.log.record e }

/-- Appends an event of a pass at a position. -/
def note (pass : String) (kind : EventKind) (location : Nat) (message : String) : PassM Unit := do
  let r ← routine
  record ((((Event.ofKind kind).located r.token location).byPass pass).withMessage message)

/-- Appends an event of a pass at a position, with the text of a node as its message. -/
def noteNode (pass : String) (kind : EventKind) (location : Nat) (id : NodeId) : PassM Unit := do
  let r ← routine
  note pass kind location (r.render id)

end PassM

/-- An inliner folds definitions in front of a position of a block into the instruction at
    the position, and gives the number of instructions it consumed. -/
abbrev Inliner := NodeId → Nat → InlineOptions → PassM Nat

/-- What a pass is given. -/
structure Context where
  settings : Settings
  inliner : Inliner

/-- Removes an instruction and has the inliner look at the gap. -/
def Context.vacate (ctx : Context) (block : NodeId) (index : Nat) : PassM Nat := do
  PassM.edit (Edit.remove block index)
  ctx.inliner block index ctx.settings.inlining

/-- The text of a context of which the log has a given number of events. -/
def Context.detail (ctx : Context) (events : Nat) : String :=
  "TransformContext \x7b " ++
    ", ".intercalate
      [ Settings.fieldText "settings" ctx.settings.detail,
        Settings.fieldText "events" (Nat.repr events), ".."] ++
    " \x7d"

/-- A pass: its name, what it is for, and what it does. -/
structure Pass where
  name : String
  description : String
  run : Context → PassM Unit

namespace PassM

/-- The instruction at an index of a block, which must have one there. -/
def instruction (block : NodeId) (index : Nat) : PassM NodeId := do
  let r ← routine
  match (r.instructions block)[index]? with
  | some inst => return inst
  | none => throw (.badIndex index (r.instructions block).length)

/-- Steps back from an index by a number of instructions. There must be as many in front. -/
def stepBack (index count : Nat) : PassM Nat :=
  if count ≤ index then return index - count else throw (.badIndex count index)

/-- Visits the instructions of a block from an index on. A visit gives the index to go on
    from. After `steps` visits none may be left. -/
def scanFrom (block : NodeId) (visit : Nat → NodeId → PassM Nat) : Nat → Nat → PassM Unit
  | 0, index => do
    let r ← routine
    if index < (r.instructions block).length then
      throw (.badIndex index (r.instructions block).length)
  | steps + 1, index => do
    let r ← routine
    match (r.instructions block)[index]? with
    | none => return ()
    | some inst => do
      let next ← visit index inst
      scanFrom block visit steps next

/-- Visits the instructions of a block from first to last. Each visit leaves fewer
    instructions to go, so the block's length bounds the number of visits. -/
def scan (block : NodeId) (visit : Nat → NodeId → PassM Nat) : PassM Unit := do
  let r ← routine
  scanFrom block visit (r.instructions block).length 0

/-- Scans the control-flow blocks of all containers that the tree had at the start. Blocks
    that have left the tree since then are passed over. -/
def scanControlFlow (visit : NodeId → Nat → NodeId → PassM Nat) : PassM Unit := do
  let r ← routine
  r.containers.forM fun container => do
    let r ← routine
    (r.blocks container).forM fun block => do
      let r ← routine
      if r.isConnected block && r.blockKind? block == some .controlFlow then
        scan block (visit block)

/-- Scans the entry blocks of all containers that the tree had at the start and that are
    still part of it. -/
def scanEntries (visit : NodeId → Nat → NodeId → PassM Nat) : PassM Unit := do
  let r ← routine
  r.containers.forM fun container => do
    let r ← routine
    if r.isConnected container then
      match r.entry? container with
      | some block => scan block (visit block)
      | none => return ()

end PassM

/-- Where a scan goes on from after a removal in front of, at or behind its cursor, when the
    inliner consumed some instructions in front of the removed one. A cursor behind the
    removed one moves with its instruction, one in front of the consumed ones stays, and one
    among them goes to the instruction that followed the removed one. -/
def rewind (cursor removed inlined : Nat) : PassM Nat :=
  if removed < cursor then PassM.stepBack cursor (inlined + 1)
  else if removed - inlined ≤ cursor then return removed - inlined
  else return cursor

end CilFold
