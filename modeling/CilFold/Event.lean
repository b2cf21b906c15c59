/-
  Events: the record of what the passes did. A log only grows; its questions are answered
  from the list of its events.
-/
import CilFold.Token

namespace CilFold

/-- What an event reports. -/
inductive EventKind where
  | variableRetyped
  | wrapperCollapsed
  | fieldReferenceFolded
  | storeReplaced
  | loadReplaced
  | instructionRemoved
  | valueInlined
  | passStarted
  | passCompleted
  | info
  | warning
  | error
deriving DecidableEq

namespace EventKind

/-- All kinds of event. -/
def all : List EventKind :=
  [variableRetyped, wrapperCollapsed, fieldReferenceFolded, storeReplaced, loadReplaced,
    instructionRemoved, valueInlined, passStarted, passCompleted, info, warning, error]

/-- The description of a kind of event. -/
def description : EventKind → String
  | variableRetyped => "variable retyped"
  | wrapperCollapsed => "wrapper collapsed"
  | fieldReferenceFolded => "field reference rewritten"
  | storeReplaced => "store replaced"
  | loadReplaced => "load replaced"
  | instructionRemoved => "instruction removed"
  | valueInlined => "value inlined"
  | passStarted => "pass started"
  | passCompleted => "pass completed"
  | info => "info"
  | warning => "warning"
  | error => "error"

/-- Whether the event reports a change of the tree. -/
def isEdit : EventKind → Bool
  | variableRetyped | wrapperCollapsed | fieldReferenceFolded | storeReplaced | loadReplaced
  | instructionRemoved | valueInlined => true
  | _ => false

/-- Whether the event is a remark to the reader of the log. -/
def isDiagnostic : EventKind → Bool
  | info | warning | error => true
  | _ => false

end EventKind

/-- One recorded event. -/
structure Event where
  kind : EventKind
  /-- The token of the routine concerned. -/
  method : Option Token := none
  /-- The position in the block concerned. -/
  location : Option Nat := none
  message : String
  /-- The name of the pass that recorded the event. -/
  pass : Option String := none
deriving DecidableEq

namespace Event

/-- An event whose message is the description of its kind. -/
def ofKind (kind : EventKind) : Event := { kind, message := kind.description }

/-- Names the routine. -/
def inMethod (e : Event) (method : Token) : Event := { e with method := some method }

/-- Names the routine and the position. -/
def located (e : Event) (method : Token) (location : Nat) : Event :=
  { e with method := some method, location := some location }

/-- Gives the event a message of its own. -/
def withMessage (e : Event) (message : String) : Event := { e with message }

/-- Names the pass. -/
def byPass (e : Event) (pass : String) : Event := { e with pass := some pass }

/-- The event on one line. -/
def text (e : Event) : String :=
  match e.pass with
  | some pass => s!"[{e.kind.description}] {pass}: {e.message}"
  | none => s!"[{e.kind.description}] {e.message}"

end Event

/-- A log of events, the earliest first. -/
structure EventLog where
  events : List Event := []
deriving DecidableEq

namespace EventLog

/-- Appends one event. -/
def record (log : EventLog) (e : Event) : EventLog := ⟨log.events ++ [e]⟩

/-- Appends all events of another log. -/
def merge (log other : EventLog) : EventLog := ⟨log.events ++ other.events⟩

/-- The number of events. -/
def size (log : EventLog) : Nat := log.events.length

/-- Whether there are no events. -/
def isEmpty (log : EventLog) : Bool := log.events.isEmpty

/-- The events after the first `count` ones. -/
def since (log : EventLog) (count : Nat) : List Event := log.events.drop count

/-- The events of one kind. -/
def ofKind (log : EventLog) (kind : EventKind) : List Event :=
  log.events.filter (·.kind == kind)

/-- The events of one routine. -/
def ofMethod (log : EventLog) (method : Token) : List Event :=
  log.events.filter (·.method == some method)

/-- The events of one pass. -/
def ofPass (log : EventLog) (pass : String) : List Event :=
  log.events.filter (·.pass == some pass)

/-- The events that report changes of the tree. -/
def edits (log : EventLog) : List Event := log.events.filter (·.kind.isEdit)

/-- The number of events of one kind. -/
def count (log : EventLog) (kind : EventKind) : Nat := (log.ofKind kind).length

/-- The kinds of event that occur, with their numbers. -/
def counts (log : EventLog) : List (EventKind × Nat) :=
  (EventKind.all.map fun kind => (kind, log.count kind)).filter fun entry => entry.2 != 0

/-- The number of different routines that the events name. -/
def methodCount (log : EventLog) : Nat := (log.events.filterMap (·.method)).eraseDups.length

/-- The numbers of changes by kind, in the order of their texts. A log without changes shows
    how many events it has. -/
def summary (log : EventLog) : String :=
  if log.isEmpty then "no events"
  else
    let parts := (log.counts.filter fun entry => entry.1.isEdit).map fun (kind, count) =>
      s!"{count} {kind.description}"
    if parts.isEmpty then s!"{log.size} events"
    else ", ".intercalate (parts.mergeSort fun a b => !(b < a))

end EventLog

end CilFold
