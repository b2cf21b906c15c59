/-
  Inliners.

  The single-use inliner looks at the definitions right in front of a position, the nearest
  first. It folds `stloc v(value)` into the instruction at the position when

    v has this one store, one load and no address taken;
    v is a stack slot, or the aggressive option is set;
    the load lies in the instruction, not inside a nested block;
    all that the instruction evaluates before the load is pure.

  It stops at the first definition that cannot be folded.
-/
import CilFold.Pass.Basic

namespace CilFold

namespace Routine

/-- Whether a node lies at most `height` levels below a target, with nothing but pure operands
    evaluated before it and no block on the way. -/
def evaluatedFirstTo (r : Routine) (target : NodeId) : Nat → NodeId → Bool
  | 0, _ => false
  | height + 1, id =>
    id == target ||
      match r.parent? id with
      | none => false
      | some parent =>
        match r.node? parent with
        | none => false
        | some p =>
          !(p.op.isBlock || p.op.isContainer) && p.children.contains id &&
            (p.children.takeWhile (· != id)).all r.isPureTree &&
            r.evaluatedFirstTo target height parent

/-- Whether a node lies in a target, with nothing but pure operands evaluated before it and no
    block on the way. -/
def evaluatedFirst (r : Routine) (target id : NodeId) : Bool :=
  r.evaluatedFirstTo target r.nodes.size id

/-- The value of a definition and the one load that it can be folded into. -/
def foldable? (r : Routine) (target : NodeId) (options : InlineOptions) (definition : NodeId) :
    Option (NodeId × NodeId) := do
  let (var, value) ← r.stloc? definition
  let v ← r.var? var
  match v.stores, v.loads, v.addresses with
  | [_], [load], [] =>
    if (v.kind == .stackSlot || options.isAggressive) && r.evaluatedFirst target load then
      some (value, load)
    else none
  | _, _, _ => none

end Routine

namespace Inliner

/-- Folds the definitions in front of an index into a target, as long as they can be folded,
    and gives their number. -/
def foldInto (block target : NodeId) (options : InlineOptions) : Nat → PassM Nat
  | 0 => return 0
  | index + 1 => do
    let definition ← PassM.instruction block index
    let r ← PassM.routine
    match r.foldable? target options definition with
    | none => return 0
    | some (value, load) => do
      let value ← PassM.edit (Edit.extract value)
      PassM.edit (Edit.replace load value)
      PassM.edit (Edit.remove block index)
      PassM.noteNode "inliner" .valueInlined index value
      let more ← foldInto block target options index
      return more + 1

/-- The single-use inliner. -/
def singleUse : Inliner := fun block index options => do
  let r ← PassM.routine
  match (r.instructions block)[index]? with
  | none => return 0
  | some target => foldInto block target options index

/-- The inliner that leaves everything as it is. -/
def idle : Inliner := fun _ _ _ => return 0

/-- The inliner that notes each answered request to another one. -/
def recording (inner : Inliner) : Inliner := fun block index options => do
  let consumed ← inner block index options
  modify fun w => { w with requests := w.requests ++ [{ block, index, options, consumed }] }
  return consumed

end Inliner

end CilFold
