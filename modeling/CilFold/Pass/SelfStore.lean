/-
  Removal of self-stores, the stores of a value into the place it was just read from:

    stobj T(ldflda F(a), ldobj T(ldflda F(b)))   a and b being the same tree
    stloc x(ldloc y)                             x and y having one type and one name

  The second form is removed only if the settings ask for it.
-/
import CilFold.Pass.Inliner

namespace CilFold

namespace Routine

/-- Whether an instruction stores into a field what it read from the same field of the same
    object. -/
def refillsField (r : Routine) (inst : NodeId) : Bool :=
  match r.stobj? inst with
  | none => false
  | some (target, value, storeType) =>
    match r.ldobj? value with
    | none => false
    | some (source, loadType) =>
      storeType.same loadType &&
        match r.ldflda? target, r.ldflda? source with
        | some (targetBase, targetField), some (sourceBase, sourceField) =>
          targetField.same sourceField && r.sameTree targetBase sourceBase
        | _, _ => false

/-- Whether an instruction copies a variable into one of the same type and name. -/
def copiesNamesake (r : Routine) (inst : NodeId) : Bool :=
  match r.stloc? inst with
  | none => false
  | some (target, value) =>
    match r.var? target, (r.ldloc? value).bind r.var? with
    | some x, some y => x.type.same y.type && x.name == y.name
    | _, _ => false

/-- Whether an instruction is a self-store that the settings ask to remove. -/
def isRedundant (r : Routine) (settings : Settings) (inst : NodeId) : Bool :=
  r.refillsField inst || (settings.dropLocalCopies && r.copiesNamesake inst)

end Routine

namespace SelfStore

/-- The name of the pass in events. -/
def name : String := "FixSelfReference"

/-- Removes an instruction if it is a self-store, and goes on at the first instruction that
    may have changed. -/
def visit (ctx : Context) (block : NodeId) (index : Nat) (inst : NodeId) : PassM Nat := do
  let r ← PassM.routine
  if r.isRedundant ctx.settings inst then
    PassM.noteNode name .instructionRemoved index inst
    let inlined ← ctx.vacate block index
    PassM.stepBack index inlined
  else return index + 1

/-- The pass that removes self-stores from control-flow blocks. -/
def pass : Pass where
  name := name
  description := "Removes stores of a value into the location it was just loaded from"
  run ctx := if ctx.settings.dropSelfStores then PassM.scanControlFlow (visit ctx) else return ()

end SelfStore

end CilFold
