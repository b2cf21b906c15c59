/-
  Stripping of receiver aliases. An alias is a variable with a name made by a compiler, whose
  only store is `stloc alias(ldloc this)` and whose address is never taken. Its loads become
  loads of the receiver, and the store goes.
-/
import CilFold.Pass.Inliner

namespace CilFold

/-- The alias that an instruction defines, and the load of the receiver it stores. -/
def Routine.alias? (r : Routine) (settings : Settings) (inst : NodeId) :
    Option (VarId × NodeId) := do
  let (var, value) ← r.stloc? inst
  let v ← r.var? var
  if !v.isReceiver && settings.isGenerated v.name && (r.receiverLoad? value).isSome &&
      v.stores.length == 1 && v.addresses.isEmpty then
    some (var, value)
  else none

namespace Alias

/-- The name of the pass in events. -/
def name : String := "RemoveCompilerGeneratedThis"

/-- Puts a copy of the receiver's load into the place of each of the given loads. -/
def replaceLoads (index : Nat) (receiver : NodeId) (loads : List NodeId) : PassM Unit :=
  loads.forM fun load => do
    let copy ← PassM.edit (Edit.clone receiver)
    PassM.edit (Edit.replace load copy)
    PassM.noteNode name .loadReplaced index copy

/-- Strips an alias if an instruction defines one, and goes on at the first instruction that
    may have changed. -/
def visit (ctx : Context) (block : NodeId) (index : Nat) (inst : NodeId) : PassM Nat := do
  let r ← PassM.routine
  match r.alias? ctx.settings inst with
  | none => return index + 1
  | some (var, receiver) => do
    replaceLoads index receiver (r.loads var)
    PassM.noteNode name .instructionRemoved index inst
    let inlined ← ctx.vacate block index
    PassM.stepBack index inlined

/-- The pass that strips receiver aliases from control-flow blocks. -/
def pass : Pass where
  name := name
  description := "Replaces compiler-generated aliases of the receiver with the receiver itself"
  run ctx := do
    let r ← PassM.routine
    if ctx.settings.stripAliases && r.receiver?.isSome then
      PassM.scanControlFlow (visit ctx)

end Alias

end CilFold
