/-
  Folding of captured receivers. A closure over the receiver makes a compiler construct a
  capture object from it, keep the object in a variable and reach everything through fields
  of the object:

    stloc cap(newobj Capture::.ctor(ldloc this))
    stobj Int32(ldflda value(ldloc cap), ldloc x)
    call Draw(ldobj Widget(ldflda this(ldloc cap)))
    call Use(ldflda value(ldloc cap))

  The pass takes the object away again, and `cap` gets the type of the receiver:

    stloc cap(ldloc this)
    call Draw(ldloc cap)
    call Use(ldloca x)

  A wrapper is `ldobj T(ldflda F(ldloc cap))` where T is the receiver's type. A forwarding
  store is `stobj T(ldflda F(ldloc cap), value)` in a block, where F is a field of the
  capture type and the value is `ldloc x` or an `unbox`. A field is forwarded when it has
  one forwarding store.
-/
import CilFold.Pass.Inliner

namespace CilFold

/-- The construction of a capture object. -/
structure Capture where
  /-- The variable that holds the object. -/
  holder : VarId
  /-- The node that loads the receiver. -/
  receiver : NodeId
  receiverType : TypeDecl
  captureType : TypeDecl

/-- What stands for a forwarded field. -/
inductive ForwardSource where
  /-- The variable whose value was stored. -/
  | loaded (id : VarId)
  /-- The `unbox` whose value was stored. -/
  | unboxed (id : NodeId)
deriving DecidableEq

/-- A forwarding store. -/
structure Forward where
  store : NodeId
  field : FieldDecl
  source : ForwardSource

/-- The uses of a capture object that can be folded. -/
structure CapturePlan where
  wrappers : List NodeId
  forwards : List Forward

/-- A store with its place in the tree. -/
structure PlacedStore where
  store : NodeId
  owner : NodeId
  position : Nat

namespace Routine

/-- The construction of a capture object that an instruction stores. -/
def capture? (r : Routine) (settings : Settings) (inst : NodeId) : Option Capture := do
  let (holder, value) ← r.stloc? inst
  let v ← r.var? holder
  if settings.isGenerated v.type.name then
    match r.newobj? value with
    | some (method, [receiver]) =>
      if method.isConstructor then
        let this ← r.receiverLoad? receiver
        some { holder, receiver, receiverType := this.type, captureType := v.type }
      else none
    | _ => none
  else none

/-- The wrapper around a load of the capture object. -/
def wrapper? (r : Routine) (c : Capture) (load : NodeId) : Option NodeId := do
  let address ← r.parent? load
  let _ ← r.ldflda? address
  let wrapper ← r.parent? address
  let (_, type) ← r.ldobj? wrapper
  if type.same c.receiverType then some wrapper else none

/-- What stands for a field after a value was stored into it. The capture object itself
    cannot. -/
def forwardSource? (r : Routine) (c : Capture) (value : NodeId) : Option ForwardSource :=
  match r.ldloc? value with
  | some var => if var = c.holder then none else some (.loaded var)
  | none => if (r.unbox? value).isSome then some (.unboxed value) else none

/-- The forwarding store around a load of the capture object. -/
def forward? (r : Routine) (c : Capture) (load : NodeId) : Option Forward := do
  let address ← r.parent? load
  let (_, field) ← r.ldflda? address
  let store ← r.parent? address
  let (target, value, _) ← r.stobj? store
  let owner ← r.parent? store
  if field.owner.same c.captureType && target == address && r.isBlock owner then
    let source ← r.forwardSource? c value
    some { store, field, source }
  else none

/-- The wrappers and the forwarding stores of a capture object, in the order of the loads. A
    field with two forwarding stores is not forwarded. -/
def capturePlan (r : Routine) (c : Capture) : CapturePlan :=
  let loads := r.loads c.holder
  let stores := (loads.filter fun load => (r.wrapper? c load).isNone).filterMap (r.forward? c)
  { wrappers := loads.filterMap (r.wrapper? c)
    forwards := stores.filter fun f => stores.countP (·.field.same f.field) == 1 }

/-- What stands for the field whose address a load of the capture object is used for, unless
    the load belongs to a forwarding store. -/
def reference? (r : Routine) (plan : CapturePlan) (load : NodeId) :
    Option (NodeId × ForwardSource) := do
  if r.isConnected load && !plan.forwards.any (fun f => r.encloses f.store load) then
    let address ← r.parent? load
    let (_, field) ← r.ldflda? address
    let forward ← plan.forwards.find? (·.field.same field)
    some (address, forward.source)
  else none

/-- The place of a store that is still part of a tree. -/
def placed? (r : Routine) (store : NodeId) : Option PlacedStore := do
  let owner ← r.parent? store
  let position ← r.position? store
  some { store, owner, position }

/-- The store with the highest position; the last one of several. -/
def lastPlaced? (r : Routine) (stores : List NodeId) : Option PlacedStore :=
  (stores.filterMap r.placed?).foldl
    (fun best next =>
      match best with
      | some b => if next.position < b.position then some b else some next
      | none => some next)
    none

end Routine

namespace CapturedReceiver

/-- The name of the pass in events. -/
def name : String := "FixCompilerGeneratedThis"

/-- Replaces each wrapper by a load of the variable. -/
def collapseWrappers (index : Nat) (holder : VarId) (wrappers : List NodeId) : PassM Unit :=
  wrappers.forM fun wrapper => do
    let r ← PassM.routine
    if r.isConnected wrapper then
      let load ← PassM.edit (Edit.alloc (.ldloc holder) [])
      PassM.edit (Edit.replace wrapper load)
      PassM.note name .wrapperCollapsed index EventKind.wrapperCollapsed.description

/-- A fresh tree for what stands for a forwarded field: the variable's address, or a copy of
    the `unbox`. -/
def standIn : ForwardSource → Edit NodeId
  | .loaded var => Edit.alloc (.ldloca var) []
  | .unboxed id => Edit.clone id

/-- Replaces each address of a forwarded field by what stands for the field. -/
def foldReferences (index : Nat) (plan : CapturePlan) (loads : List NodeId) : PassM Unit :=
  loads.forM fun load => do
    let r ← PassM.routine
    match r.reference? plan load with
    | none => return ()
    | some (address, source) => do
      let new ← PassM.edit (standIn source)
      PassM.edit (Edit.replace address new)
      PassM.noteNode name .fieldReferenceFolded index new

/-- Replaces the construction by a copy of the receiver's load. -/
def replaceConstruction (block : NodeId) (index : Nat) (c : Capture) : PassM Unit := do
  let inst ← PassM.instruction block index
  let receiver ← PassM.edit (Edit.clone c.receiver)
  let store ← PassM.edit (Edit.create (.stloc c.holder) [receiver])
  PassM.edit (Edit.replace inst store)
  PassM.noteNode name .storeReplaced index store

/-- Takes a store out of a list; the last one moves to its place. -/
def dropStore (stores : List NodeId) (store : NodeId) : List NodeId :=
  match stores.getLast? with
  | some last => (stores.replace store last).dropLast
  | none => []

/-- Removes forwarding stores, the highest position first, and gives the index at which the
    scan of the block goes on. Stores that went with another one are passed over. -/
def removeForwards (ctx : Context) (block : NodeId) : Nat → List NodeId → Nat → PassM Nat
  | 0, _, next => return next
  | count + 1, stores, next => do
    let r ← PassM.routine
    match r.lastPlaced? stores with
    | none => return next
    | some placed => do
      PassM.noteNode name .instructionRemoved placed.position placed.store
      let inlined ← ctx.vacate placed.owner placed.position
      let next ← if placed.owner == block then rewind next placed.position inlined else pure next
      removeForwards ctx block count (dropStore stores placed.store) next

/-- Folds one capture object into its receiver, and gives the index at which the scan of the
    block goes on. -/
def fold (ctx : Context) (block : NodeId) (index : Nat) (c : Capture) : PassM Nat := do
  PassM.edit (Edit.retype c.holder c.receiverType)
  PassM.note name .variableRetyped index s!"{c.captureType.fullName} -> {c.receiverType.fullName}"
  let r ← PassM.routine
  let plan := r.capturePlan c
  collapseWrappers index c.holder plan.wrappers
  let r ← PassM.routine
  foldReferences index plan (r.loads c.holder)
  replaceConstruction block index c
  removeForwards ctx block plan.forwards.length (plan.forwards.map (·.store)) (index + 1)

/-- Folds the capture object that an instruction constructs, if it does. -/
def visit (ctx : Context) (block : NodeId) (index : Nat) (inst : NodeId) : PassM Nat := do
  let r ← PassM.routine
  match r.capture? ctx.settings inst with
  | none => return index + 1
  | some c => fold ctx block index c

/-- The pass that folds captured receivers in the entry blocks. -/
def pass : Pass where
  name := name
  description := "Folds compiler-generated receiver captures back into direct uses of the receiver"
  run ctx := if ctx.settings.foldCaptures then PassM.scanEntries (visit ctx) else return ()

end CapturedReceiver

end CilFold
