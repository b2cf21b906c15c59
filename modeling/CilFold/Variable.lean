/-
  Variables and their use-lists. A variable keeps, in three lists, the handles of the nodes
  that read it, write it and take its address. Only nodes of the routine's tree are listed.
-/
import CilFold.Declaration

namespace CilFold

/-- The handle of a node: its position in the routine's arena. Handles are never reused. -/
@[ext] structure NodeId where
  index : Nat
deriving DecidableEq

/-- The handle of a variable: its position in the routine's variable table. -/
@[ext] structure VarId where
  index : Nat
deriving DecidableEq

namespace NodeId

/-- The written form of a node handle, such as `#7`. -/
def text (id : NodeId) : String := "#" ++ Nat.repr id.index

/-- The written form of a list of node handles, such as `[#3, #4]`. -/
def listText (ids : List NodeId) : String := "[" ++ ", ".intercalate (ids.map text) ++ "]"

/-- The written form of a parent link. -/
def linkText : Option NodeId → String
  | none => "None"
  | some id => s!"Some({id.text})"

/-- The handles in ascending order. -/
def sorted (ids : List NodeId) : List NodeId := ids.mergeSort fun a b => a.index ≤ b.index

end NodeId

/-- The written form of a variable handle, such as `v3`. -/
def VarId.text (id : VarId) : String := "v" ++ Nat.repr id.index

/-- What a variable stands for. -/
inductive VariableKind where
  | receiver
  | parameter
  | localSlot
  | stackSlot
deriving DecidableEq

namespace VariableKind

/-- All kinds of variable. -/
def all : List VariableKind := [receiver, parameter, localSlot, stackSlot]

/-- The short name of a kind of variable. -/
def name : VariableKind → String
  | receiver => "this"
  | parameter => "param"
  | localSlot => "local"
  | stackSlot => "stack"

/-- The kind with a given short name. -/
def ofName? (s : String) : Option VariableKind := all.find? (·.name == s)

end VariableKind

/-- How a node uses a variable. -/
inductive UseKind where
  | load
  | store
  | address
deriving DecidableEq

namespace UseKind

/-- All kinds of use, in the order in which they are checked. -/
def all : List UseKind := [load, store, address]

/-- The name of a kind of use. -/
def name : UseKind → String
  | load => "load"
  | store => "store"
  | address => "address"

end UseKind

/-- A declared variable with its use-lists. -/
structure Variable where
  id : VarId
  kind : VariableKind
  /-- The number of the variable among those of its kind. -/
  index : UInt16
  name : String
  type : TypeDecl
  loads : List NodeId := []
  stores : List NodeId := []
  addresses : List NodeId := []
deriving DecidableEq

namespace Variable

/-- Whether the variable is the receiver parameter. -/
def isReceiver (v : Variable) : Bool := v.kind == .receiver

/-- The nodes that use the variable in a given way, in the order in which they were listed. -/
def uses (v : Variable) : UseKind → List NodeId
  | .load => v.loads
  | .store => v.stores
  | .address => v.addresses

/-- Applies a function to one use-list. -/
def mapUses (f : List NodeId → List NodeId) : UseKind → Variable → Variable
  | .load, v => { v with loads := f v.loads }
  | .store, v => { v with stores := f v.stores }
  | .address, v => { v with addresses := f v.addresses }

/-- Lists a use at the end, unless it is listed already. -/
def addUse (kind : UseKind) (node : NodeId) : Variable → Variable :=
  mapUses (fun uses => if uses.contains node then uses else uses ++ [node]) kind

/-- Drops the first listing of a use; the others keep their order. -/
def dropUse (kind : UseKind) (node : NodeId) : Variable → Variable :=
  mapUses (fun uses => uses.erase node) kind

/-- Whether no node uses the variable. -/
def isUnused (v : Variable) : Bool := v.loads.isEmpty && v.stores.isEmpty && v.addresses.isEmpty

/-- The kind, the name and the type's full name. -/
def text (v : Variable) : String := s!"{v.kind.name} {v.name} : {v.type.fullName}"

end Variable

end CilFold
