/-
  Routines: a decompiled method as a tree of operations.

  The nodes live in an arena and are named by their position in it. A node lists its
  children and points back to its parent. A destroyed node leaves an empty slot, and slots
  are never used again. A node is connected when it belongs to the tree below the body.
-/
import CilFold.Operation

namespace CilFold

/-- A tree node. -/
structure Node where
  op : Op
  children : List NodeId
  parent : Option NodeId := none
  /-- Whether the node belongs to the tree below the body. -/
  connected : Bool := false
deriving DecidableEq

/-- A decompiled method: an arena of nodes, a variable table and the root of the tree. -/
structure Routine where
  token : Token
  name : String
  nodes : Array (Option Node)
  vars : Array Variable
  body : NodeId
deriving DecidableEq

namespace Routine

/-- The routine whose body is an empty container. -/
def empty (token : Token) (name : String) : Routine where
  token := token
  name := name
  nodes := #[some { op := .container, children := [], connected := true }]
  vars := #[]
  body := ⟨0⟩

/-! ## Variables -/

/-- The variable with a given handle. -/
def var? (r : Routine) (id : VarId) : Option Variable := r.vars[id.index]?

/-- The first variable that is the receiver. -/
def receiver? (r : Routine) : Option VarId := (r.vars.find? (·.isReceiver)).map (·.id)

/-- The name of a variable in messages: its handle when it is not declared. -/
def variableName (r : Routine) (id : VarId) : String :=
  match r.var? id with
  | some v => v.name
  | none => id.text

/-- The nodes that load a variable, in the order of its use-list. -/
def loads (r : Routine) (id : VarId) : List NodeId :=
  match r.var? id with
  | some v => v.loads
  | none => []

/-- Applies a function to a declared variable. -/
def modifyVariable (r : Routine) (id : VarId) (f : Variable → Variable) : Routine :=
  { r with vars := r.vars.modify id.index f }

/-! ## Nodes -/

/-- The node with a given handle, unless it was destroyed or never existed. -/
def node? (r : Routine) (id : NodeId) : Option Node := (r.nodes[id.index]?).getD none

/-- Whether a handle has a node. -/
def isAlive (r : Routine) (id : NodeId) : Bool := (r.node? id).isSome

/-- Whether a handle has a node that belongs to the tree. -/
def isConnected (r : Routine) (id : NodeId) : Bool := (r.node? id).any (·.connected)

/-- The operation of a node. -/
def op? (r : Routine) (id : NodeId) : Option Op := (r.node? id).map (·.op)

/-- The children of a node, none for a handle without a node. -/
def children (r : Routine) (id : NodeId) : List NodeId :=
  match r.node? id with
  | some n => n.children
  | none => []

/-- The parent of a node. -/
def parent? (r : Routine) (id : NodeId) : Option NodeId := (r.node? id).bind (·.parent)

/-- The first position of a node among its parent's children. -/
def position? (r : Routine) (id : NodeId) : Option Nat :=
  (r.parent? id).bind fun parent => (r.children parent).idxOf? id

/-- The handle that the next node will get. -/
def nextId (r : Routine) : NodeId := ⟨r.nodes.size⟩

/-- The handles of all slots, empty or not. -/
def slots (r : Routine) : List NodeId := (List.range r.nodes.size).map NodeId.mk

/-- The number of handles that have a node. -/
def liveCount (r : Routine) : Nat := r.nodes.countP (·.isSome)

/-- Applies a function to the node with a given handle, if there is one. -/
def modifyNode (r : Routine) (id : NodeId) (f : Node → Node) : Routine :=
  { r with nodes := r.nodes.modify id.index (·.map f) }

/-- Points a node to a parent, or to none. -/
def setParent (r : Routine) (id : NodeId) (parent : Option NodeId) : Routine :=
  r.modifyNode id fun n => { n with parent }

/-- Applies a function to the children that a node lists. The children are not touched. -/
def mapChildren (r : Routine) (id : NodeId) (f : List NodeId → List NodeId) : Routine :=
  r.modifyNode id fun n => { n with children := f n.children }

/-! ## Blocks and containers -/

/-- Whether a handle has a block. -/
def isBlock (r : Routine) (id : NodeId) : Bool := (r.op? id).any Op.isBlock

/-- Whether a handle has a container. -/
def isContainer (r : Routine) (id : NodeId) : Bool := (r.op? id).any Op.isContainer

/-- The blocks of a container, none for other nodes. -/
def blocks (r : Routine) (container : NodeId) : List NodeId :=
  if r.isContainer container then r.children container else []

/-- The first block of a container. -/
def entry? (r : Routine) (container : NodeId) : Option NodeId := (r.blocks container).head?

/-- The instructions of a block, none for other nodes. -/
def instructions (r : Routine) (block : NodeId) : List NodeId :=
  if r.isBlock block then r.children block else []

/-- What a block is for; nothing for other nodes. -/
def blockKind? (r : Routine) (block : NodeId) : Option BlockKind :=
  match r.op? block with
  | some (.block kind) => some kind
  | _ => none

/-! ## What one change does to the views -/

@[simp] theorem size_modifyNode (r : Routine) (id : NodeId) (f : Node → Node) :
    (r.modifyNode id f).nodes.size = r.nodes.size := by
  simp [modifyNode]

/-- Changing one node changes the view of that node only. -/
theorem node?_modifyNode (r : Routine) (id k : NodeId) (f : Node → Node) :
    (r.modifyNode id f).node? k = if k = id then (r.node? k).map f else r.node? k := by
  simp only [node?, modifyNode, Array.getElem?_modify]
  by_cases h : k = id
  · subst h
    cases r.nodes[k.index]? <;> simp
  · have hne : id.index ≠ k.index := fun he => h (NodeId.ext he.symm)
    rw [if_neg h, if_neg hne]

/-- Changing one variable changes the view of that variable only. -/
theorem var?_modifyVariable (r : Routine) (id k : VarId) (f : Variable → Variable) :
    (r.modifyVariable id f).var? k = if k = id then (r.var? k).map f else r.var? k := by
  simp only [var?, modifyVariable, Array.getElem?_modify]
  by_cases h : k = id
  · rw [if_pos h, if_pos (congrArg VarId.index h).symm]
  · have hne : id.index ≠ k.index := fun he => h (VarId.ext he.symm)
    rw [if_neg h, if_neg hne]

@[simp] theorem node?_modifyVariable (r : Routine) (id : VarId) (f : Variable → Variable)
    (k : NodeId) : (r.modifyVariable id f).node? k = r.node? k := rfl

@[simp] theorem var?_modifyNode (r : Routine) (id : NodeId) (f : Node → Node) (k : VarId) :
    (r.modifyNode id f).var? k = r.var? k := rfl

/-- A handle behind the end of the arena has no node. -/
theorem node?_eq_none_of_size_le {r : Routine} {id : NodeId} (h : r.nodes.size ≤ id.index) :
    r.node? id = none := by
  simp [node?, h]

/-- A handle with a node lies inside the arena. -/
theorem index_lt_of_node? {r : Routine} {id : NodeId} {n : Node} (h : r.node? id = some n) :
    id.index < r.nodes.size := by
  rcases Nat.lt_or_ge id.index r.nodes.size with hlt | hge
  · exact hlt
  · rw [node?_eq_none_of_size_le hge] at h
    cases h

theorem children_of_node? {r : Routine} {id : NodeId} {n : Node} (h : r.node? id = some n) :
    r.children id = n.children := by
  rw [children, h]

end Routine

end CilFold
