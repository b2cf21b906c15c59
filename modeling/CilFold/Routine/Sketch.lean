/-
  Sketches: trees that are yet to be built. Building allocates the nodes of a sketch in a
  fixed order, the operands of a node from first to last and then the node itself. The first
  refusal ends the building; the nodes built until then stay, detached.
-/
import CilFold.Routine.Edit

namespace CilFold

mutual

/-- A tree that is yet to be built. The operation of a node may itself be faulty; that comes
    to light when its operands have been built. -/
inductive Sketch where
  /-- A node that exists already. -/
  | existing (id : NodeId)
  /-- An operation over its operands. -/
  | node (op : Except Fault Op) (operands : List Sketch)
  /-- A container with its blocks. -/
  | container (blocks : List BlockSketch)
  /-- A block of its own. -/
  | block (block : BlockSketch)
  /-- A number of nodes with one operand each, stacked on an innermost tree. -/
  | nest (count : Nat) (op : Except Fault Op) (inner : Sketch)

/-- A block that is yet to be built. -/
inductive BlockSketch where
  | mk (kind : BlockKind) (body : List Sketch)

end

namespace Edit

/-- The operation, or the refusal that its making ended in. -/
def operation : Except Fault Op → Edit Op
  | .ok op => return op
  | .error fault => throw fault

/-- Stacks a number of nodes with one operand each. -/
def stack (op : Except Fault Op) : Nat → NodeId → Edit NodeId
  | 0, id => return id
  | count + 1, id => do
    let above ← create (← operation op) [id]
    stack op count above

mutual

/-- Builds a sketch and gives its topmost node. -/
def build : Sketch → Edit NodeId
  | .existing id => return id
  | .node op operands => do
    let ids ← buildEach operands
    create (← operation op) ids
  | .container blocks => do
    let id ← alloc .container []
    buildBlocks id blocks
    return id
  | .block (.mk kind body) => do
    let id ← create (.block kind) []
    buildInto id body
    return id
  | .nest count op inner => do
    let id ← build inner
    stack op count id

/-- Builds sketches from first to last. -/
def buildEach : List Sketch → Edit (List NodeId)
  | [] => return []
  | sketch :: rest => do
    let id ← build sketch
    let ids ← buildEach rest
    return id :: ids

/-- Builds instructions and appends each to a block before the next is built. -/
def buildInto (block : NodeId) : List Sketch → Edit Unit
  | [] => return ()
  | sketch :: rest => do
    push block (← build sketch)
    buildInto block rest

/-- Appends blocks to a container and fills each before the next is appended. -/
def buildBlocks (container : NodeId) : List BlockSketch → Edit Unit
  | [] => return ()
  | .mk kind body :: rest => do
    buildInto (← newBlock container kind) body
    buildBlocks container rest

end

end Edit

end CilFold
