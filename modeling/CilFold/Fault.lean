/-
  What can go wrong. A `Flaw` is a way in which a routine fails to be valid; a `Fault` is the
  reason why an operation was refused. Each has one written form.
-/
import CilFold.Opcode
import CilFold.Variable

namespace CilFold

/-- The place in a tree that a node was expected to be fit for. -/
inductive Role where
  | container
  | block
  | instruction
  | operand
deriving DecidableEq

/-- The name of a role. -/
def Role.name : Role → String
  | container => "block container"
  | block => "block"
  | instruction => "instruction"
  | operand => "operand"

/-- A way in which a routine fails to be valid. -/
inductive Flaw where
  /-- The body's slot is empty. -/
  | bodyDestroyed (body : NodeId)
  /-- The body has a parent, is not connected or is no container. -/
  | bodyNotRoot (body : NodeId)
  /-- A node is reached through two child slots. -/
  | ownedTwice (node : NodeId)
  /-- A reached handle has no node. -/
  | destroyed (node : NodeId)
  /-- A reached node is not marked as connected. -/
  | notConnected (node : NodeId)
  /-- A reached node lists a child that does not exist. -/
  | destroyedChild (node child : NodeId)
  /-- A reached node lists a child that points to another parent. -/
  | foreignChild (node child : NodeId) (parent : Option NodeId)
  /-- A block outside a container, or something else inside one. -/
  | misplacedChild (node : NodeId) (opcode : Opcode) (child : NodeId) (childOpcode : Opcode)
  /-- A node is marked as connected but is not reached. -/
  | unreachable (node : NodeId)
  /-- A use-list differs from the uses in the tree; both are given in ascending order. -/
  | useList (kind : UseKind) (id : VarId) (name : String) (listed found : List NodeId)
  /-- A node's parent does not list the node. -/
  | unlisted (node parent : NodeId)
deriving DecidableEq

/-- The written form of a flaw. -/
def Flaw.message : Flaw → String
  | bodyDestroyed body => s!"function body {body.text} was destroyed"
  | bodyNotRoot body => s!"function body {body.text} is not a connected root container"
  | ownedTwice node => s!"{node.text} is owned more than once"
  | destroyed node => s!"{node.text} is referenced but destroyed"
  | notConnected node => s!"{node.text} is reachable but not connected"
  | destroyedChild node child => s!"{node.text} has destroyed child {child.text}"
  | foreignChild node child parent =>
    s!"{node.text} lists child {child.text} whose parent is {NodeId.linkText parent}"
  | misplacedChild node opcode child childOpcode =>
    s!"{node.text} ({opcode.name}) has misplaced child {child.text} ({childOpcode.name})"
  | unreachable node => s!"{node.text} is connected but unreachable from the body"
  | useList kind id name listed found =>
    s!"{kind.name} use-list of {id.text} ({name}) is {NodeId.listText listed}, " ++
      s!"tree has {NodeId.listText found}"
  | unlisted node parent => s!"{node.text} is not among the children of {parent.text}"

/-- The reason why an operation was refused. -/
inductive Fault where
  /-- An operation was given the wrong number of operands. -/
  | arity (opcode : Opcode) (expected actual : Nat)
  /-- A return was given more than one operand. -/
  | returnArity (actual : Nat)
  /-- A call was asked for with a mnemonic outside the call family. -/
  | notACall (opcode : Opcode)
  /-- The routine is not valid. -/
  | malformed (flaw : Flaw)
  /-- The handle has no node. -/
  | missing (node : NodeId)
  /-- The node has no parent. -/
  | unattached (node : NodeId)
  /-- The node belongs to a tree already, or would become its own descendant. -/
  | owned (node : NodeId)
  /-- The position lies outside a block of the given length. -/
  | badIndex (index length : Nat)
  /-- The node is not fit for the place. -/
  | wrongRole (node : NodeId) (expected : Role)
  /-- The variable is not declared. -/
  | unknownVariable (id : VarId)
deriving DecidableEq

/-- The written form of a fault. -/
def Fault.message : Fault → String
  | arity opcode expected actual =>
    s!"Invalid argument - {opcode.name} expects {expected} operands, got {actual}"
  | returnArity actual => s!"Invalid argument - ret expects at most 1 operand, got {actual}"
  | notACall opcode => s!"Invalid argument - {opcode.name} is not a valid call opcode"
  | malformed flaw => s!"Malformed - {flaw.message}"
  | missing node => s!"Node {node.text} does not exist"
  | unattached node => s!"Node {node.text} is not attached to a parent"
  | owned node => s!"Node {node.text} is already owned by another node"
  | badIndex index length => s!"Index {index} is out of range for a block of {length} instructions"
  | wrongRole node expected => s!"Node {node.text} is not a {expected.name}"
  | unknownVariable id => s!"Variable {id.text} does not exist"

end CilFold
