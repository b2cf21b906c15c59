/-
  The check that a routine is valid:

    the body is a container that exists, has no parent and is connected;
    every node reached from the body exists, is connected and is reached once;
    every child of a reached node points back to it;
    a child of a reached node is a block exactly when the node is a container;
    no other node is connected;
    every use-list holds exactly the uses among the reached nodes, each once.

  The check names the first flaw it meets. It ends on every arena, also on one whose child
  links run in circles.
-/
import CilFold.Routine.Traversal

namespace CilFold.Routine

/-- Refuses a body that is not the connected root container. -/
def checkBody (r : Routine) : Except Flaw Unit :=
  match r.node? r.body with
  | none => .error (.bodyDestroyed r.body)
  | some n =>
    if n.parent.isNone && n.connected && n.op.isContainer then .ok ()
    else .error (.bodyNotRoot r.body)

/-- Refuses a child that does not exist, points elsewhere or is out of place. -/
def checkChild (r : Routine) (id : NodeId) (n : Node) (child : NodeId) : Except Flaw Unit :=
  match r.node? child with
  | none => .error (.destroyedChild id child)
  | some c =>
    if c.parent ≠ some id then .error (.foreignChild id child c.parent)
    else if c.op.isBlock ≠ n.op.isContainer then
      .error (.misplacedChild id n.op.opcode child c.op.opcode)
    else .ok ()

/-- The children of a reached node, after the node and each child were checked. -/
def checkReached (r : Routine) (id : NodeId) : Except Flaw (List NodeId) := do
  match r.node? id with
  | none => throw (.destroyed id)
  | some n =>
    if !n.connected then throw (.notConnected id)
    n.children.forM (r.checkChild id n)
    return n.children

/-- The nodes reached from a stack of handles, the latest first. The last child of a node is
    reached first. With one step for each slot of the arena, a handle that is left over must
    have been reached before: all live nodes have been. -/
def reach (r : Routine) : Nat → List NodeId → List NodeId → Except Flaw (List NodeId)
  | _, reached, [] => .ok reached
  | 0, _, id :: _ => .error (.ownedTwice id)
  | steps + 1, reached, id :: rest => do
    if reached.contains id then throw (.ownedTwice id)
    let children ← r.checkReached id
    r.reach steps (id :: reached) (children.reverse ++ rest)

/-- Refuses a connected node that was not reached. -/
def checkMarks (r : Routine) (reached : List NodeId) : Except Flaw Unit :=
  match r.slots.find? fun id => r.isConnected id && !reached.contains id with
  | some id => .error (.unreachable id)
  | none => .ok ()

/-- The reached nodes that use a variable in a given way. -/
def foundUses (r : Routine) (reached : List NodeId) (kind : UseKind) (var : VarId) : List NodeId :=
  reached.filter fun id => (r.op? id).bind Op.use? == some (kind, var)

/-- Refuses a use-list that is no arrangement of the uses found in the tree. -/
def checkUses (r : Routine) (reached : List NodeId) (v : Variable) (kind : UseKind) :
    Except Flaw Unit :=
  let found := r.foundUses reached kind v.id
  if (v.uses kind).isPerm found then .ok ()
  else .error (.useList kind v.id v.name (NodeId.sorted (v.uses kind)) (NodeId.sorted found))

/-- The first flaw of a routine, if it has any. -/
def validate (r : Routine) : Except Flaw Unit := do
  r.checkBody
  let reached ← r.reach r.nodes.size [] [r.body]
  r.checkMarks reached
  r.vars.toList.forM fun v => UseKind.all.forM (r.checkUses reached v)

end CilFold.Routine
