/-
  Walks over the tree of a routine, down through the children and up through the parents.

  Each walk is bounded by the size of the arena. On a forest the bound is never reached: a
  path that repeats no node has at most as many nodes as the arena has slots.
-/
import CilFold.Routine.Basic

namespace CilFold.Routine

/-! ## Downwards -/

/-- A node and its descendants at most `depth` levels deep: each node before its children,
    the children from first to last. -/
def preorderTo (r : Routine) : Nat → NodeId → List NodeId
  | 0, _ => []
  | depth + 1, id => id :: (r.children id).flatMap (r.preorderTo depth)

/-- A live node and its descendants: each node before its children, the children from first
    to last. A handle without a node has none. -/
def preorder (r : Routine) (root : NodeId) : List NodeId :=
  if r.isAlive root then r.preorderTo r.nodes.size root else []

/-- A node and its descendants at most `depth` levels deep: each node before its children,
    the children from last to first. -/
def rightFirstTo (r : Routine) : Nat → NodeId → List NodeId
  | 0, _ => []
  | depth + 1, id => id :: (r.children id).reverse.flatMap (r.rightFirstTo depth)

/-- A node and its descendants in the order in which their uses of variables are listed: each
    node before its children, the children from last to first. -/
def rightFirst (r : Routine) (root : NodeId) : List NodeId := r.rightFirstTo r.nodes.size root

/-- The containers of the tree, in preorder. -/
def containers (r : Routine) : List NodeId := (r.preorder r.body).filter r.isContainer

/-! ## Upwards -/

/-- The ancestors of a node from its parent upwards, at most `height` of them. -/
def ancestorsTo (r : Routine) : Nat → NodeId → List NodeId
  | 0, _ => []
  | height + 1, id =>
    match r.parent? id with
    | none => []
    | some parent => parent :: r.ancestorsTo height parent

/-- A node and its ancestors, from the node upwards. -/
def lineage (r : Routine) (id : NodeId) : List NodeId := id :: r.ancestorsTo r.nodes.size id

/-- Whether one node is the other or one of its ancestors. -/
def encloses (r : Routine) (ancestor id : NodeId) : Bool := (r.lineage id).contains ancestor

/-- The topmost node above a node; the node itself if it has no parent. -/
def topOf (r : Routine) (id : NodeId) : NodeId := (r.lineage id).getLastD id

/-! ## First facts -/

@[simp] theorem encloses_self (r : Routine) (id : NodeId) : r.encloses id id = true := by
  simp [encloses, lineage]

theorem topOf_of_parent?_eq_none {r : Routine} {id : NodeId} (h : r.parent? id = none) :
    r.topOf id = id := by
  rw [topOf, lineage]
  cases r.nodes.size with
  | zero => rfl
  | succ height => rw [ancestorsTo, h]; rfl

end CilFold.Routine
