/-
  Recognisers: each looks at one node and either gives its parts or declines. The last
  section compares whole subtrees.
-/
import CilFold.Routine.Traversal

namespace CilFold.Routine

/-! ## Shapes of one node -/

/-- The variable and the value of `stloc`. -/
def stloc? (r : Routine) (id : NodeId) : Option (VarId × NodeId) :=
  match r.node? id with
  | some { op := .stloc var, children := [value], .. } => some (var, value)
  | _ => none

/-- The variable of `ldloc`. -/
def ldloc? (r : Routine) (id : NodeId) : Option VarId :=
  match r.op? id with
  | some (.ldloc var) => some var
  | _ => none

/-- The variable of `ldloca`. -/
def ldloca? (r : Routine) (id : NodeId) : Option VarId :=
  match r.op? id with
  | some (.ldloca var) => some var
  | _ => none

/-- The receiver variable that a node loads. -/
def receiverLoad? (r : Routine) (id : NodeId) : Option Variable := do
  let var ← r.ldloc? id
  let v ← r.var? var
  if v.isReceiver then some v else none

/-- The address and the type of `ldobj`. -/
def ldobj? (r : Routine) (id : NodeId) : Option (NodeId × TypeDecl) :=
  match r.node? id with
  | some { op := .ldobj type, children := [address], .. } => some (address, type)
  | _ => none

/-- The address, the value and the type of `stobj`. -/
def stobj? (r : Routine) (id : NodeId) : Option (NodeId × NodeId × TypeDecl) :=
  match r.node? id with
  | some { op := .stobj type, children := [address, value], .. } => some (address, value, type)
  | _ => none

/-- The target and the field of `ldflda`. -/
def ldflda? (r : Routine) (id : NodeId) : Option (NodeId × FieldDecl) :=
  match r.node? id with
  | some { op := .ldflda field, children := [target], .. } => some (target, field)
  | _ => none

/-- The constructor and the arguments of `newobj`. -/
def newobj? (r : Routine) (id : NodeId) : Option (MethodDecl × List NodeId) :=
  match r.node? id with
  | some { op := .call site, children := args, .. } =>
    if site.isNewobj then some (site.method, args) else none
  | _ => none

/-- Whether a node is `nop`. -/
def isNop (r : Routine) (id : NodeId) : Bool :=
  match r.op? id with
  | some .nop => true
  | _ => false

/-- The value and the type of `unbox`. -/
def unbox? (r : Routine) (id : NodeId) : Option (NodeId × TypeDecl) :=
  match r.node? id with
  | some { op := .unbox type, children := [value], .. } => some (value, type)
  | _ => none

/-! ## Whole subtrees -/

/-- Whether every node of a subtree is pure on its own. -/
def isPureTree (r : Routine) (root : NodeId) : Bool :=
  (r.preorder root).all fun id => (r.op? id).any Op.isPure

/-- Whether two subtrees of at most `depth` levels have one shape with the same operands. -/
def sameTreeTo (r : Routine) : Nat → NodeId → NodeId → Bool
  | 0, _, _ => false
  | depth + 1, a, b =>
    if a = b then r.isAlive a
    else
      match r.node? a, r.node? b with
      | some x, some y =>
        x.op.alike y.op && x.children.length == y.children.length &&
          (x.children.zip y.children).all fun pair => r.sameTreeTo depth pair.1 pair.2
      | _, _ => false

/-- Whether two live subtrees have one shape with the same operands at every place. -/
def sameTree (r : Routine) (a b : NodeId) : Bool := r.sameTreeTo r.nodes.size a b

end CilFold.Routine
