/-
  Edits of a routine. An edit checks its arguments first and then changes the child slot, the
  parent link, the connected marks and the use-lists, one after the other. A later change looks
  up the node it is about; where that one is missing, the edit is refused halfway and leaves
  what it has done so far.

  Fresh nodes and nodes that were taken out are detached: they have no parent, are not
  connected and are in no use-list. Nodes that are removed or replaced are destroyed.
-/
import CilFold.Routine.Traversal

namespace CilFold

/-! ## Changes of the arena -/

namespace Routine

/-- Puts a fresh detached node at the end of the arena and points its children to it. -/
def grow (r : Routine) (op : Op) (children : List NodeId) : Routine :=
  let linked := children.foldl (fun s child => s.setParent child (some r.nextId)) r
  { linked with nodes := linked.nodes.push (some { op, children }) }

/-- Lists or drops a node in the use-list of the variable that its operation uses. Variables
    that are not declared have no use-lists. -/
def register (r : Routine) (id : NodeId) (op : Op) (connected : Bool) : Routine :=
  match op.use? with
  | none => r
  | some (kind, var) =>
    r.modifyVariable var (if connected then Variable.addUse kind id else Variable.dropUse kind id)

/-- Marks one node as connected or not, and lists or drops its use of a variable. A node that
    bears the mark already is left alone. -/
def mark (connected : Bool) (r : Routine) (id : NodeId) : Routine :=
  match r.node? id with
  | none => r
  | some n =>
    if n.connected == connected then r
    else (r.modifyNode id fun n => { n with connected }).register id n.op connected

/-- Marks a subtree as part of the tree and lists its uses of variables. -/
def connect (r : Routine) (root : NodeId) : Routine := (r.rightFirst root).foldl (mark true) r

/-- Marks a subtree as outside the tree and drops its uses of variables. -/
def disconnect (r : Routine) (root : NodeId) : Routine := (r.rightFirst root).foldl (mark false) r

/-- Empties the slots of a subtree. -/
def destroy (r : Routine) (root : NodeId) : Routine :=
  { r with
    nodes := (r.preorder root).foldl (fun nodes id => nodes.setIfInBounds id.index none) r.nodes }

/-! ## What the changes do to the arena -/

@[simp] theorem size_setParents (r : Routine) (parent : Option NodeId) (ids : List NodeId) :
    (ids.foldl (fun s id => s.setParent id parent) r).nodes.size = r.nodes.size := by
  induction ids generalizing r with
  | nil => rfl
  | cons id ids ih => rw [List.foldl_cons, ih, setParent, size_modifyNode]

@[simp] theorem size_grow (r : Routine) (op : Op) (children : List NodeId) :
    (r.grow op children).nodes.size = r.nodes.size + 1 := by
  simp [grow]

/-- The fresh node is detached and has the next handle. -/
theorem node?_grow_nextId (r : Routine) (op : Op) (children : List NodeId) :
    (r.grow op children).node? r.nextId = some { op, children } := by
  have h : r.nextId.index = _ := (size_setParents r (some r.nextId) children).symm
  simp only [grow, node?]
  rw [Array.getElem?_push, if_pos h]
  rfl

@[simp] theorem size_mark (connected : Bool) (r : Routine) (id : NodeId) :
    (mark connected r id).nodes.size = r.nodes.size := by
  unfold mark register
  split
  · rfl
  · split
    · rfl
    · split <;> simp [modifyVariable]

/-- Marking a node changes nothing in the arena but its mark. -/
theorem node?_mark (connected : Bool) (r : Routine) (id k : NodeId) :
    (mark connected r id).node? k =
      if k = id then (r.node? k).map fun n => { n with connected } else r.node? k := by
  unfold mark
  split
  · next h => by_cases hk : k = id <;> simp [hk, h]
  · next n h =>
    split
    · next hc =>
      have hc : n.connected = connected := by simpa using hc
      by_cases hk : k = id
      · subst hk; rw [if_pos rfl, h, ← hc]; rfl
      · rw [if_neg hk]
    · unfold register
      split <;> simp [node?_modifyNode]

/-! ## Checks -/

/-- The node with a given handle, or the fault that there is none. -/
def find (r : Routine) (id : NodeId) : Except Fault Node :=
  match r.node? id with
  | some n => .ok n
  | none => .error (.missing id)

/-- Refuses a node that cannot be given a parent: one that does not exist, has a parent, is
    connected or is the body. -/
def checkDetached (r : Routine) (id : NodeId) : Except Fault Node := do
  let n ← r.find id
  if n.parent.isSome || n.connected || id == r.body then throw (.owned id)
  return n

/-- Refuses a node that is no block. -/
def checkBlock (r : Routine) (id : NodeId) : Except Fault Node := do
  let n ← r.find id
  if n.op.isBlock then return n else throw (.wrongRole id .block)

/-- Refuses a node that is no container. -/
def checkContainer (r : Routine) (id : NodeId) : Except Fault Unit := do
  let n ← r.find id
  if n.op.isContainer then return () else throw (.wrongRole id .container)

/-- Refuses a number of operands that does not fit the operation. -/
def checkArity (op : Op) (count : Nat) : Except Fault Unit :=
  match op.arity? with
  | some arity => if arity = count then .ok () else .error (.arity op.opcode arity count)
  | none => if op = .ret ∧ 1 < count then .error (.returnArity count) else .ok ()

/-- Refuses operands that are not detached or that were met before. -/
def checkOperands (r : Routine) : List NodeId → List NodeId → Except Fault Unit
  | _, [] => .ok ()
  | met, id :: rest => do
    let _ ← r.checkDetached id
    if met.contains id then throw (.owned id)
    r.checkOperands (id :: met) rest

/-- The parent of a node that has one. -/
def checkAttached (r : Routine) (id : NodeId) : Except Fault NodeId := do
  let n ← r.find id
  match n.parent with
  | none => throw (.unattached id)
  | some parent => return parent

/-- Refuses a node that its parent does not list. -/
def checkListed (r : Routine) (id parent : NodeId) : Except Fault Unit :=
  if (r.children parent).contains id then .ok () else .error (.malformed (.unlisted id parent))

/-- Refuses an instruction that does not fit a position of a block. -/
def checkInsert (r : Routine) (block : NodeId) (index : Nat) (inst : NodeId) :
    Except Fault Unit := do
  let b ← r.checkBlock block
  if b.children.length < index then throw (.badIndex index b.children.length)
  let n ← r.checkDetached inst
  if n.op.isBlock then throw (.wrongRole inst .instruction)
  if r.topOf block == inst then throw (.owned inst)

/-- The instruction at a position of a block. -/
def checkRemove (r : Routine) (block : NodeId) (index : Nat) : Except Fault NodeId := do
  let b ← r.checkBlock block
  match b.children[index]? with
  | some inst => return inst
  | none => throw (.badIndex index b.children.length)

/-- The parent of a node whose slot another node may take over. -/
def checkReplace (r : Routine) (id new : NodeId) : Except Fault NodeId := do
  let parent ← r.checkAttached id
  let n ← r.checkDetached new
  if r.topOf id == new then throw (.owned new)
  let p ← r.find parent
  if n.op.isBlock != p.op.isContainer then
    throw (.wrongRole new (if p.op.isContainer then .block else .instruction))
  r.checkListed id parent
  return parent

/-- The parent of a node that may be taken out of its slot. -/
def checkExtract (r : Routine) (id : NodeId) : Except Fault NodeId := do
  let parent ← r.checkAttached id
  let p ← r.find parent
  if p.op.isBlock || p.op.isContainer then throw (.wrongRole id .operand)
  r.checkListed id parent
  return parent

end Routine

/-! ## Edits -/

/-- A computation on a routine that may be refused. The routine stays as it is at the point
    of the refusal. -/
abbrev Edit := EStateM Fault Routine

namespace Edit

/-- Checks first; then gives an answer and changes the routine. -/
def step {α β : Type} (check : Routine → Except Fault β) (answer : Routine → β → α)
    (effect : Routine → β → Routine) : Edit α := fun r =>
  match check r with
  | .error fault => .error fault r
  | .ok b => .ok (answer r b) (effect r b)

/-- A refused step leaves the routine as it was. -/
theorem step_of_error {α β : Type} {check : Routine → Except Fault β} {answer : Routine → β → α}
    {effect : Routine → β → Routine} {r : Routine} {fault : Fault} (h : check r = .error fault) :
    step check answer effect r = .error fault r := by
  simp [step, h]

/-- A step that passes its check has its effect. -/
theorem step_of_ok {α β : Type} {check : Routine → Except Fault β} {answer : Routine → β → α}
    {effect : Routine → β → Routine} {r : Routine} {b : β} (h : check r = .ok b) :
    step check answer effect r = .ok (answer r b) (effect r b) := by
  simp [step, h]

/-- Declares a variable without uses. -/
def declare (kind : VariableKind) (index : UInt16) (name : String) (type : TypeDecl) :
    Edit VarId :=
  step (fun _ => .ok ()) (fun r _ => ⟨r.vars.size⟩) fun r _ =>
    { r with vars := r.vars.push { id := ⟨r.vars.size⟩, kind, index, name, type } }

/-- Changes the type of a declared variable. -/
def retype (id : VarId) (type : TypeDecl) : Edit Unit :=
  step (fun r => if id.index < r.vars.size then .ok () else .error (.unknownVariable id))
    (fun _ _ => ()) fun r _ => r.modifyVariable id fun v => { v with type }

/-- Allocates a detached node without checking its children. -/
def alloc (op : Op) (children : List NodeId) : Edit NodeId :=
  step (fun _ => .ok ()) (fun r _ => r.nextId) fun r _ => r.grow op children

/-- Creates a detached node that owns the given detached nodes. -/
def create (op : Op) (children : List NodeId) : Edit NodeId :=
  step (fun r => do Routine.checkArity op children.length; r.checkOperands [] children)
    (fun r _ => r.nextId) fun r _ => r.grow op children

/-- Looks at the routine and leaves it as it is. -/
def check {β : Type} (look : Routine → Except Fault β) : Edit β :=
  step look (fun _ b => b) fun r _ => r

/-- Changes a node, which must exist. -/
def amend (id : NodeId) (f : Node → Node) : Edit Unit :=
  step (fun r => r.find id) (fun _ _ => ()) fun r _ => r.modifyNode id f

/-- Appends an empty block to a container. -/
def newBlock (container : NodeId) (kind : BlockKind) : Edit NodeId := do
  let r ← get
  check (·.checkContainer container)
  let block ← alloc (.block kind) []
  amend block fun n => { n with parent := some container, connected := r.isConnected container }
  amend container fun n => { n with children := n.children ++ [block] }
  return block

/-- Inserts a detached instruction into a block; what stood at the position moves up. -/
def insert (block : NodeId) (index : Nat) (inst : NodeId) : Edit Unit := do
  let r ← get
  check (·.checkInsert block index inst)
  amend block fun n => { n with children := n.children.insertIdx index inst }
  amend inst fun n => { n with parent := some block }
  if r.isConnected block then modify (·.connect inst)

/-- Appends a detached instruction to a block. -/
def push (block inst : NodeId) : Edit Unit := do
  let b ← check (·.checkBlock block)
  insert block b.children.length inst

/-- Removes and destroys the instruction at a position of a block. -/
def remove (block : NodeId) (index : Nat) : Edit Unit := do
  let inst ← check (·.checkRemove block index)
  amend block fun n => { n with children := n.children.eraseIdx index }
  modify fun r => (r.disconnect inst).destroy inst

/-- Puts a detached node into the slot of another node, which is destroyed. -/
def replace (id new : NodeId) : Edit Unit := do
  let r ← get
  let parent ← check (·.checkReplace id new)
  modify fun r => (r.disconnect id).destroy id
  amend parent fun n => { n with children := n.children.replace id new }
  amend new fun n => { n with parent := some parent }
  if r.isConnected parent then modify (·.connect new)

/-- Takes an operand out of its slot, so that it can be put elsewhere. A fresh `nop` keeps
    the slot. -/
def extract (id : NodeId) : Edit NodeId := do
  let r ← get
  let parent ← check (·.checkExtract id)
  modify (·.disconnect id)
  amend id fun n => { n with parent := none }
  let slot ← alloc .nop []
  amend parent fun n => { n with children := n.children.replace id slot }
  amend slot fun n => { n with parent := some parent, connected := r.isConnected parent }
  return id

/-- Runs an edit on each node of a list, from first to last, and collects the answers. -/
def each {α : Type} (edit : NodeId → Edit α) : List NodeId → Edit (List α)
  | [] => return []
  | id :: rest => do
    let first ← edit id
    let others ← each edit rest
    return first :: others

/-- Copies a subtree of at most `depth` levels, the children before their parent. -/
def cloneTo : Nat → NodeId → Edit NodeId
  | 0, id => throw (.missing id)
  | depth + 1, id => do
    let r ← get
    match r.node? id with
    | none => throw (.missing id)
    | some n =>
      let copies ← each (cloneTo depth) n.children
      alloc n.op copies

/-- Copies a subtree into a detached one that shares no node with it. -/
def clone (id : NodeId) : Edit NodeId := do
  let r ← get
  cloneTo r.nodes.size id

end Edit

end CilFold
