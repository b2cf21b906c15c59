/-
  Text of routines: a subtree on one line for messages, and the outline of a subtree with
  one entry a node. Neither is meant to be read back.
-/
import CilFold.Routine.Traversal

namespace CilFold

/-- The text between parentheses and commas. -/
def parenthesized (parts : List String) : String := "(" ++ ", ".intercalate parts ++ ")"

namespace CallSite

/-- The call with its modifiers in front. -/
def text (c : CallSite) : String :=
  let tail := if c.tail then "tail." else ""
  let constrained :=
    match c.constrained with
    | some type => s!"constrained[{type.fullName}]."
    | none => ""
  s!"{tail}{constrained}{c.kind.opcode.name} {c.method.text}"

/-- The mnemonic and the method's token, with the modifiers behind. -/
def head (c : CallSite) : String :=
  let tail := if c.tail then " tail" else ""
  let constrained :=
    match c.constrained with
    | some type => s!" constrained={type.token.text}"
    | none => ""
  let empty := if c.stackWasEmpty then " empty" else ""
  s!"{c.kind.opcode.name} {c.method.token.text}{tail}{constrained}{empty}"

end CallSite

/-- The mnemonic and the operand of an operation; declarations by token, variables by
    handle. -/
def Op.head (op : Op) : String :=
  match op with
  | nop | ldnull | ret | container => op.opcode.name
  | ldc value => s!"{op.opcode.name} {value.toInt}"
  | ldloc id | ldloca id | stloc id => s!"{op.opcode.name} {id.text}"
  | ldflda field => s!"{op.opcode.name} {field.token.text}"
  | ldobj type | stobj type | unbox type => s!"{op.opcode.name} {type.token.text}"
  | call site => site.head
  | block kind => s!"{op.opcode.name} {kind.name}"

namespace Routine

/-- The operation of a node with its operand spelled out, without the operands that are
    nodes. -/
def opText (r : Routine) (op : Op) : String :=
  match op with
  | .nop | .ldnull | .ret | .container => op.opcode.name
  | .ldc value => s!"{op.opcode.name} {value.toInt}"
  | .ldloc id | .ldloca id | .stloc id => s!"{op.opcode.name} {r.variableName id}"
  | .ldflda field => s!"{op.opcode.name} {field.name}"
  | .ldobj type | .stobj type | .unbox type => s!"{op.opcode.name} {type.fullName}"
  | .call site => site.text
  | .block kind => s!"{op.opcode.name} {kind.name}"

/-- A subtree of at most `depth` levels on one line. -/
def renderTo (r : Routine) : Nat → NodeId → String
  | 0, _ => ""
  | depth + 1, id =>
    match r.node? id with
    | none => s!"<destroyed {id.text}>"
    | some n =>
      match n.op with
      | .block _ => s!"{r.opText n.op} [{n.children.length} inst]"
      | .container => s!"{r.opText n.op} [{n.children.length} blocks]"
      | .call _ => r.opText n.op ++ parenthesized (n.children.map (r.renderTo depth))
      | _ =>
        if n.children.isEmpty then r.opText n.op
        else r.opText n.op ++ parenthesized (n.children.map (r.renderTo depth))

/-- A subtree on one line. Blocks and containers show their size only, and a call shows its
    parentheses even without arguments. -/
def render (r : Routine) (id : NodeId) : String := r.renderTo (r.nodes.size + 1) id

/-- The instructions of each block of the body, one line an instruction. -/
def listing (r : Routine) : List (List String) :=
  (r.blocks r.body).map fun block => (r.instructions block).map r.render

/-- The nodes of a subtree of at most `depth` levels in preorder, each with its level. -/
def levelsTo (r : Routine) : Nat → Nat → NodeId → List (Nat × NodeId)
  | 0, _, _ => []
  | depth + 1, level, id => (level, id) :: (r.children id).flatMap (r.levelsTo depth (level + 1))

/-- The live nodes of a subtree in preorder, each with its level and its operation. -/
def outline (r : Routine) (root : NodeId) : List (Nat × NodeId × String) :=
  (r.levelsTo r.nodes.size 0 root).filterMap fun (level, id) =>
    (r.op? id).map fun op => (level, id, op.head)

end Routine

end CilFold
