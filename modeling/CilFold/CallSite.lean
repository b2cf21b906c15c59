/-
  Call sites: the operand of `call`, `callvirt` and `newobj`. The arguments of the call are
  the operands of the node that carries the call site.
-/
import CilFold.Fault

namespace CilFold

/-- The three ways to call a method. -/
inductive CallKind where
  | call
  | callvirt
  | newobj
deriving DecidableEq

namespace CallKind

/-- The mnemonic of a call. -/
def opcode : CallKind → Opcode
  | call => .call
  | callvirt => .callvirt
  | newobj => .newobj

/-- The way of calling that a mnemonic of the call family stands for. -/
def ofOpcode? : Opcode → Option CallKind
  | .call => some call
  | .callvirt => some callvirt
  | .newobj => some newobj
  | _ => none

end CallKind

/-- The operand of a call. -/
structure CallSite where
  kind : CallKind
  method : MethodDecl
  tail : Bool := false
  /-- The type to which a virtual call is constrained. -/
  constrained : Option TypeDecl := none
  /-- Whether the evaluation stack was empty before the call. -/
  stackWasEmpty : Bool := false
deriving DecidableEq

namespace CallSite

/-- A plain call of a method; the mnemonic must belong to the call family. -/
def create (opcode : Opcode) (method : MethodDecl) : Except Fault CallSite :=
  match CallKind.ofOpcode? opcode with
  | some kind => .ok { kind, method }
  | none => .error (.notACall opcode)

/-- Whether the call constructs an object. -/
def isNewobj (c : CallSite) : Bool := c.kind == .newobj

/-- The type of the call's value: the constructed type or the method's result. -/
def yields (c : CallSite) : TypeDecl :=
  if c.isNewobj then c.method.owner else c.method.result

/-- The kind of stack value that the call leaves. -/
def stackKind (c : CallSite) : StackKind := c.yields.stack

/-- Whether both constraints are absent, or denote one type. -/
def sameConstraint : Option TypeDecl → Option TypeDecl → Bool
  | none, none => true
  | some a, some b => a.same b
  | _, _ => false

/-- Whether two call sites call the same method in the same way. The state of the stack
    before the call does not matter. -/
def alike (a b : CallSite) : Bool :=
  a.kind == b.kind && a.method.same b.method && a.tail == b.tail &&
    sameConstraint a.constrained b.constrained

end CallSite

end CilFold
