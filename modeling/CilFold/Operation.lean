/-
  Operations: what a tree node does, with its operands that are no nodes themselves. The
  operands that are nodes are the node's children:

    stloc, ldflda, ldobj, unbox   one
    stobj                         two, the address and the value
    ret                           none or one
    call, callvirt, newobj        the arguments
    block                         the instructions of the block
    container                     the blocks of the container
    all others                    none
-/
import CilFold.CallSite

namespace CilFold

/-- What a block is for. -/
inductive BlockKind where
  | controlFlow
  | exceptionDispatch
  | switchDispatch
deriving DecidableEq

namespace BlockKind

/-- All kinds of block. -/
def all : List BlockKind := [controlFlow, exceptionDispatch, switchDispatch]

/-- The name of a kind of block. -/
def name : BlockKind → String
  | controlFlow => "ControlFlow"
  | exceptionDispatch => "ExceptionDispatch"
  | switchDispatch => "SwitchDispatch"

/-- The kind with a given name. -/
def ofName? (s : String) : Option BlockKind := all.find? (·.name == s)

end BlockKind

/-- The operation of a tree node. -/
inductive Op where
  | nop
  | ldc (value : Int32)
  | ldnull
  | ldloc (id : VarId)
  | ldloca (id : VarId)
  | stloc (id : VarId)
  | ldflda (field : FieldDecl)
  | ldobj (type : TypeDecl)
  | stobj (type : TypeDecl)
  | unbox (type : TypeDecl)
  | call (site : CallSite)
  | ret
  | block (kind : BlockKind)
  | container
deriving DecidableEq

namespace Op

/-- The mnemonic of an operation. -/
def opcode : Op → Opcode
  | nop => .nop
  | ldc _ => .ldc
  | ldnull => .ldnull
  | ldloc _ => .ldloc
  | ldloca _ => .ldloca
  | stloc _ => .stloc
  | ldflda _ => .ldflda
  | ldobj _ => .ldobj
  | stobj _ => .stobj
  | unbox _ => .unbox
  | call site => site.kind.opcode
  | ret => .ret
  | block _ => .block
  | container => .container

/-- How an operation uses which variable. -/
def use? : Op → Option (UseKind × VarId)
  | ldloc id => some (.load, id)
  | stloc id => some (.store, id)
  | ldloca id => some (.address, id)
  | _ => none

/-- The variable that an operation uses. -/
def var? (op : Op) : Option VarId := op.use?.map (·.2)

/-- The number of operands with which a node of the operation is created, where it is fixed.
    Blocks and containers are created empty. -/
def arity? : Op → Option Nat
  | nop | ldc _ | ldnull | ldloc _ | ldloca _ | block _ | container => some 0
  | stloc _ | ldflda _ | ldobj _ | unbox _ => some 1
  | stobj _ => some 2
  | call _ | ret => none

/-- Whether the operation alone has no effect and cannot fail. -/
def isPure : Op → Bool
  | nop | ldc _ | ldnull | ldloc _ | ldloca _ => true
  | _ => false

/-- Whether the operation is a block. -/
def isBlock : Op → Bool
  | block _ => true
  | _ => false

/-- Whether the operation is a container. -/
def isContainer : Op → Bool
  | container => true
  | _ => false

/-- Whether two operations have the same mnemonic and denote the same operands. Declarations
    are compared by token. -/
def alike : Op → Op → Bool
  | nop, nop | ldnull, ldnull | ret, ret | container, container => true
  | ldc a, ldc b => a == b
  | ldloc a, ldloc b | ldloca a, ldloca b | stloc a, stloc b => a == b
  | ldflda a, ldflda b => a.same b
  | ldobj a, ldobj b | stobj a, stobj b | unbox a, unbox b => a.same b
  | call a, call b => a.alike b
  | block a, block b => a == b
  | _, _ => false

end Op

end CilFold
