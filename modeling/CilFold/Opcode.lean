/-
  The mnemonics of the instruction tree: the instructions of the common intermediate
  language that folding knows, and the two structural ones, `block` and `container`.
-/
namespace CilFold

/-- The mnemonic of a tree node. -/
inductive Opcode where
  | nop
  | ldc
  | ldnull
  | ldloc
  | ldloca
  | stloc
  | ldflda
  | ldobj
  | stobj
  | unbox
  | call
  | callvirt
  | newobj
  | ret
  | block
  | container
deriving DecidableEq

namespace Opcode

/-- All mnemonics. -/
def all : List Opcode :=
  [nop, ldc, ldnull, ldloc, ldloca, stloc, ldflda, ldobj, stobj, unbox, call, callvirt, newobj,
    ret, block, container]

/-- The written form of a mnemonic. -/
def name : Opcode → String
  | nop => "nop"
  | ldc => "ldc.i4"
  | ldnull => "ldnull"
  | ldloc => "ldloc"
  | ldloca => "ldloca"
  | stloc => "stloc"
  | ldflda => "ldflda"
  | ldobj => "ldobj"
  | stobj => "stobj"
  | unbox => "unbox"
  | call => "call"
  | callvirt => "callvirt"
  | newobj => "newobj"
  | ret => "ret"
  | block => "block"
  | container => "container"

/-- The mnemonic with a given written form. -/
def ofName? (s : String) : Option Opcode := all.find? (·.name == s)

/-- Whether the mnemonic belongs to the call family. -/
def isCall : Opcode → Bool
  | call | callvirt | newobj => true
  | _ => false

/-- Whether the mnemonic reads, writes or takes the address of a variable. -/
def usesVariable : Opcode → Bool
  | ldloc | ldloca | stloc => true
  | _ => false

end Opcode

end CilFold
