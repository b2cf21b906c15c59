/-
  Declarations of types, methods and fields, as far as folding needs them: a token for
  identity, names for messages, and the kind of stack value a type occupies.

  Two declarations are the same when their tokens agree, whatever their names say; the
  functions called `same` decide that. Structural equality compares every component.
-/
import CilFold.Token

namespace CilFold

/-- The kind of value a type occupies on the evaluation stack. -/
inductive StackKind where
  | int32
  | int64
  | native
  | float
  | object
  | byRef
  | void
  | unknown
deriving DecidableEq

namespace StackKind

/-- All kinds of stack value. -/
def all : List StackKind := [int32, int64, native, float, object, byRef, void, unknown]

/-- The short name of a kind of stack value. -/
def name : StackKind → String
  | int32 => "i4"
  | int64 => "i8"
  | native => "i"
  | float => "f"
  | object => "o"
  | byRef => "ref"
  | void => "void"
  | unknown => "unknown"

/-- The kind with a given short name. -/
def ofName? (s : String) : Option StackKind := all.find? (·.name == s)

end StackKind

/-- A type declaration. The flag word keeps bits that have no meaning here. -/
structure TypeDecl where
  token : Token
  /-- The namespace, empty for a type outside all namespaces. -/
  scope : String
  name : String
  flags : UInt32
  stack : StackKind
deriving DecidableEq

namespace TypeDecl

/-- Two type declarations denote one type. -/
def same (a b : TypeDecl) : Bool := a.token == b.token

/-- The name with its namespace in front, if it has one. -/
def fullName (t : TypeDecl) : String :=
  if t.scope.isEmpty then t.name else s!"{t.scope}.{t.name}"

/-- Whether the value-type bit is set. -/
def isValueType (t : TypeDecl) : Bool := t.flags &&& 0x1 != 0

/-- Whether values of the type occupy nothing on the stack. -/
def isVoid (t : TypeDecl) : Bool := t.stack == .void

/-- The type of calls that return nothing. -/
def void : TypeDecl where
  token := Token.ofParts 0x01 0x00ffffff
  scope := "System"
  name := "Void"
  flags := 0x1
  stack := .void

/-- The token and the full name. -/
def detail (t : TypeDecl) : String := s!"IlType({t.token.text} {t.fullName})"

end TypeDecl

/-- A method declaration. -/
structure MethodDecl where
  token : Token
  name : String
  owner : TypeDecl
  result : TypeDecl
  paramCount : Nat
  flags : UInt16
deriving DecidableEq

namespace MethodDecl

/-- Two method declarations denote one method. -/
def same (a b : MethodDecl) : Bool := a.token == b.token

/-- Whether the static bit is set. -/
def isStatic (m : MethodDecl) : Bool := m.flags &&& 0x0010 != 0

/-- A constructor has one of the two reserved names and the bit that makes the name special
    to the runtime; the name alone is not enough. -/
def isConstructor (m : MethodDecl) : Bool :=
  m.flags &&& 0x1000 != 0 && (m.name == ".ctor" || m.name == ".cctor")

/-- The owner's full name and the method's name. -/
def text (m : MethodDecl) : String := s!"{m.owner.fullName}::{m.name}"

/-- The token and the text. -/
def detail (m : MethodDecl) : String := s!"IlMethod({m.token.text} {m.text})"

end MethodDecl

/-- A field declaration. -/
structure FieldDecl where
  token : Token
  name : String
  owner : TypeDecl
  type : TypeDecl
deriving DecidableEq

namespace FieldDecl

/-- Two field declarations denote one field. -/
def same (a b : FieldDecl) : Bool := a.token == b.token

/-- The owner's full name and the field's name. -/
def text (f : FieldDecl) : String := s!"{f.owner.fullName}::{f.name}"

/-- The token and the text. -/
def detail (f : FieldDecl) : String := s!"IlField({f.token.text} {f.text})"

end FieldDecl

end CilFold
