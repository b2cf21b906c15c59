/-
  Metadata tokens, the 32-bit names of declarations: the high byte is the table and the
  low three bytes are the row.
-/
import CilFold.Text.Hex

namespace CilFold

/-- A metadata token. Declarations are the same exactly when their tokens are equal. -/
structure Token where
  value : UInt32
deriving DecidableEq

namespace Token

/-- The token of a row of a table; only the low 24 bits of the row count. -/
def ofParts (table : UInt8) (row : UInt32) : Token :=
  ⟨(table.toUInt32 <<< 24) ||| (row &&& 0x00ffffff)⟩

/-- The table: the high byte. -/
def table (t : Token) : UInt8 := (t.value >>> 24).toUInt8

/-- The row: the low three bytes. -/
def row (t : Token) : UInt32 := t.value &&& 0x00ffffff

/-- Tokens are ordered by value, so by table first and then by row. -/
def order (a b : Token) : Ordering := compare a.value b.value

/-- The value in eight hexadecimal digits, such as `0x06000001`. -/
def text (t : Token) : String := "0x" ++ Text.hex 8 t.value.toNat

/-- The value with its table and row spelled out. -/
def detail (t : Token) : String :=
  s!"Token({t.text}, table: 0x{Text.hex 2 t.table.toNat}, row: {t.row.toNat})"

end Token

end CilFold
