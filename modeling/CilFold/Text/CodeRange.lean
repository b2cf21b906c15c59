/-
  Character classes as tables: closed ranges of code points in ascending order.
-/
namespace CilFold.Text

/-- The code points from `first` to `last`, both included. -/
structure CodeRange where
  first : Nat
  last : Nat

/-- Whether a character lies in a range. -/
def CodeRange.holds (range : CodeRange) (c : Char) : Bool :=
  range.first ≤ c.toNat && c.toNat ≤ range.last

/-- Whether a character lies in one of the ranges of a table. -/
def inTable (table : List CodeRange) (c : Char) : Bool :=
  table.any (·.holds c)

end CilFold.Text
