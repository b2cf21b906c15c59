/-
  Hexadecimal text: lower-case digits, padded with zeros on the left to a least width.
-/
namespace CilFold.Text

/-- The lower-case hexadecimal digits of `n`, with zeros in front up to `width` digits. -/
def hex (width n : Nat) : String :=
  let digits := Nat.toDigits 16 n
  String.ofList (List.replicate (width - digits.length) '0' ++ digits)

end CilFold.Text
