/-
  Search in texts: whether one text occurs in another as a run of neighbouring characters.
-/
namespace CilFold.Text

/-- Whether a list occurs in another as a run of neighbours. -/
def occursIn (pattern : List Char) : List Char → Bool
  | [] => pattern.isEmpty
  | c :: rest => pattern.isPrefixOf (c :: rest) || occursIn pattern rest

end CilFold.Text
