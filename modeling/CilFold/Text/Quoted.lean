/-
  Quoted text: a string between double quotes in which a quote, a backslash and every
  character without a visible form of its own is written as an escape.
-/
import CilFold.Text.Blank
import CilFold.Text.CombiningMark
import CilFold.Text.Hex
import CilFold.Text.Unassigned

namespace CilFold.Text

/-- Whether a character has no visible form of its own: it attaches to its neighbour, is
    blank, or stands for no character at all. -/
def isHidden (c : Char) : Bool :=
  isCombiningMark c || isBlank c || isUnassigned c

/-- One character of a quoted text: the short escapes first, then the numbered one. -/
def escape (c : Char) : String :=
  if c = '"' then "\\\""
  else if c = '\\' then "\\\\"
  else if c = '\n' then "\\n"
  else if c = '\r' then "\\r"
  else if c = '\t' then "\\t"
  else if c = Char.ofNat 0 then "\\0"
  else if isHidden c then "\\u\x7b" ++ hex 1 c.toNat ++ "\x7d"
  else c.toString

/-- The text between double quotes, escaped character by character. -/
def quoted (s : String) : String :=
  "\"" ++ String.join (s.toList.map escape) ++ "\""

end CilFold.Text
