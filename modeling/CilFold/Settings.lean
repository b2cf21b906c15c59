/-
  Settings of the passes: which folds are wanted, how names made by a compiler are told
  apart, and how eagerly definitions are inlined.
-/
import CilFold.Text.Quoted
import CilFold.Text.Search

namespace CilFold

/-- Option bits of the inliner. Bits without a meaning are kept. -/
structure InlineOptions where
  bits : UInt32
deriving DecidableEq

namespace InlineOptions

/-- Whether variables other than stack slots may be inlined too. -/
def isAggressive (o : InlineOptions) : Bool := o.bits &&& 0x1 != 0

/-- The set bits by name, and those without a name as one number. -/
def text (o : InlineOptions) : String :=
  let rest := o.bits &&& ~~~0x1
  let named := if o.isAggressive then ["AGGRESSIVE"] else []
  let unnamed := if rest != 0 then ["0x" ++ Text.hex 1 rest.toNat] else []
  if o.bits == 0 then "0x0" else " | ".intercalate (named ++ unnamed)

end InlineOptions

/-- What the passes are asked to do. -/
structure Settings where
  /-- The text that marks a name as made by a compiler. -/
  marker : String := "<>c__CompilerGenerated"
  /-- Fold captured receivers. -/
  foldCaptures : Bool := true
  /-- Remove self-stores. -/
  dropSelfStores : Bool := true
  /-- Remove copies of a variable into one of the same name and type, too. -/
  dropLocalCopies : Bool := true
  /-- Strip aliases of the receiver. -/
  stripAliases : Bool := true
  inlining : InlineOptions := ⟨0⟩
  /-- Check the routine after each pass. -/
  recheck : Bool := true
deriving DecidableEq

namespace Settings

/-- Whether a name was made by a compiler: it contains the marker. An empty marker marks no
    name. -/
def isGenerated (s : Settings) (name : String) : Bool :=
  !s.marker.isEmpty && Text.occursIn s.marker.toList name.toList

/-- A named value between braces, with the separator of a record text. -/
def fieldText (name value : String) : String := s!"{name}: {value}"

/-- The text of a truth value. -/
def flagText (b : Bool) : String := if b then "true" else "false"

/-- All settings as one record text. -/
def detail (s : Settings) : String :=
  "TransformSettings \x7b " ++
    ", ".intercalate
      [ fieldText "capture_marker" (Text.quoted s.marker),
        fieldText "fix_captured_receiver" (flagText s.foldCaptures),
        fieldText "remove_self_references" (flagText s.dropSelfStores),
        fieldText "remove_local_self_copies" (flagText s.dropLocalCopies),
        fieldText "strip_receiver_aliases" (flagText s.stripAliases),
        fieldText "inlining" s!"InliningOptions({s.inlining.text})",
        fieldText "verify_after_transform" (flagText s.recheck)] ++
    " \x7d"

end Settings

end CilFold
