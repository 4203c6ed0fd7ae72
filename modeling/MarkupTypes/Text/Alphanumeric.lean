import MarkupTypes.Text.Alphabetic
import MarkupTypes.Text.Numeric

/-!
# Letters and numbers

A character is alphanumeric when Unicode counts it as alphabetic or gives it a numeric
category. For ASCII these are the letters and the ten digits.
-/

namespace MarkupTypes.Text

/-- A character is a letter or a number. -/
def isAlphanumeric (c : Char) : Bool :=
  if c.toNat < 0x80 then c.isAlphanum
  else alphabeticRanges.has c.toNat || numericRanges.has c.toNat

end MarkupTypes.Text
