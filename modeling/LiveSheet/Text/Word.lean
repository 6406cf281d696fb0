import LiveSheet.Text.Alphabetic
import LiveSheet.Text.Numeric

/-!
# Word characters

Letters and digits of every script, the hyphen and the underscore.
-/

namespace LiveSheet
namespace Text

/-- Letters and digits of every script: the characters that are Alphabetic or
belong to one of the number categories.  In ASCII these are the Latin letters
and the ten digits. -/
def isAlphanumeric (c : Char) : Bool :=
  if c.toNat < 0x80 then c.isAlphanum else isAlphabetic c || isNumeric c

/-- The characters of which names are made. -/
def isWordChar (c : Char) : Bool :=
  isAlphanumeric c || c == '-' || c == '_'

end Text
end LiveSheet
