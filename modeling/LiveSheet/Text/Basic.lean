/-!
# Texts

Texts as lists of characters: blanks, trimming, slices and splices.
-/

namespace LiveSheet

/-- A text is the list of its characters.  Every offset, length and column
counts characters, so positions in a text are positions in this list. -/
abbrev Text := List Char

namespace Text

/-- The Unicode property White_Space. -/
def isBlank (c : Char) : Bool :=
  let n := c.toNat
  n == 0x20 || (0x9 ≤ n && n ≤ 0xD) || n == 0x85 || n == 0xA0 || n == 0x1680 ||
    (0x2000 ≤ n && n ≤ 0x200A) || n == 0x2028 || n == 0x2029 || n == 0x202F ||
    n == 0x205F || n == 0x3000

/-- The text without the characters at its end that satisfy `p`. -/
def dropEnd (p : Char → Bool) (t : Text) : Text := (t.reverse.dropWhile p).reverse

def trimEnd (t : Text) : Text := dropEnd isBlank t

def trim (t : Text) : Text := trimEnd (t.dropWhile isBlank)

/-- The `length` characters from `start` on, or as many of them as there are. -/
def slice (t : Text) (start length : Nat) : Text := (t.drop start).take length

/-- The text with what stands from `start` up to `stop` replaced by `insert`. -/
def splice (t : Text) (start stop : Nat) (insert : Text) : Text :=
  t.take start ++ insert ++ t.drop stop

def fields (separator : Char) : Text → List Text
  | [] => [[]]
  | c :: rest =>
    if c = separator then [] :: fields separator rest
    else
      match fields separator rest with
      | first :: others => (c :: first) :: others
      | [] => [[c]]

theorem length_slice_le (t : Text) (start length : Nat) :
    (t.slice start length).length ≤ length :=
  List.length_take_le _ _

theorem splice_self (t : Text) (start : Nat) : t.splice start start [] = t := by
  simp [splice]

end Text
end LiveSheet
