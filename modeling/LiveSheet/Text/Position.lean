import LiveSheet.Span
import LiveSheet.Text.Basic

/-!
# Lines and columns

The conversion between offsets and the places that editors use.
-/

namespace LiveSheet

/-- A place in a text as an editor names it.  Lines and columns count from zero. -/
structure Position where
  line : Nat
  column : Nat
  deriving DecidableEq, Repr

namespace Position

/-- Editors take lines and columns below this number only, as both have 32 bits. -/
def limit : Nat := UInt32.size

/-- What editors are told of a place: the lowest 32 bits of its line and of its
column. -/
def wrap (p : Position) : Position := ⟨p.line % limit, p.column % limit⟩

theorem wrap_of_lt {p : Position} (hline : p.line < limit) (hcolumn : p.column < limit) :
    p.wrap = p := by
  rw [wrap, Nat.mod_eq_of_lt hline, Nat.mod_eq_of_lt hcolumn]

end Position

structure Range where
  start : Position
  stop : Position
  deriving DecidableEq, Repr

namespace Text

/-- The characters that end a line by themselves: line feed, carriage return,
vertical tab, form feed, next line, and the line and paragraph separators. -/
def isLineBreak (c : Char) : Bool :=
  let n := c.toNat
  (0xA ≤ n && n ≤ 0xD) || n == 0x85 || n == 0x2028 || n == 0x2029

/-- The lengths of the lines of a text, each with the break that ends it, when
`n` characters of the first line have been counted before.  A carriage return
and a line feed after it are one break. -/
def lineLengthsFrom (n : Nat) : Text → List Nat
  | [] => [n]
  | '\r' :: '\n' :: rest => (n + 2) :: lineLengthsFrom 0 rest
  | c :: rest =>
    if isLineBreak c then (n + 1) :: lineLengthsFrom 0 rest else lineLengthsFrom (n + 1) rest

/-- The lengths of the lines, breaks included.  There is one line more than
there are breaks. -/
def lineLengths (t : Text) : List Nat := lineLengthsFrom 0 t

/-- The place of an offset among lines of the given lengths, the first of which
is line `line`.  An offset at the end of a line belongs to the next one, if
there is a next one. -/
def locate (line : Nat) : List Nat → Nat → Option Position
  | [], _ => none
  | [n], offset => if offset ≤ n then some ⟨line, offset⟩ else none
  | n :: rest, offset =>
    if offset < n then some ⟨line, offset⟩ else locate (line + 1) rest (offset - n)

/-- The place of an offset, if the offset lies in the text or at its end. -/
def locationOf (t : Text) (offset : Nat) : Option Position :=
  locate 0 t.lineLengths offset

/-- The place of an offset as editors are told of it. -/
def positionOf (t : Text) (offset : Nat) : Option Position :=
  (t.locationOf offset).map Position.wrap

/-- The offset of a place, if its line exists and its column does not lie after
the break that ends the line. -/
def offsetOf (t : Text) (p : Position) : Option Nat :=
  let lengths := t.lineLengths
  match lengths[p.line]? with
  | some n => if p.column ≤ n then some ((lengths.take p.line).foldr (· + ·) p.column) else none
  | none => none

/-- The stretch between the two ends of a span, if both lie in the text. -/
def rangeOf (t : Text) (s : Span) : Option Range := do
  let start ← t.positionOf s.start
  let stop ← t.positionOf s.stop
  return ⟨start, stop⟩

end Text
end LiveSheet
