/-!
# Spans

Stretches of a text, given by the offsets of their ends, and what holds of the
least span that covers two of them.
-/

namespace LiveSheet

/-- A stretch of a text, from the offset `start` up to but not including `stop`.
No span is inverted; whoever builds one says what becomes of inverted ends. -/
structure Span where
  start : Nat
  stop : Nat
  start_le_stop : start ≤ stop := by omega
  deriving DecidableEq

namespace Span

/-- The span between two ends.  Inverted ends give the empty span at the first. -/
def between (start stop : Nat) : Span := ⟨start, max start stop, Nat.le_max_left _ _⟩

def point (offset : Nat) : Span := ⟨offset, offset, Nat.le_refl _⟩

def length (s : Span) : Nat := s.stop - s.start

def isEmpty (s : Span) : Bool := s.start == s.stop

def touches (s : Span) (offset : Nat) : Bool := s.start ≤ offset && offset ≤ s.stop

/-- Whether the character at an offset belongs to the span. -/
def contains (s : Span) (offset : Nat) : Bool := s.start ≤ offset && offset < s.stop

def cover (s t : Span) : Span :=
  ⟨min s.start t.start, max s.stop t.stop,
    Nat.le_trans (Nat.min_le_left _ _) (Nat.le_trans s.start_le_stop (Nat.le_max_left _ _))⟩

/-- The least span that holds all of a list; the empty list gives none. -/
def coverAll : List Span → Option Span
  | [] => none
  | s :: rest => some (rest.foldl cover s)

/-- Spans are ordered by where they start, then by where they stop. -/
def order (s t : Span) : Ordering := (compare s.start t.start).then (compare s.stop t.stop)

def render (s : Span) : String := "[" ++ toString s.start ++ "," ++ toString s.stop ++ "]"

@[simp] theorem between_start (a b : Nat) : (between a b).start = a := rfl

@[simp] theorem between_stop (a b : Nat) : (between a b).stop = max a b := rfl

@[simp] theorem point_length (a : Nat) : (point a).length = 0 := Nat.sub_self a

@[simp] theorem cover_start (s t : Span) : (s.cover t).start = min s.start t.start := rfl

@[simp] theorem cover_stop (s t : Span) : (s.cover t).stop = max s.stop t.stop := rfl

theorem ext_ends {s t : Span} (hs : s.start = t.start) (ht : s.stop = t.stop) : s = t := by
  cases s; cases t; simp_all

theorem contains_iff (s : Span) (offset : Nat) :
    s.contains offset = true ↔ s.start ≤ offset ∧ offset < s.stop := by
  simp [contains]

theorem touches_iff (s : Span) (offset : Nat) :
    s.touches offset = true ↔ s.start ≤ offset ∧ offset ≤ s.stop := by
  simp [touches]

end Span
end LiveSheet
