import LiveSheet.Work

/-!
# Timings

The durations that go with a parse.
-/

namespace LiveSheet

/-- The longest duration, in nanoseconds, that a timing holds. -/
def maxNanoseconds : Nat := UInt64.size - 1

/-- A duration in nanoseconds, as it is noted for one phase of a parse. -/
structure Measurement where
  phase : Phase
  nanoseconds : Nat
  deriving DecidableEq, Repr

/-- How long the two phases of a parse took, in nanoseconds. -/
structure Timing where
  lexing : Nat
  reading : Nat
  deriving DecidableEq, Repr

namespace Timing

def zero : Timing := ⟨0, 0⟩

/-- Notes a duration for the first phase; longer ones count as the longest. -/
def recordLexing (t : Timing) (nanoseconds : Nat) : Timing :=
  { t with lexing := min nanoseconds maxNanoseconds }

/-- Notes a duration for the second phase; longer ones count as the longest. -/
def recordReading (t : Timing) (nanoseconds : Nat) : Timing :=
  { t with reading := min nanoseconds maxNanoseconds }

def record (t : Timing) (m : Measurement) : Timing :=
  match m.phase with
  | .lexing => t.recordLexing m.nanoseconds
  | .reading => t.recordReading m.nanoseconds

/-- The timing of a call that noted these durations, one after the other.  What is
noted later for a phase counts, and a phase with nothing noted took no time. -/
def ofNotes (notes : List Measurement) : Timing := notes.foldl record zero

/-- The durations as the notes of a call that was over with one phase before it began
with the other. -/
def notes (t : Timing) : List Measurement :=
  [⟨.lexing, t.lexing⟩, ⟨.reading, t.reading⟩]

end Timing
end LiveSheet
