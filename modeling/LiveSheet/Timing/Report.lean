import LiveSheet.Decimal.Rounding
import LiveSheet.Log
import LiveSheet.Timing

/-!
# Reports of timings

How durations are shown in the log: in milliseconds, with two decimals.
-/

namespace LiveSheet
namespace Timing

/-- A duration in milliseconds.  Seconds, and from them milliseconds, are worked
out with 53 significant binary digits at every step. -/
def milliseconds (nanoseconds : Nat) : Decimal.Quotient :=
  let whole := nanoseconds / 1000000000
  let part := Decimal.Quotient.significant ⟨nanoseconds % 1000000000, 1000000000⟩
  let seconds := Decimal.Quotient.significant ⟨whole * part.den + part.num, part.den⟩
  Decimal.Quotient.significant ⟨seconds.num * 1000, seconds.den⟩

/-- The log entries that show how long a parse took. -/
def report (t : Timing) : List LogEntry :=
  [⟨.debug, "Last Token " ++ (milliseconds t.lexing).twoPlaces⟩,
   ⟨.debug, "Last Parse " ++ (milliseconds t.reading).twoPlaces⟩]

end Timing
end LiveSheet
