/-!
# Ranges of code points

Look-up in a list of ranges.
-/

namespace LiveSheet
namespace Text

/-- Whether `n` lies in one of the closed ranges.  The ranges ascend, so the
search ends at the first one that begins after `n`. -/
def inRanges (n : Nat) : List (Nat × Nat) → Bool
  | [] => false
  | (low, high) :: rest => if n < low then false else n ≤ high || inRanges n rest

end Text
end LiveSheet
