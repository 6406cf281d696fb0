import LiveSheet.Grammar.Watched
import LiveSheet.Job

/-!
# The grammar as a parser

Wraps the watched parse into the form in which controllers call parsers.
-/

namespace LiveSheet
namespace Grammar

/-- The parser of style sheets that asks for cancellation at the given interval.  Each
phase is noted when it is over, so a call that fails has no note of the phase it failed
in.  What the clock measures for each call is not up to the grammar. -/
def parser (interval : Nat) (clock : Nat → Timing) : Parser := fun call s =>
  let interval := max 1 interval
  let lexed : Measurement := ⟨.lexing, (clock call).lexing⟩
  let read : Measurement := ⟨.reading, (clock call).reading⟩
  (watchedLexFrom s.version interval 0 0 [] s.text).bind fun
    | .error e => .done ⟨.error e, []⟩
    | .ok tokens =>
      (watchedRead s.version interval tokens.length ⟨interval, 0⟩ (.start tokens)).map fun
        | .error e => ⟨.error e, [lexed]⟩
        | .ok items => ⟨.ok items, [lexed, read]⟩

end Grammar

end LiveSheet
