import LiveSheet.Grammar.Reading
import LiveSheet.Work

/-!
# Watched parsing

The lexer and the reader again, but as work that asks for cancellation and pauses.
The steps are the same; only what happens between them is added.
-/

namespace LiveSheet
namespace Grammar

/-- Lexes while watching for cancellation: a question is asked whenever the
tokens found are one short of a multiple of the interval. -/
def watchedLexFrom (version interval offset count : Nat) (found : List Token) :
    Text → Work (Except ParseError (List Token))
  | [] => .done (.ok found.reverse)
  | c :: rest =>
    let next := fun (_ : Unit) =>
      match Token.scan (c :: rest) with
      | .finished => .done (.ok found.reverse)
      | .blank => watchedLexFrom version interval (offset + 1) count found rest
      | .token kind more =>
        watchedLexFrom version interval (offset + 1 + more) (count + 1)
          (⟨kind, offset, c :: rest.take more⟩ :: found) (rest.drop more)
      | .fault cause => .done (.error (.malformed ⟨cause, offset⟩))
    if count % interval = interval - 1 then .check ⟨.lexing, count⟩ version next else next ()
termination_by t => t.length

/-- The points at which a watched reading asks and pauses: the position of the
next question, and that of the last pause. -/
structure Marks where
  nextPoll : Nat
  lastPause : Nat

/-- Reads while watching for cancellation.  A question is asked before a step
when an interval of tokens has been taken since the last such question; after an
item outside all blocks the reading pauses, and asks again, when an interval has
been taken since the last pause. -/
def watchedRead (version interval total : Nat) (marks : Marks) (r : Reading) :
    Work (Except ParseError (List Item)) :=
  let position := total - r.rest.length
  let step := fun (marks : Marks) =>
    match _ : r.step with
    | .finished items => .done (.ok items)
    | .fault e => .done (.error (.malformed e))
    | .more next =>
      let reached := total - next.rest.length
      if next.blocks.isEmpty ∧ interval ≤ reached - marks.lastPause then
        .pause (.check ⟨.reading, reached⟩ version fun _ =>
          watchedRead version interval total { marks with lastPause := reached } next)
      else watchedRead version interval total marks next
  if marks.nextPoll ≤ position then
    .check ⟨.reading, position⟩ version fun _ =>
      step { marks with nextPoll := position + interval }
  else step marks
termination_by r.rest.length
decreasing_by all_goals exact Reading.step_rest_length_lt (by assumption)

/-- The number of tokens between two questions, unless something else is asked for. -/
def defaultInterval : Nat := 64

/-- Parses a text of the given version while watching for cancellation.  An
interval of zero counts as one. -/
def watchedParse (interval version : Nat) (t : Text) : Work (Except ParseError (List Item)) :=
  let interval := max 1 interval
  (watchedLexFrom version interval 0 0 [] t).bind fun
    | .error e => .done (.error e)
    | .ok tokens => watchedRead version interval tokens.length ⟨interval, 0⟩ (.start tokens)

end Grammar
end LiveSheet
