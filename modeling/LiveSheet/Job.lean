import LiveSheet.Item
import LiveSheet.Snapshot
import LiveSheet.Timing
import LiveSheet.Work

/-!
# Jobs

Parsers, their answers, and scheduled parses.
-/

namespace LiveSheet

/-- What a call of a parser leaves behind: items or an error, and the durations that
it noted on its way, in this order. -/
structure Answer where
  result : Except ParseError (List Item)
  notes : List Measurement

/-- How long the call took by its own notes. -/
def Answer.timing (a : Answer) : Timing := .ofNotes a.notes

/-- How a call of the parser ends: it returns, or it crashes and there is only a
report of that. -/
inductive Ending where
  | returned (result : Except ParseError (List Item))
  | crashed (report : String)

/-- What counts as the result of the call.  A crash counts as a failure inside the
parser. -/
def Ending.result : Ending → Except ParseError (List Item)
  | returned result => result
  | crashed report => .error (.internal ("parse task failed: " ++ report))

/-- A parser is told how often it was called before, and the snapshot to parse. -/
abbrev Parser := Nat → Snapshot → Work Answer

/-- How far a scheduled parse has come: nobody has called the parser yet, the
parser was called, or its work is under way.  The call keeps its number, so that
every answer can be traced to the call that gave it. -/
inductive Stage where
  | waiting
  | called (call : Nat)
  | underway (call : Nat) (work : Work Answer)

/-- A scheduled parse of one snapshot. -/
structure Job where
  id : Nat
  snapshot : Snapshot
  stage : Stage

end LiveSheet
