import LiveSheet.Grammar.Parser
import LiveSheet.RunLoop

/-!
# Scripted parsers

A parser whose every answer is laid down, for rehearsing what a controller does.
-/

namespace LiveSheet

inductive Breakdown where
  | malformed (error : SyntaxError)
  | internal (message : String)
  | cancelled
  | crash
  deriving DecidableEq

/-- How a parse of some version ends by a breakdown.  What a crash was about is not
told. -/
def Breakdown.ending (version : Nat) : Breakdown → Ending
  | malformed e => .returned (.error (.malformed e))
  | internal m => .returned (.error (.internal m))
  | cancelled => .returned (.error (.cancelled version))
  | crash => .crashed ""

/-- A parser that does as it is told.  It can note durations by call, hold versions
back, ask for cancellation once, and fail on versions; apart from that it parses
with the grammar or gives one item for the whole text. -/
structure Script where
  grammar : Bool
  cooperative : Bool
  gates : List Nat
  breakdowns : List (Nat × Breakdown)
  durations : List Timing

namespace Script

def release (s : Script) (version : Nat) : Script :=
  { s with gates := s.gates.filter (· != version) }

def breakOn (s : Script) (version : Nat) (b : Breakdown) : Script :=
  { s with breakdowns := (version, b) :: s.breakdowns }

def holdsBack (s : Script) (version : Nat) : Bool := s.gates.contains version

def timing (s : Script) (call : Nat) : Timing := (s.durations[call]?).getD .zero

/-- What a call notes before it does anything else. -/
def notes (s : Script) (call : Nat) : List Measurement :=
  ((s.durations[call]?).map Timing.notes).getD []

/-- The item for a whole text of which nothing is known. -/
def wholeText (t : Text) : List Item := [.leaf .unknown (.between 0 t.length)]

def parser (s : Script) : Parser := fun call snapshot =>
  let proceed := fun (_ : Unit) =>
    match s.breakdowns.lookup snapshot.version with
    | some b => .done ⟨(b.ending snapshot.version).result, s.notes call⟩
    | none =>
      if s.grammar then Grammar.parser Grammar.defaultInterval s.timing call snapshot
      else .done ⟨.ok (wholeText snapshot.text), s.notes call⟩
  if s.cooperative then
    .poll ⟨.lexing, 0⟩ fun requested =>
      if requested then .done ⟨.error (.cancelled snapshot.version), s.notes call⟩
      else proceed ()
  else proceed ()

/-- The run loop in which the script is followed. -/
def runLoop (s : Script) : RunLoop := ⟨s.parser, s.holdsBack⟩

end Script
end LiveSheet
