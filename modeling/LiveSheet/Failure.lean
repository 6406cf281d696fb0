import LiveSheet.Log
import LiveSheet.ParseError

/-!
# Failures

What is reported about a parse that failed.
-/

namespace LiveSheet

/-- A parse that failed for another reason than that nobody wanted it any more. -/
structure Failure where
  version : Nat
  path : Option String
  error : ParseError
  deriving DecidableEq

namespace Failure

/-- The version comes in parentheses after the path, if there is a path. -/
def describe (f : Failure) : String :=
  match f.path with
  | some path => path ++ " (version " ++ toString f.version ++ "): " ++ f.error.message
  | none => "version " ++ toString f.version ++ ": " ++ f.error.message

/-- What readers of a log are told about a failure. -/
def announcement (f : Failure) : String := "parse failed for " ++ f.describe

def logEntry (f : Failure) : LogEntry := ⟨.error, f.announcement⟩

end Failure
end LiveSheet
