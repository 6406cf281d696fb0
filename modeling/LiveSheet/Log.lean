/-!
# Log entries

What a controller has to tell about its own work, by level.
-/

namespace LiveSheet

/-- How much a log entry matters. -/
inductive LogLevel where
  | error
  | debug
  | trace
  deriving DecidableEq, Repr

def LogLevel.name : LogLevel → String
  | error => "ERROR"
  | debug => "DEBUG"
  | trace => "TRACE"

structure LogEntry where
  level : LogLevel
  message : String
  deriving DecidableEq, Repr

def LogEntry.render (e : LogEntry) : String := e.level.name ++ " " ++ e.message

end LiveSheet
