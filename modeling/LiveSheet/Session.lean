import LiveSheet.Controller

/-!
# Sessions

A buffer with one controller attached to it.  A session is driven by actions that
come one at a time and in any order.
-/

namespace LiveSheet

structure Session where
  buffer : Buffer
  controller : Controller

namespace Session

/-- Attaches a new controller to a buffer: it subscribes, and schedules a parse of
the live snapshot. -/
def attach (b : Buffer) (options : ControllerOptions) : Session × List Effect :=
  let (stream, b) := b.subscribe
  let (c, effects) := (Controller.create b.id stream b.path options).schedule b.live
  (⟨b, c⟩, effects)

/-- What can happen in a session. -/
inductive Action where
  | edit (f : Text → Text)
  | schedule (s : Snapshot)
  | notify (s : Snapshot)
  | listen
  | advance (job : Nat)
  | subscribe
  | drain (receiver : Nat)
  | close
  | release

def withController (s : Session) (next : Controller × List Effect) : Session × List Effect :=
  ({ s with controller := next.1 }, next.2)

/-- The controller takes one notice from the buffer, unless it is closed. -/
def listen (s : Session) : Session × List Effect :=
  if s.controller.closed then (s, [])
  else
    match s.buffer.take? s.controller.stream with
    | none => (s, [])
    | some (notice, buffer) =>
      { s with buffer := buffer }.withController (s.controller.hear buffer.live notice)

def advance (parser : Parser) (s : Session) (job : Nat) : Session × List Effect :=
  match s.controller.job? job with
  | none => (s, [])
  | some job => s.withController (s.controller.advance parser s.buffer.live job)

/-- One thing happens.  Nothing else happens meanwhile. -/
def act (parser : Parser) (s : Session) : Action → Session × List Effect
  | .edit f => ({ s with buffer := s.buffer.edit f }, [])
  | .schedule snapshot => s.withController (s.controller.schedule snapshot)
  | .notify snapshot => s.withController (s.controller.notify s.buffer.live snapshot)
  | .listen => s.listen
  | .advance job => s.advance parser job
  | .subscribe => s.withController (s.controller.subscribe.2, [])
  | .drain receiver => s.withController ((s.controller.drain receiver).2, [])
  | .close => s.withController (s.controller.close, [])
  | .release => s.withController (s.controller.release, [])

def run (parser : Parser) (s : Session) : List Action → Session × List Effect
  | [] => (s, [])
  | a :: rest =>
    let (s, effects) := s.act parser a
    let (s, later) := s.run parser rest
    (s, effects ++ later)

end Session
end LiveSheet
