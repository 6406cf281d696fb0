import LiveSheet.Workspace

/-!
# The run loop

Everything in a session may happen in any order.  The run loop fixes one: turns
are taken first in, first out, on one thread.
-/

namespace LiveSheet

/-- What waits for a turn: a controller that has notices to hear, a parse that is
to begin, or one that goes on. -/
inductive Turn where
  | listen (controller : Nat)
  | begin (controller job : Nat)
  | proceed (controller job : Nat)
  deriving DecidableEq

/-- Gives out turns first in, first out, on one thread.  A parse whose version is
held back gets none once its parser was called. -/
structure RunLoop where
  parser : Parser
  holdsBack : Nat → Bool

/-- Effects, each with the controller that it comes from. -/
abbrev Effects := List (Nat × Effect)

namespace RunLoop

/-- Whether work of a job is already waiting for a turn. -/
def isQueued (queue : List Turn) (controller job : Nat) : Bool :=
  queue.contains (.begin controller job) || queue.contains (.proceed controller job)

/-- The turn that a job waits for, if it may have one. -/
def turnOf? (loop : RunLoop) (controller : Nat) (job : Job) : Option Turn :=
  match job.stage with
  | .waiting => some (.begin controller job.id)
  | .called _ =>
    if loop.holdsBack job.snapshot.version then none else some (.proceed controller job.id)
  | .underway _ _ => some (.proceed controller job.id)

def hasNotices (w : Workspace) (c : Controller) : Bool :=
  !c.closed && ((w.buffers[c.buffer]?).bind fun b => b.streams[c.stream]?).any fun i => !i.isEmpty

/-- Lines up what a controller waits for and what is not lined up yet. -/
def wakeOne (loop : RunLoop) (w : Workspace) (queue : List Turn) (entry : Controller × Nat) :
    List Turn :=
  let (c, id) := entry
  let queue :=
    if hasNotices w c && !queue.contains (.listen id) then queue ++ [.listen id] else queue
  c.jobs.foldl
    (fun queue job =>
      if isQueued queue id job.id then queue else queue ++ (loop.turnOf? id job).toList)
    queue

def wake (loop : RunLoop) (w : Workspace) (queue : List Turn) : List Turn :=
  w.controllers.zipIdx.foldl (loop.wakeOne w) queue

/-- A controller hears up to `n` notices. -/
def hearAll (parser : Parser) (controller : Nat) : Nat → Workspace → Workspace × List Effect
  | 0, w => (w, [])
  | n + 1, w =>
    let (w, effects) := w.act parser controller .listen
    let (w, later) := hearAll parser controller n w
    (w, effects ++ later)

def notices (w : Workspace) (controller : Nat) : Nat :=
  match w.session? controller with
  | none => 0
  | some s => ((s.buffer.streams[s.controller.stream]?).map fun i => i.contents.length).getD 0

def isWaiting (w : Workspace) (controller job : Nat) : Bool :=
  match (w.controller? controller).bind fun c => c.job? job with
  | some ⟨_, _, .waiting⟩ => true
  | _ => false

/-- Whether a job, its parser called, is held back. -/
def isHeldBack (loop : RunLoop) (w : Workspace) (controller job : Nat) : Bool :=
  match (w.controller? controller).bind fun c => c.job? job with
  | some ⟨_, s, .called _⟩ => loop.holdsBack s.version
  | _ => false

/-- Gives a turn, and says what is to be lined up for it next.  In its first turn
a parse only starts; in its second one the parser is called and runs. -/
def take (loop : RunLoop) (w : Workspace) : Turn → Workspace × List Turn × Effects
  | .listen c =>
    let (w, effects) := hearAll loop.parser c (notices w c) w
    (w, [], effects.map (c, ·))
  | .begin c job => (w, [.proceed c job], [])
  | .proceed c job =>
    let w := if isWaiting w c job then (w.act loop.parser c (.advance job)).1 else w
    if loop.isHeldBack w c job then (w, [], [])
    else
      let (w, effects) := w.act loop.parser c (.advance job)
      (w, [], effects.map (c, ·))

/-- Gives up to `n` turns. -/
def runFor (loop : RunLoop) : Nat → Workspace → List Turn → Workspace × Effects
  | 0, w, _ => (w, [])
  | _ + 1, w, [] => (w, [])
  | n + 1, w, turn :: queue =>
    let (w, next, effects) := loop.take w turn
    let (w, later) := loop.runFor n w (loop.wake w (queue ++ next))
    (w, effects ++ later)

/-- A number of turns after which no controller has anything left to do.  A parse
pauses at most once a character, and each notice leads to at most one parse. -/
def enough (w : Workspace) : Nat :=
  (w.controllers.zipIdx.map fun (c, id) =>
    let live := ((w.live? c.buffer).map Snapshot.length).getD 0
    (c.jobs.map fun j => j.snapshot.length + 6).foldr (· + ·)
      ((notices w id + 1) * (live + 6))).foldr (· + ·) 0

/-- Runs everything that can run to its end. -/
def settle (loop : RunLoop) (w : Workspace) (queue : List Turn) : Workspace × Effects :=
  loop.runFor (enough w) w (loop.wake w queue)

end RunLoop
end LiveSheet
