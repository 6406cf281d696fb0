import LiveSheet.Cancellation
import LiveSheet.Failure
import LiveSheet.Job
import LiveSheet.Timing.Report
import LiveSheet.Tree

/-!
# Controllers

A controller decides which parses to schedule and which trees to take over.  All
its decisions depend on its own state and the live snapshot of its buffer alone;
what else it brings about is returned as a list of effects.
-/

namespace LiveSheet

/-- One tree took the place of another. -/
structure TreeChange where
  previous : Tree
  current : Tree

/-- What becomes of a finished parse.  A stale one came too late, and a superseded
one finds that its snapshot has a tree. -/
inductive Outcome where
  | applied (version : Nat)
  | stale
  | failed
  | superseded
  deriving DecidableEq, Repr

inductive Effect where
  | logged (entry : LogEntry)
  | reported (reporter : String) (failure : Failure)
  | changed (change : TreeChange)
  | concluded (job : Nat) (outcome : Outcome)

/-- Whom a controller reports failures to, and what it logs about new trees. -/
structure ControllerOptions where
  reporter : String
  dumpTree : Bool
  logTimings : Bool
  deriving DecidableEq, Repr

/-- Keeps the tree of one buffer up to date.  The controller listens to a stream
of the buffer, schedules parses, and takes over the tree of a parse only if its
snapshot is still the live one.  It lives as long as someone holds it or a parse
is in flight. -/
structure Controller where
  buffer : Nat
  stream : Nat
  path : Option String
  options : ControllerOptions
  closed : Bool
  held : Bool
  tree : Tree
  timing : Timing
  receivers : List (Inbox TreeChange)
  jobs : List Job
  scheduled : Nat
  calls : Nat

namespace Controller

/-- How many tree changes wait for a receiver at most. -/
def capacity : Nat := 16

/-- A controller that has not scheduled anything yet. -/
def create (buffer stream : Nat) (path : Option String) (options : ControllerOptions) :
    Controller :=
  { buffer, stream, path, options
    closed := false
    held := true
    tree := .empty
    timing := .zero
    receivers := []
    jobs := []
    scheduled := 0
    calls := 0 }

/-- Nobody holds the controller, and no parse is in flight. -/
def isGone (c : Controller) : Bool := !c.held && c.jobs.isEmpty

def reap (c : Controller) : Controller := { c with closed := c.closed || c.isGone }

/-- Schedules a parse, whatever the snapshot. -/
def schedule (c : Controller) (s : Snapshot) : Controller × List Effect :=
  ({ c with jobs := c.jobs ++ [⟨c.scheduled, s, .waiting⟩], scheduled := c.scheduled + 1 },
   [.logged ⟨.debug, "scheduling parse of version " ++ toString s.version⟩])

def accepts (c : Controller) (live s : Snapshot) : Bool := !c.closed && live == s

/-- Takes a change notification.  Only the live snapshot is worth a parse. -/
def notify (c : Controller) (live s : Snapshot) : Controller × List Effect :=
  if c.closed then (c, [])
  else if live != s then
    (c, [.logged ⟨.trace,
      "ignoring stale change notification for version " ++ toString s.version⟩])
  else c.schedule s

/-- Takes what the stream of the buffer gives.  If notifications were lost, the
live snapshot is parsed in their place. -/
def hear (c : Controller) (live : Snapshot) : Notice Snapshot → Controller × List Effect
  | .received s => c.notify live s
  | .missed count =>
    let (next, effects) := c.notify live live
    (next, .logged ⟨.debug, "missed " ++ toString count ++
      " change notifications; reparsing live snapshot"⟩ :: effects)

/-- What becomes of a parse of `s` with this result. -/
def verdict (c : Controller) (live s : Snapshot) : Except ParseError (List Item) → Outcome
  | .error e => if e.isCancelled then .stale else .failed
  | .ok _ =>
    if c.closed || live != s then .stale
    else if c.tree.version?.any (s.version ≤ ·) then .superseded
    else .applied s.version

/-- Takes over a new tree, and tells all receivers. -/
def commit (c : Controller) (s : Snapshot) (items : List Item) (timing : Timing) :
    Controller × List Effect :=
  let change : TreeChange := ⟨c.tree, .parsed s items⟩
  let applied := ⟨.debug, "applied tree for version " ++ toString s.version⟩
  let timings := if c.options.logTimings then timing.report else []
  let dump := if c.options.dumpTree then change.current.dump.map (⟨.debug, ·⟩) else []
  ({ c with
      tree := change.current
      timing := timing
      receivers := c.receivers.map (Inbox.push capacity change) },
   .changed change :: (applied :: timings ++ dump).map .logged)

/-- What the controller does about an answer, apart from noting the outcome. -/
def respond (c : Controller) (live s : Snapshot) (a : Answer) : Controller × List Effect :=
  let version := toString s.version
  match a.result, c.verdict live s a.result with
  | .ok items, .applied _ => c.commit s items a.timing
  | .ok _, .stale => (c, [.logged ⟨.trace, "discarding stale parse of version " ++ version⟩])
  | .ok _, _ => (c, [])
  | .error _, .stale => (c, [.logged ⟨.trace, "parse of version " ++ version ++ " abandoned"⟩])
  | .error e, _ =>
    (c, if c.closed then [] else [.reported c.options.reporter ⟨s.version, c.path, e⟩])

def conclude (c : Controller) (live : Snapshot) (job : Job) (a : Answer) :
    Controller × List Effect :=
  let outcome := c.verdict live job.snapshot a.result
  let (next, effects) := c.respond live job.snapshot a
  ({ next with jobs := next.jobs.filter fun j => j.id != job.id }.reap,
   effects ++ [.concluded job.id outcome])

def job? (c : Controller) (id : Nat) : Option Job := c.jobs.find? fun j => j.id == id

/-- Notes how far a parse has come. -/
def reach (c : Controller) (id : Nat) (stage : Stage) : Controller :=
  { c with jobs := c.jobs.map fun j => if j.id == id then { j with stage := stage } else j }

/-- Calls the parser for a parse that waits. -/
def call (c : Controller) (job : Job) : Controller :=
  { c.reach job.id (.called c.calls) with calls := c.calls + 1 }

/-- Whether work on a snapshot is asked to stop. -/
def requested (c : Controller) (live s : Snapshot) : Bool :=
  cancellationRequested c.closed live s

/-- Gives a parse its turn: its work goes on to the next pause or to the end, and
in the turn after that the parse is concluded. -/
def advance (parser : Parser) (c : Controller) (live : Snapshot) (job : Job) :
    Controller × List Effect :=
  let resume := fun (call : Nat) (work : Work Answer) =>
    (c.reach job.id (.underway call (work.resume (c.requested live job.snapshot))), [])
  match job.stage with
  | .waiting => (c.call job, [])
  | .called call => resume call (parser call job.snapshot)
  | .underway _ (.done a) => c.conclude live job a
  | .underway call (.pause work) => resume call work
  | .underway call work => resume call work

/-- Subscribes a new receiver of tree changes, known by its place in the list. -/
def subscribe (c : Controller) : Nat × Controller :=
  (c.receivers.length, { c with receivers := c.receivers ++ [.empty] })

def drain (c : Controller) (receiver : Nat) : List (Notice TreeChange) × Controller :=
  match c.receivers[receiver]? with
  | some inbox => (inbox.contents, { c with receivers := c.receivers.set receiver .empty })
  | none => ([], c)

/-- Closes the controller: it takes over no tree any more. -/
def close (c : Controller) : Controller := { c with closed := true }

/-- The last one who held the controller lets go of it. -/
def release (c : Controller) : Controller := { c with held := false }.reap

end Controller
end LiveSheet
