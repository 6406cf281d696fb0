import LiveSheet.ParseError

/-!
# Interruptible work

Work as a tree of questions and pauses.  A run of it is a path through the tree,
so whatever holds of all paths holds under every history of cancellation.
-/

namespace LiveSheet

inductive Phase where
  | lexing
  | reading
  deriving DecidableEq, Repr

/-- How far a parse has come: its phase, and the tokens produced or taken in it. -/
structure Checkpoint where
  phase : Phase
  tokens : Nat
  deriving DecidableEq, Repr

/-- Work that asks now and then whether its cancellation has been requested, and
that now and then pauses to let other work run.  What the answers depend on is
left open: the work is a tree that branches on them. -/
inductive Work (α : Type) where
  | done (value : α)
  | poll (mark : Checkpoint) (next : Bool → Work α)
  | pause (next : Work α)

namespace Work

variable {α β : Type}

def bind : Work α → (α → Work β) → Work β
  | done a, f => f a
  | poll mark next, f => poll mark fun requested => (next requested).bind f
  | pause next, f => pause (next.bind f)

def map (f : α → β) (work : Work α) : Work β := work.bind fun a => done (f a)

/-- Runs the work up to its next pause or its end, when all questions before that
get the same answer. -/
def resume (requested : Bool) : Work α → Work α
  | done a => done a
  | poll _ next => (next requested).resume requested
  | pause next => pause next

/-- Asks, and gives up if cancellation has been requested. -/
def check (mark : Checkpoint) (version : Nat) (next : Unit → Work (Except ParseError α)) :
    Work (Except ParseError α) :=
  poll mark fun requested =>
    if requested then done (.error (.cancelled version)) else next ()

/-- When cancellation is requested: from a certain question on, from a certain
number of pauses on, or both. -/
structure Patience where
  polls : Option Nat
  pauses : Option Nat

/-- A result, and how often the work paused and asked on the way.  Questions
after the last permitted pause are not counted. -/
structure Record (α : Type) where
  value : α
  pauses : Nat
  polls : Nat

/-- The result under a patience, when the work has paused and asked that often. -/
def runFrom (p : Patience) (pauses polls : Nat) : Work α → Record α
  | done a => ⟨a, pauses, polls⟩
  | pause next => next.runFrom p (pauses + 1) polls
  | poll _ next =>
    if p.pauses.any (· ≤ pauses) then (next true).runFrom p pauses polls
    else (next (p.polls.any (· ≤ polls))).runFrom p pauses (polls + 1)

def run (p : Patience) (work : Work α) : Record α := work.runFrom p 0 0

end Work
end LiveSheet
