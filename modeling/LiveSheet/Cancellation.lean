import LiveSheet.Buffer
import LiveSheet.ParseError

/-!
# Cancellation

Work on a snapshot is asked to stop when its scope is cancelled or when the
buffer has moved on to another snapshot.  Tokens carry that question to the work.
-/

namespace LiveSheet

/-- Whether work on `target` is no longer wanted: its scope was cancelled, or the
live snapshot is another one. -/
def cancellationRequested (cancelled : Bool) (live target : Snapshot) : Bool :=
  cancelled || live != target

/-- Tells work on a snapshot whether it is still wanted.  A token that is not
bound to the buffer depends on its scope alone. -/
structure CancelToken where
  target : Snapshot
  scope : Nat
  bound : Bool

/-- A buffer with the scopes cancelled so far and the tokens made so far.  Scopes
with even numbers are for bound tokens, which may share them; each of the others
belongs to one token that is not bound. -/
structure Oversight where
  buffer : Buffer
  cancelled : List Nat
  tokens : List CancelToken

namespace Oversight

def start (b : Buffer) : Oversight := ⟨b, [], []⟩

def requested (o : Oversight) (t : CancelToken) : Bool :=
  cancellationRequested (o.cancelled.contains t.scope)
    (if t.bound then o.buffer.live else t.target) t.target

/-- Refuses to go on once the token asks the work to stop. -/
def ensureActive (o : Oversight) (t : CancelToken) : Except ParseError Unit :=
  if o.requested t then .error (.cancelled t.target.version) else .ok ()

/-- Makes a token that is bound to the buffer, under a scope that others may share. -/
def bindToken (o : Oversight) (target : Snapshot) (scope : Nat) : Oversight :=
  { o with tokens := o.tokens ++ [⟨target, 2 * scope, true⟩] }

/-- Makes a token that is not bound to the buffer, with a scope of its own. -/
def detachToken (o : Oversight) (target : Snapshot) : Oversight :=
  { o with tokens := o.tokens ++ [⟨target, 2 * o.tokens.length + 1, false⟩] }

/-- Makes a token.  If it is bound, then under the first of the shared scopes. -/
def addToken (o : Oversight) (target : Snapshot) (bound : Bool) : Oversight :=
  if bound then o.bindToken target 0 else o.detachToken target

def cancel (o : Oversight) (scope : Nat) : Oversight :=
  { o with cancelled := scope :: o.cancelled }

/-- What can happen to a buffer and its tokens. -/
inductive Action where
  | onBuffer (a : Buffer.Action)
  | bindToken (target : Snapshot) (scope : Nat)
  | detachToken (target : Snapshot)
  | cancel (scope : Nat)

def act (o : Oversight) : Action → Oversight
  | .onBuffer a => { o with buffer := (o.buffer.act a).1 }
  | .bindToken target scope => o.bindToken target scope
  | .detachToken target => o.detachToken target
  | .cancel scope => o.cancel scope

def describe (o : Oversight) (t : CancelToken) : String :=
  "SnapshotCancellationToken \x7b target: " ++ toString t.target.version ++ ", requested: " ++
    toString (o.requested t) ++ " \x7d"

end Oversight
end LiveSheet
