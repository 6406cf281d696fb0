import LiveSheet.Inbox
import LiveSheet.Snapshot

/-!
# Buffers

A buffer is a text under edit with its live snapshot.  Versions rise by one with
every edit, so a buffer never issues two snapshots of one version, and version
and origin together identify a snapshot.
-/

namespace LiveSheet

/-- One change of a text.  A start after the end counts as the end, and a stop
before the start as the start. -/
structure TextEdit where
  start : Nat
  stop : Nat
  insertion : Text
  deriving DecidableEq

def TextEdit.apply (e : TextEdit) (t : Text) : Text :=
  t.splice e.start (max e.start e.stop) e.insertion

/-- A text under edit.  Every edit makes a new snapshot, one version on, and
sends it to all streams that were subscribed before. -/
structure Buffer where
  id : Nat
  path : Option String
  live : Snapshot
  streams : List (Inbox Snapshot)

namespace Buffer

/-- How many snapshots wait in a stream at most. -/
def capacity : Nat := 64

def create (id version : Nat) (path : Option String) (text : Text) : Buffer :=
  ⟨id, path, ⟨version, .buffer id, text⟩, []⟩

/-- Makes a snapshot with a new text the live one, and sends it to all streams. -/
def edit (b : Buffer) (f : Text → Text) : Buffer :=
  let next : Snapshot := ⟨b.live.version + 1, .buffer b.id, f b.live.text⟩
  { b with live := next, streams := b.streams.map (Inbox.push capacity next) }

def replace (b : Buffer) (text : Text) : Buffer := b.edit fun _ => text

/-- Makes one new version out of several changes, each made to the outcome of
those before it. -/
def update (b : Buffer) (edits : List TextEdit) : Buffer :=
  b.edit fun t => edits.foldl (fun t e => e.apply t) t

def applyEdit (b : Buffer) (e : TextEdit) : Buffer := b.edit e.apply

/-- Subscribes a new stream, which is known by its place in the list. -/
def subscribe (b : Buffer) : Nat × Buffer :=
  (b.streams.length, { b with streams := b.streams ++ [.empty] })

def take? (b : Buffer) (stream : Nat) : Option (Notice Snapshot × Buffer) := do
  let inbox ← b.streams[stream]?
  let (notice, rest) ← inbox.take?
  return (notice, { b with streams := b.streams.set stream rest })

def drain (b : Buffer) (stream : Nat) : List (Notice Snapshot) × Buffer :=
  match b.streams[stream]? with
  | some inbox => (inbox.contents, { b with streams := b.streams.set stream .empty })
  | none => ([], b)

/-- What can be done with a buffer.  An update may change the text in any way. -/
inductive Action where
  | replace (text : Text)
  | applyEdit (e : TextEdit)
  | update (f : Text → Text)
  | subscribe
  | take (stream : Nat)
  | drain (stream : Nat)

/-- What comes out of a buffer: a snapshot that is sent to the streams, or what
somebody takes from one of them. -/
inductive Event where
  | published (s : Snapshot)
  | taken (stream : Nat) (notices : List (Notice Snapshot))

def act (b : Buffer) : Action → Buffer × List Event
  | .replace text => (b.replace text, [.published (b.replace text).live])
  | .applyEdit e => (b.applyEdit e, [.published (b.applyEdit e).live])
  | .update f => (b.edit f, [.published (b.edit f).live])
  | .subscribe => (b.subscribe.2, [])
  | .take stream =>
    match b.take? stream with
    | some (notice, next) => (next, [.taken stream [notice]])
    | none => (b, [])
  | .drain stream => ((b.drain stream).2, [.taken stream (b.drain stream).1])

def run (b : Buffer) : List Action → Buffer × List Event
  | [] => (b, [])
  | a :: rest =>
    let (b, events) := b.act a
    let (b, later) := b.run rest
    (b, events ++ later)

@[simp] theorem edit_version (b : Buffer) (f : Text → Text) :
    (b.edit f).live.version = b.live.version + 1 := rfl

@[simp] theorem edit_text (b : Buffer) (f : Text → Text) :
    (b.edit f).live.text = f b.live.text := rfl

@[simp] theorem edit_id (b : Buffer) (f : Text → Text) : (b.edit f).id = b.id := rfl

theorem take?_eq_some {b next : Buffer} {stream : Nat} {notice : Notice Snapshot}
    (h : b.take? stream = some (notice, next)) :
    ∃ inbox rest, b.streams[stream]? = some inbox ∧ inbox.take? = some (notice, rest) ∧
      next = { b with streams := b.streams.set stream rest } := by
  simp only [take?, Option.bind_eq_bind, Option.pure_def, Option.bind_eq_some_iff,
    Option.some.injEq, Prod.mk.injEq] at h
  obtain ⟨inbox, hinbox, ⟨n, rest⟩, htake, rfl, rfl⟩ := h
  exact ⟨inbox, rest, hinbox, htake, rfl⟩

end Buffer
end LiveSheet
