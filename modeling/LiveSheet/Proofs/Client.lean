import LiveSheet.Proofs.Controller
import LiveSheet.Proofs.Lines
import LiveSheet.Server

/-!
# Clients

What a client shows of its open documents, by the rules of the notifications that it sends,
and the documents of a server that hears them.  Whatever happens in the background, the
server has exactly the texts that the client shows.
-/

namespace LiveSheet

namespace ContentChange

/-- The places of a range lie inside the text, and the first is not after the second. -/
def Fits (t : Text) : ContentChange → Prop
  | whole _ => True
  | range start stop _ => start.UpTo stop ∧ t.Holds start ∧ t.Holds stop

/-- What a client makes of a text by a change. -/
def made (t : Text) : ContentChange → Text
  | whole text => text
  | range start stop text => t.take (t.place start) ++ text ++ t.drop (t.place stop)

/-- Each change fits the text that the changes before it make. -/
def AllFit (t : Text) : List ContentChange → Prop
  | [] => True
  | change :: rest => change.Fits t ∧ AllFit (change.made t) rest

instance (t : Text) : (change : ContentChange) → Decidable (change.Fits t)
  | whole _ => inferInstanceAs (Decidable True)
  | range start stop _ =>
    inferInstanceAs (Decidable (start.UpTo stop ∧ t.Holds start ∧ t.Holds stop))

instance decidableAllFit (t : Text) : (changes : List ContentChange) → Decidable (AllFit t changes)
  | [] => inferInstanceAs (Decidable True)
  | change :: rest =>
    have := decidableAllFit (change.made t) rest
    inferInstanceAs (Decidable (change.Fits t ∧ AllFit (change.made t) rest))

theorem apply_eq_made {t : Text} {change : ContentChange} (h : change.Fits t) :
    change.apply t = change.made t := by
  cases change with
  | whole text => rfl
  | range start stop text =>
    obtain ⟨hupto, hstart, hstop⟩ := h
    have hle := Text.place_le_place hstart hupto
    simp only [apply, Text.offsetOf_eq_place hstart, Text.offsetOf_eq_place hstop,
      Option.getD_some, if_neg (Nat.not_lt.2 hle)]
    rfl

theorem foldl_apply_eq_made {t : Text} {changes : List ContentChange} (h : AllFit t changes) :
    changes.foldl apply t = changes.foldl made t := by
  induction changes generalizing t with
  | nil => rfl
  | cons change rest ih => rw [List.foldl_cons, List.foldl_cons, apply_eq_made h.1, ih h.2]

end ContentChange

/-- What a client tells a server about its documents. -/
inductive Notification where
  | opened (uri : String) (text : Text)
  | changed (uri : String) (changes : List ContentChange)
  | closed (uri : String)
  | shutdown

/-- The document that a notification is about, unless it is about all of them. -/
def Notification.uri? : Notification → Option String
  | opened uri _ => some uri
  | changed uri _ => some uri
  | closed uri => some uri
  | shutdown => none

def Session.Action.edits : Session.Action → Bool
  | .edit _ => true
  | _ => false

/-- What happens to a server: a notification comes, settings come, or the session of a
controller goes on.  Only notifications edit texts. -/
inductive Event where
  | notified (n : Notification)
  | configured (v : SettingValue)
  | worked (controller : Nat) (a : Session.Action) (h : a.edits = false)

/-- What a client shows of a document: its text, and how often it was changed since it was
opened. -/
structure Shown where
  text : Text
  version : Nat
  deriving DecidableEq

def Snapshot.shown (s : Snapshot) : Shown := ⟨s.text, s.version⟩

/-- The open documents of a client. -/
abbrev Client := String → Option Shown

namespace Client

def empty : Client := fun _ => none

/-- One document is shown in a new way, or no more. -/
def display (c : Client) (uri : String) (shown : Option Shown) : Client :=
  fun other => if other = uri then shown else c other

def notify (c : Client) : Notification → Client
  | .opened uri text =>
    c.display uri (some ⟨text, (c uri).elim 0 (·.version + 1)⟩)
  | .changed uri changes =>
    c.display uri ((c uri).map fun shown =>
      ⟨changes.foldl ContentChange.made shown.text, shown.version + 1⟩)
  | .closed uri => c.display uri none
  | .shutdown => empty

def hear (c : Client) : Event → Client
  | .notified n => c.notify n
  | _ => c

/-- The changes of an open document fit its text.  All else may happen at any time. -/
def Permits (c : Client) : Event → Prop
  | .notified (.changed uri changes) => ∀ shown ∈ c uri, ContentChange.AllFit shown.text changes
  | _ => True

def PermitsAll (c : Client) : List Event → Prop
  | [] => True
  | e :: rest => c.Permits e ∧ (c.hear e).PermitsAll rest

instance (c : Client) : (e : Event) → Decidable (c.Permits e)
  | .notified (.changed uri changes) =>
    inferInstanceAs (Decidable (∀ shown ∈ c uri, ContentChange.AllFit shown.text changes))
  | .notified (.opened _ _) => inferInstanceAs (Decidable True)
  | .notified (.closed _) => inferInstanceAs (Decidable True)
  | .notified .shutdown => inferInstanceAs (Decidable True)
  | .configured _ => inferInstanceAs (Decidable True)
  | .worked _ _ _ => inferInstanceAs (Decidable True)

instance decidablePermitsAll (c : Client) : (events : List Event) → Decidable (c.PermitsAll events)
  | [] => inferInstanceAs (Decidable True)
  | e :: rest =>
    have := decidablePermitsAll (c.hear e) rest
    inferInstanceAs (Decidable (c.Permits e ∧ (c.hear e).PermitsAll rest))

end Client

namespace Server

def notify (s : Server) : Notification → Server
  | .opened uri text => s.didOpen uri text
  | .changed uri changes => s.didChange uri changes
  | .closed uri => s.didClose uri
  | .shutdown => s.shutdown

def hear (s : Server) : Event → Server
  | .notified n => s.notify n
  | .configured v => s.configure v
  | .worked controller a _ => s.background controller a

end Server
end LiveSheet
