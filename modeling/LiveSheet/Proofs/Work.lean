import LiveSheet.Work

/-!
# Endings of interruptible work

Work is a tree that branches on the answers to its questions, and a run of it is a
path.  `Ends` says which values the paths lead to, `undisturbed` is the value at the
end of the path on which no question is answered with yes.
-/

namespace LiveSheet
namespace Work

variable {α β : Type}

/-- Some way of answering the questions of the work ends in a value. -/
inductive Ends : Work α → α → Prop where
  | done (a : α) : Ends (.done a) a
  | poll {mark : Checkpoint} {next : Bool → Work α} {a : α} (requested : Bool)
      (h : Ends (next requested) a) : Ends (.poll mark next) a
  | pause {next : Work α} {a : α} (h : Ends next a) : Ends (.pause next) a

/-- The value of the work when cancellation is never requested. -/
def undisturbed : Work α → α
  | done a => a
  | poll _ next => (next false).undisturbed
  | pause next => next.undisturbed

theorem ends_done_iff {a b : α} : (done a).Ends b ↔ b = a := by
  constructor
  · intro h
    cases h
    rfl
  · intro h
    rw [h]
    exact .done a

theorem ends_poll_iff {mark : Checkpoint} {next : Bool → Work α} {a : α} :
    (poll mark next).Ends a ↔ ∃ requested, (next requested).Ends a := by
  constructor
  · intro h
    cases h with
    | poll requested h => exact ⟨requested, h⟩
  · rintro ⟨requested, h⟩
    exact .poll requested h

theorem ends_pause_iff {next : Work α} {a : α} : (pause next).Ends a ↔ next.Ends a := by
  constructor
  · intro h
    cases h with
    | pause h => exact h
  · exact .pause

/-- Going on up to the next pause opens no way to a new value. -/
theorem ends_of_resume {requested : Bool} {w : Work α} {a : α}
    (h : (w.resume requested).Ends a) : w.Ends a := by
  induction w with
  | done b => exact h
  | poll mark next ih => exact .poll requested (ih requested h)
  | pause next => exact h

theorem undisturbed_resume (w : Work α) : (w.resume false).undisturbed = w.undisturbed := by
  induction w with
  | done a => rfl
  | poll mark next ih => exact ih false
  | pause next => rfl

theorem undisturbed_bind (w : Work α) (f : α → Work β) :
    (w.bind f).undisturbed = (f w.undisturbed).undisturbed := by
  induction w with
  | done a => rfl
  | poll mark next ih => exact ih false
  | pause next ih => exact ih

theorem map_eq_self {f : α → α} (h : ∀ a, f a = a) (w : Work α) : w.map f = w := by
  induction w with
  | done a => exact congrArg done (h a)
  | poll mark next ih => exact congrArg (poll mark) (funext ih)
  | pause next ih => exact congrArg pause ih

theorem map_bind {γ : Type} (w : Work α) (f : α → Work β) (g : β → γ) :
    (w.bind f).map g = w.bind fun a => (f a).map g := by
  induction w with
  | done a => rfl
  | poll mark next ih => exact congrArg (poll mark) (funext ih)
  | pause next ih => exact congrArg pause ih

theorem map_map {γ : Type} (w : Work α) (f : α → β) (g : β → γ) :
    (w.map f).map g = w.map fun a => g (f a) :=
  map_bind w _ g

theorem Ends.map (f : α → β) {w : Work α} {a : α} (h : w.Ends a) : (w.map f).Ends (f a) := by
  induction h with
  | done a => exact .done _
  | poll requested _ ih => exact .poll requested ih
  | pause _ ih => exact .pause ih

theorem undisturbed_map (f : α → β) (w : Work α) : (w.map f).undisturbed = f w.undisturbed :=
  undisturbed_bind w _

theorem ends_check {mark : Checkpoint} {version : Nat}
    {next : Unit → Work (Except ParseError α)} {r : Except ParseError α}
    (h : (check mark version next).Ends r) :
    r = .error (.cancelled version) ∨ (next ()).Ends r := by
  obtain ⟨requested, h⟩ := ends_poll_iff.1 h
  cases requested with
  | true => exact .inl (ends_done_iff.1 h)
  | false => exact .inr h

/-- Work on a version that comes to a certain result unless it is cancelled.  It does
nothing on its way but pause, and ask and give up on a yes. -/
inductive Delivers (version : Nat) (result : Except ParseError α) :
    Work (Except ParseError α) → Prop where
  | done : Delivers version result (.done result)
  | pause {w : Work (Except ParseError α)} (h : Delivers version result w) :
      Delivers version result (.pause w)
  | check (mark : Checkpoint) {next : Unit → Work (Except ParseError α)}
      (h : Delivers version result (next ())) : Delivers version result (check mark version next)

/-- No way through the work ends in anything else than the result or the word that it
gave up. -/
theorem Delivers.ends {version : Nat} {result : Except ParseError α}
    {w : Work (Except ParseError α)} (h : Delivers version result w) :
    ∀ r, w.Ends r → r = .error (.cancelled version) ∨ r = result := by
  induction h with
  | done => exact fun r hr => .inr (ends_done_iff.1 hr)
  | pause _ ih => exact fun r hr => ih r (ends_pause_iff.1 hr)
  | check mark _ ih => exact fun r hr => (ends_check hr).elim .inl (ih r)

theorem Delivers.undisturbed {version : Nat} {result : Except ParseError α}
    {w : Work (Except ParseError α)} (h : Delivers version result w) :
    w.undisturbed = result := by
  induction h with
  | done => rfl
  | pause _ ih => exact ih
  | check mark _ ih => exact ih

/-- If the first piece of work delivers, so do both together, provided that nothing
comes after it when it gives up. -/
theorem Delivers.bind {version : Nat} {first : Except ParseError α}
    {result : Except ParseError β} {w : Work (Except ParseError α)}
    {f : Except ParseError α → Work (Except ParseError β)} (h : Delivers version first w)
    (hstop : f (.error (.cancelled version)) = .done (.error (.cancelled version)))
    (hnext : Delivers version result (f first)) : Delivers version result (w.bind f) := by
  induction h with
  | done => exact hnext
  | pause _ ih => exact .pause ih
  | @check mark next _ ih =>
    have hcheck : (Work.check mark version next).bind f =
        Work.check mark version fun _ => (next ()).bind f := by
      simp only [Work.check, Work.bind]
      congr 1
      funext requested
      cases requested with
      | true => exact hstop
      | false => rfl
    rw [hcheck]
    exact .check mark ih

end Work
end LiveSheet
