/-!
# Inboxes

Bounded queues that lose their oldest notices and tell how many were lost.
-/

namespace LiveSheet

/-- What a receiver has not taken yet: how many notices were lost, and those that
wait, oldest first.  All that was lost is older than all that waits. -/
structure Inbox (α : Type) where
  missed : Nat
  waiting : List α

/-- What a receiver gets: a notice, or word that some were lost. -/
inductive Notice (α : Type) where
  | received (value : α)
  | missed (count : Nat)

namespace Inbox

variable {α : Type}

def empty : Inbox α := ⟨0, []⟩

def isEmpty (b : Inbox α) : Bool := b.missed == 0 && b.waiting.isEmpty

/-- Adds a notice.  In a full inbox the oldest one is lost to it. -/
def push (capacity : Nat) (value : α) (b : Inbox α) : Inbox α :=
  if b.waiting.length < capacity then { b with waiting := b.waiting ++ [value] }
  else ⟨b.missed + 1, b.waiting.tail ++ [value]⟩

/-- Takes the oldest notice.  Lost ones are told of first, all at once. -/
def take? (b : Inbox α) : Option (Notice α × Inbox α) :=
  if 0 < b.missed then some (.missed b.missed, { b with missed := 0 })
  else
    match b.waiting with
    | [] => none
    | value :: rest => some (.received value, { b with waiting := rest })

def contents (b : Inbox α) : List (Notice α) :=
  (if 0 < b.missed then [.missed b.missed] else []) ++ b.waiting.map .received

@[simp] theorem contents_empty : (empty : Inbox α).contents = [] := rfl

theorem contents_take? {b next : Inbox α} {n : Notice α} (h : b.take? = some (n, next)) :
    b.contents = n :: next.contents := by
  unfold take? at h
  split at h
  · cases h
    simp_all [contents]
  · split at h
    · exact nomatch h
    · cases h
      simp_all [contents]

theorem take?_eq_none_iff (b : Inbox α) : b.take? = none ↔ b.contents = [] := by
  unfold take? contents
  split
  · simp_all
  · split <;> simp_all

theorem length_push_le {capacity : Nat} (hc : 0 < capacity) (value : α) {b : Inbox α}
    (h : b.waiting.length ≤ capacity) : (b.push capacity value).waiting.length ≤ capacity := by
  unfold push
  split
  · simp only [List.length_append, List.length_singleton]
    omega
  · simp only [List.length_append, List.length_tail, List.length_singleton]
    omega

end Inbox
end LiveSheet
