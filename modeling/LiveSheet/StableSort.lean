/-!
# Stable sorting

Insertion from the back keeps elements that are alike in their order.  Lists that
are nearly in order, as the children of items are, take few comparisons.
-/

namespace LiveSheet

/-- Puts `x` in front of the first element that it may precede. -/
def insertSorted {α : Type} (le : α → α → Bool) (x : α) : List α → List α
  | [] => [x]
  | y :: rest => if le x y then x :: y :: rest else y :: insertSorted le x rest

/-- The list in ascending order.  Elements that may precede each other keep
their order. -/
def stableSort {α : Type} (le : α → α → Bool) (l : List α) : List α :=
  l.foldr (insertSorted le) []

theorem insertSorted_perm {α : Type} (le : α → α → Bool) (x : α) (l : List α) :
    (insertSorted le x l).Perm (x :: l) := by
  induction l with
  | nil => exact .refl _
  | cons y rest ih =>
    simp only [insertSorted]
    split
    · exact .refl _
    · exact (ih.cons y).trans (.swap x y rest)

theorem stableSort_perm {α : Type} (le : α → α → Bool) (l : List α) :
    (stableSort le l).Perm l := by
  induction l with
  | nil => exact .refl _
  | cons x rest ih => exact (insertSorted_perm le x _).trans (ih.cons x)

theorem mem_stableSort {α : Type} (le : α → α → Bool) (l : List α) (x : α) :
    x ∈ stableSort le l ↔ x ∈ l :=
  (stableSort_perm le l).mem_iff

end LiveSheet
