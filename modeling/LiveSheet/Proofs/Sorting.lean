import LiveSheet.StableSort
import Mathlib.Data.List.Pairwise
import Mathlib.Data.List.Sort

/-!
# What a stable sort puts first

A sorted list ascends, and of the elements that satisfy some condition its first one is
the first of the least ones before sorting.
-/

namespace LiveSheet

variable {α : Type} {le : α → α → Bool} {l : List α} {x y : α}

theorem insertSorted_eq_orderedInsert (le : α → α → Bool) (x : α) (l : List α) :
    insertSorted le x l = l.orderedInsert (fun a b => le a b = true) x := by
  induction l with
  | nil => rfl
  | cons y rest ih => rw [insertSorted, List.orderedInsert_cons, ih]

theorem stableSort_eq_insertionSort (le : α → α → Bool) (l : List α) :
    stableSort le l = l.insertionSort fun a b => le a b = true := by
  induction l with
  | nil => rfl
  | cons x rest ih =>
    rw [List.insertionSort_cons, ← ih, ← insertSorted_eq_orderedInsert]
    rfl

theorem stableSort_pairwise (htotal : ∀ a b, le a b = true ∨ le b a = true)
    (htrans : ∀ a b c, le a b = true → le b c = true → le a c = true) (l : List α) :
    (stableSort le l).Pairwise fun a b => le a b = true := by
  have : Std.Total fun a b => le a b = true := ⟨htotal⟩
  have : IsTrans α fun a b => le a b = true := ⟨htrans⟩
  rw [stableSort_eq_insertionSort]
  exact List.pairwise_insertionSort _ l

theorem insertSorted_append {b : List α} (h : ∀ y ∈ b, le x y = true) (a : List α) :
    insertSorted le x (a ++ b) = insertSorted le x a ++ b := by
  induction a with
  | nil =>
    cases b with
    | nil => rfl
    | cons y rest => exact if_pos (h y List.mem_cons_self)
  | cons z rest ih =>
    rw [List.cons_append, insertSorted, insertSorted, ih]
    split <;> rfl

/-- Lists of which the first one may precede the second one are sorted each by itself. -/
theorem stableSort_append {a b : List α} (h : ∀ x ∈ a, ∀ y ∈ b, le x y = true) :
    stableSort le (a ++ b) = stableSort le a ++ stableSort le b := by
  induction a with
  | nil => rfl
  | cons x rest ih =>
    obtain ⟨hx, hrest⟩ := List.forall_mem_cons.1 h
    have hsorted : ∀ y ∈ stableSort le b, le x y = true :=
      fun y hy => hx y ((mem_stableSort le b y).1 hy)
    show insertSorted le x (stableSort le (rest ++ b)) = _
    rw [ih hrest, insertSorted_append hsorted]
    rfl

/-- Of two members of an ordered list one stands before the other. -/
theorem eq_or_rel_of_pairwise {R : α → α → Prop} (h : l.Pairwise R) (hx : x ∈ l) (hy : y ∈ l) :
    x = y ∨ R x y ∨ R y x := by
  have : Std.Symm fun a b => R a b ∨ R b a := ⟨fun _ _ => Or.symm⟩
  have heither : l.Pairwise fun a b => R a b ∨ R b a := h.imp .inl
  by_cases heq : x = y
  · exact .inl heq
  · exact .inr (heither.forall hx hy heq)

variable {q : α → Bool}

theorem find?_insertSorted_of_not (hx : q x = false) :
    (insertSorted le x l).find? q = l.find? q := by
  induction l with
  | nil => rw [insertSorted, List.find?_cons, hx]
  | cons y rest ih =>
    rw [insertSorted]
    split
    · rw [List.find?_cons, hx]
    · rw [List.find?_cons, List.find?_cons, ih]

/-- An element comes first in a sorted list if nothing comes first that may not come after
it. -/
theorem find?_insertSorted (htrans : ∀ a b c, le a b = true → le b c = true → le a c = true)
    (hsorted : l.Pairwise fun a b => le a b = true) (hx : q x = true) :
    (insertSorted le x l).find? q =
      match l.find? q with
      | none => some x
      | some y => if le x y then some x else some y := by
  induction l with
  | nil => rw [insertSorted, List.find?_cons, hx, List.find?_nil]
  | cons z rest ih =>
    obtain ⟨hz, hrest⟩ := List.pairwise_cons.1 hsorted
    rw [insertSorted]
    by_cases hle : le x z = true
    · rw [if_pos hle, List.find?_cons, hx]
      cases hfind : (z :: rest).find? q with
      | none => rfl
      | some y =>
        have hy : le x y = true := by
          rcases List.mem_cons.1 (List.mem_of_find?_eq_some hfind) with rfl | hy
          · exact hle
          · exact htrans x z y hle (hz y hy)
        exact (if_pos hy).symm
    · rw [if_neg hle, List.find?_cons, List.find?_cons]
      cases hqz : q z with
      | true => exact (if_neg hle).symm
      | false => exact ih hrest

/-- The first element with a property in a sorted list was in the unsorted list behind
greater ones only, and before those that are not less. -/
theorem find?_stableSort (htotal : ∀ a b, le a b = true ∨ le b a = true)
    (htrans : ∀ a b c, le a b = true → le b c = true → le a c = true)
    (h : (stableSort le l).find? q = some x) :
    ∃ before after, l = before ++ x :: after ∧ q x = true ∧
      (∀ y ∈ before, q y = true → le y x = false) ∧ ∀ y ∈ after, q y = true → le x y = true := by
  induction l generalizing x with
  | nil => exact nomatch h
  | cons z rest ih =>
    have hsorted := stableSort_pairwise htotal htrans rest
    rw [show stableSort le (z :: rest) = insertSorted le z (stableSort le rest) from rfl] at h
    cases hz : q z with
    | false =>
      rw [find?_insertSorted_of_not hz] at h
      obtain ⟨before, after, rfl, hx, hbefore, hafter⟩ := ih h
      refine ⟨z :: before, after, rfl, hx, fun y hy hq => ?_, hafter⟩
      rcases List.mem_cons.1 hy with rfl | hy
      · exact absurd (hz.symm.trans hq) Bool.false_ne_true
      · exact hbefore y hy hq
    | true =>
      rw [find?_insertSorted htrans hsorted hz] at h
      cases hfind : (stableSort le rest).find? q with
      | none =>
        rw [hfind] at h
        cases h
        refine ⟨[], rest, rfl, hz, List.forall_mem_nil _, fun y hy hq => ?_⟩
        have hno := List.find?_eq_none.1 hfind y ((mem_stableSort le rest y).2 hy)
        exact absurd hq hno
      | some first =>
        rw [hfind] at h
        obtain ⟨before, after, hsplit, hfirst, hbefore, hafter⟩ := ih hfind
        have hleast : ∀ y ∈ rest, q y = true → le first y = true := by
          intro y hy hq
          rw [hsplit] at hy
          rcases List.mem_append.1 hy with hy | hy
          · exact (htotal first y).resolve_right (Bool.eq_false_iff.1 (hbefore y hy hq))
          · rcases List.mem_cons.1 hy with rfl | hy
            · exact (htotal y y).elim id id
            · exact hafter y hy hq
        by_cases hle : le z first = true
        · cases (if_pos hle).symm.trans h
          refine ⟨[], rest, rfl, hz, List.forall_mem_nil _, fun y hy hq => ?_⟩
          exact htrans z first y hle (hleast y hy hq)
        · cases (if_neg hle).symm.trans h
          refine ⟨z :: before, after, by rw [hsplit]; rfl, hfirst, fun y hy hq => ?_, hafter⟩
          rcases List.mem_cons.1 hy with rfl | hy
          · exact Bool.eq_false_iff.2 hle
          · exact hbefore y hy hq

/-- What comes first in a sorted list does not depend on the elements without the property. -/
theorem find?_stableSort_filter (htotal : ∀ a b, le a b = true ∨ le b a = true)
    (htrans : ∀ a b c, le a b = true → le b c = true → le a c = true) (q : α → Bool) (l : List α) :
    (stableSort le l).find? q = (stableSort le (l.filter q)).find? q := by
  have hcons : ∀ (z : α) (rest : List α),
      stableSort le (z :: rest) = insertSorted le z (stableSort le rest) := fun _ _ => rfl
  have hsorted := stableSort_pairwise htotal htrans
  induction l with
  | nil => rfl
  | cons z rest ih =>
    cases hz : q z with
    | false =>
      rw [hcons, find?_insertSorted_of_not hz, ih, List.filter_cons_of_neg (by rw [hz]; decide)]
    | true =>
      rw [List.filter_cons_of_pos hz, hcons, hcons, find?_insertSorted htrans (hsorted rest) hz,
        find?_insertSorted htrans (hsorted _) hz, ih]

end LiveSheet
