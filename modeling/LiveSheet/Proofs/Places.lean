import LiveSheet.Proofs.Lines
import Mathlib.Algebra.Order.BigOperators.Group.List

/-!
# Offsets and places

Every offset of a text is the offset of one place, and every place in a text is the place of its
offset.  The only exception is the place behind the break of a line, which counts as the
beginning of the next line.  Editors are told of places in 32 bits, which is enough for every place
in a text of fewer than `2 ^ 32` characters.
-/

namespace LiveSheet

/-- The place stands before the other one. -/
def Position.Before (p q : Position) : Prop :=
  p.line < q.line ∨ p.line = q.line ∧ p.column < q.column

theorem Position.upTo_of_not_before {p q : Position} (h : ¬p.Before q) : q.UpTo p := by
  unfold Before at h
  unfold UpTo
  omega

namespace Text

variable {t : Text} {p : Position} {offset : Nat}

/-! ## Lines with and without a break -/

theorem Ended.length_pos {line : Text} (h : Ended line) : 0 < line.length := by
  obtain ⟨c, hc, -⟩ := h
  exact List.length_pos_of_mem (List.mem_of_getLast? hc)

theorem lines_ne_nil (t : Text) : t.lines ≠ [] := by
  intro hnil
  have hflat := flatten_lines t
  rw [hnil, List.flatten_nil] at hflat
  subst hflat
  exact absurd hnil (by decide)

/-- If the last line ended in a break, the text would, too, and an empty line would follow. -/
theorem not_ended_of_getLast? {line : Text} (h : t.lines.getLast? = some line) :
    ¬Ended line := by
  intro hended
  obtain ⟨c, hc, hbreak⟩ := hended
  obtain ⟨before, hlines⟩ := List.getLast?_eq_some_iff.1 h
  have hlast : t.getLast? = some c := by
    rw [← flatten_lines t, hlines, List.flatten_append, List.flatten_singleton,
      List.getLast?_append, hc, Option.some_or]
  have hempty : t.lines.getLast? = some [] := by
    unfold lines
    rw [hlast, Option.all_some, if_pos hbreak, List.getLast?_concat]
  rw [hempty] at h
  cases h
  cases hc

theorem ended_iff {i : Nat} (h : i < t.lines.length) :
    Ended t.lines[i] ↔ i + 1 < t.lines.length := by
  constructor
  · intro hended
    by_contra hlast
    have hi : i = t.lines.length - 1 := by omega
    have hget : t.lines.getLast? = some t.lines[i] := by
      rw [List.getLast?_eq_getElem?, ← hi, List.getElem?_eq_getElem h]
    exact not_ended_of_getLast? hget hended
  · exact ended_of_lt

/-- Every line begins with a place of its own, as only the last one may be empty. -/
theorem proper_start {line : Nat} (h : line < t.lines.length) : t.Proper ⟨line, 0⟩ := by
  refine ⟨h, ?_⟩
  by_cases hlast : line + 1 < t.lines.length
  · exact .inl (ended_of_lt hlast).length_pos
  · exact .inr ⟨by show line + 1 = _; omega, Nat.zero_le _⟩

/-- Both the line and the column are small where the offset is. -/
theorem add_le_place (h : t.Holds p) : p.line + p.column ≤ t.place p := by
  obtain ⟨hline, -⟩ := h
  have hcount : (t.lines.take p.line).length = p.line := List.length_take_of_le (Nat.le_of_lt hline)
  have hpos : ∀ n ∈ (t.lines.take p.line).map List.length, 1 ≤ n := by
    intro n hn
    obtain ⟨line, hmem, rfl⟩ := List.mem_map.1 hn
    obtain ⟨i, hi, rfl⟩ := List.getElem_of_mem hmem
    rw [List.getElem_take]
    rw [hcount] at hi
    exact (ended_of_lt (by omega)).length_pos
  have hsum := List.length_le_sum_of_one_le _ hpos
  rw [List.length_map, hcount, ← List.length_flatten] at hsum
  unfold place
  omega

/-! ## Offsets and their places -/

/-- Each offset among some lines stands on one of them, and at its end only if it is the last. -/
theorem exists_line_of_le {lines : List Text} (hne : lines ≠ [])
    (h : offset ≤ lines.flatten.length) :
    ∃ (i column : Nat) (hi : i < lines.length),
      (column < lines[i].length ∨ i + 1 = lines.length ∧ column ≤ lines[i].length) ∧
        (lines.take i).flatten.length + column = offset := by
  induction lines generalizing offset with
  | nil => exact absurd rfl hne
  | cons first rest ih =>
    rw [List.flatten_cons, List.length_append] at h
    by_cases hfirst : offset < first.length
    · exact ⟨0, offset, Nat.succ_pos _, .inl hfirst, Nat.zero_add _⟩
    · by_cases hrest : rest = []
      · subst hrest
        rw [List.flatten_nil, List.length_nil] at h
        exact ⟨0, offset, Nat.one_pos, .inr ⟨rfl, h⟩, Nat.zero_add _⟩
      · have hleft : offset - first.length ≤ rest.flatten.length := by omega
        obtain ⟨i, column, hi, hcolumn, hoffset⟩ := ih hrest hleft
        refine ⟨i + 1, column, Nat.succ_lt_succ hi, ?_, ?_⟩
        · rw [List.getElem_cons_succ, List.length_cons, Nat.add_right_cancel_iff]
          exact hcolumn
        · rw [List.take_succ_cons, List.flatten_cons, List.length_append]
          omega

theorem exists_proper (h : offset ≤ t.length) : ∃ p, t.Proper p ∧ t.place p = offset := by
  rw [← flatten_lines t] at h
  obtain ⟨line, column, hline, hcolumn, hoffset⟩ := exists_line_of_le t.lines_ne_nil h
  exact ⟨⟨line, column⟩, ⟨hline, hcolumn⟩, hoffset⟩

theorem le_of_locate {lines : List Text} {line : Nat}
    (h : locate line (lines.map List.length) offset = some p) : offset ≤ lines.flatten.length := by
  induction lines generalizing line offset with
  | nil => cases h
  | cons first rest ih =>
    rw [List.flatten_cons, List.length_append]
    by_cases hfirst : offset ≤ first.length
    · omega
    · cases rest with
      | nil =>
        rw [List.map_singleton, locate, if_neg hfirst] at h
        cases h
      | cons second rest =>
        have hlong : ¬offset < first.length := by omega
        rw [List.map_cons, locate, if_neg hlong] at h
        · have hrest := ih h
          omega
        · exact List.cons_ne_nil _ _

/-- The place of an offset is the one proper place with that offset. -/
theorem locationOf_eq_some_iff :
    t.locationOf offset = some p ↔ t.Proper p ∧ t.place p = offset := by
  constructor
  · intro h
    have hle : offset ≤ t.length := by
      unfold locationOf at h
      rw [lineLengths_eq] at h
      have hflat := le_of_locate h
      rwa [flatten_lines] at hflat
    obtain ⟨q, hq, hplace⟩ := exists_proper hle
    have hself := locationOf_place hq
    rw [hplace, h] at hself
    cases hself
    exact ⟨hq, hplace⟩
  · rintro ⟨hproper, rfl⟩
    exact locationOf_place hproper

theorem positionOf_isSome_iff : (t.positionOf offset).isSome ↔ offset ≤ t.length := by
  rw [positionOf, Option.isSome_map]
  constructor
  · intro h
    obtain ⟨p, hp⟩ := Option.isSome_iff_exists.1 h
    obtain ⟨hproper, hplace⟩ := locationOf_eq_some_iff.1 hp
    rw [← hplace]
    exact place_le_length hproper.holds
  · intro h
    obtain ⟨p, hproper, hplace⟩ := exists_proper h
    rw [locationOf_eq_some_iff.2 ⟨hproper, hplace⟩]
    rfl

/-- Editors are told of the place of an offset as it is, if the offset has 32 bits itself. -/
theorem positionOf_eq_locationOf (h : offset < Position.limit) :
    t.positionOf offset = t.locationOf offset := by
  rw [positionOf]
  cases hp : t.locationOf offset with
  | none => rfl
  | some p =>
    obtain ⟨hproper, hplace⟩ := locationOf_eq_some_iff.1 hp
    have hsum := add_le_place hproper.holds
    rw [Option.map_some, Position.wrap_of_lt (by omega) (by omega)]

theorem positionOf_eq_some_iff (hlength : t.length < Position.limit) :
    t.positionOf offset = some p ↔ t.Proper p ∧ t.place p = offset := by
  by_cases hle : offset ≤ t.length
  · rw [positionOf_eq_locationOf (Nat.lt_of_le_of_lt hle hlength), locationOf_eq_some_iff]
  · have hnone : t.positionOf offset = none := by
      rw [← Option.not_isSome_iff_eq_none, positionOf_isSome_iff]
      exact hle
    rw [hnone]
    refine iff_of_false (Option.some_ne_none p).symm fun ⟨hproper, hplace⟩ => hle ?_
    rw [← hplace]
    exact place_le_length hproper.holds

/-- What editors are told of a place is no greater than the place itself. -/
theorem add_le_of_positionOf (h : t.positionOf offset = some p) :
    p.line + p.column ≤ offset := by
  obtain ⟨q, hq, rfl⟩ := Option.map_eq_some_iff.1 h
  obtain ⟨hproper, hplace⟩ := locationOf_eq_some_iff.1 hq
  have hsum := add_le_place hproper.holds
  have hline : q.wrap.line ≤ q.line := Nat.mod_le _ _
  have hcolumn : q.wrap.column ≤ q.column := Nat.mod_le _ _
  omega

theorem offsetOf_isSome_iff : (t.offsetOf p).isSome ↔ t.Holds p := by
  constructor
  · intro h
    simp only [offsetOf, lineLengths_eq, List.getElem?_map] at h
    by_cases hline : p.line < t.lines.length
    · simp only [List.getElem?_eq_getElem hline, Option.map_some] at h
      by_cases hcolumn : p.column ≤ t.lines[p.line].length
      · exact ⟨hline, hcolumn⟩
      · rw [if_neg hcolumn] at h
        cases h
    · rw [List.getElem?_eq_none (Nat.le_of_not_lt hline)] at h
      cases h
  · intro h
    rw [offsetOf_eq_place h]
    rfl

theorem offsetOf_eq_some_iff : t.offsetOf p = some offset ↔ t.Holds p ∧ t.place p = offset := by
  constructor
  · intro h
    have hholds : t.Holds p := offsetOf_isSome_iff.1 (by rw [h]; rfl)
    rw [offsetOf_eq_place hholds] at h
    exact ⟨hholds, Option.some.inj h⟩
  · rintro ⟨hholds, rfl⟩
    exact offsetOf_eq_place hholds

theorem before_of_place_lt {q : Position} (hq : t.Holds q) (h : t.place p < t.place q) :
    p.Before q := by
  by_contra hnot
  have hle := place_le_place hq (Position.upTo_of_not_before hnot)
  omega

/-! ## Places behind a break -/

/-- The place stands behind the break that ends its line. -/
def BehindBreak (t : Text) (p : Position) : Prop :=
  ∃ h : p.line < t.lines.length, p.column = t.lines[p.line].length ∧ Ended t.lines[p.line]

theorem proper_of_not_behindBreak (h : t.Holds p) (hbreak : ¬t.BehindBreak p) : t.Proper p := by
  obtain ⟨hline, hcolumn⟩ := h
  refine ⟨hline, ?_⟩
  by_cases hlast : p.line + 1 < t.lines.length
  · have hne : p.column ≠ t.lines[p.line].length := by
      intro heq
      exact hbreak ⟨hline, heq, ended_of_lt hlast⟩
    exact .inl (Nat.lt_of_le_of_ne hcolumn hne)
  · exact .inr ⟨by omega, hcolumn⟩

/-- Behind a break the next line begins. -/
theorem BehindBreak.next (h : t.BehindBreak p) :
    t.Proper ⟨p.line + 1, 0⟩ ∧ t.place ⟨p.line + 1, 0⟩ = t.place p := by
  obtain ⟨hline, hcolumn, hended⟩ := h
  refine ⟨proper_start ((ended_iff hline).1 hended), ?_⟩
  unfold place
  rw [List.take_add_one, List.getElem?_eq_getElem hline, Option.toList_some, List.flatten_append,
    List.flatten_singleton, List.length_append, hcolumn, Nat.add_zero]

/-! ## Ranges -/

theorem rangeOf_eq_some_iff {s : Span} {r : Range} :
    t.rangeOf s = some r ↔
      t.positionOf s.start = some r.start ∧ t.positionOf s.stop = some r.stop := by
  obtain ⟨start, stop⟩ := r
  simp [rangeOf, Option.bind_eq_some_iff]

theorem rangeOf_isSome_iff {s : Span} : (t.rangeOf s).isSome ↔ s.stop ≤ t.length := by
  constructor
  · intro h
    obtain ⟨r, hr⟩ := Option.isSome_iff_exists.1 h
    apply positionOf_isSome_iff.1
    rw [(rangeOf_eq_some_iff.1 hr).2]
    rfl
  · intro h
    obtain ⟨start, hstart⟩ := Option.isSome_iff_exists.1
      (positionOf_isSome_iff.2 (Nat.le_trans s.start_le_stop h))
    obtain ⟨stop, hstop⟩ := Option.isSome_iff_exists.1 (positionOf_isSome_iff.2 h)
    have hrange : t.rangeOf s = some ⟨start, stop⟩ := rangeOf_eq_some_iff.2 ⟨hstart, hstop⟩
    rw [hrange]
    rfl

/-! ## The two conversions -/

/-- Offsets and places are inverse.  Exactly the offsets up to the length of a text have a place,
whose line and column together are no greater than the offset, exactly the places in the text have
an offset, and exactly the spans in the text have a range.  If the text has fewer than `2 ^ 32`
characters, then the places ascend with the offsets, and each leads back to its offset.  The
offset of a place leads back to the place, or to the beginning of the next line if the place is
behind the break of its line, and the ends of a range lead back to the ends of the span. -/
theorem offsets_places_inverse (t : Text) :
    (∀ offset, (t.positionOf offset).isSome ↔ offset ≤ t.length) ∧
      (∀ offset p, t.positionOf offset = some p → p.line + p.column ≤ offset) ∧
      (∀ p, (t.offsetOf p).isSome ↔ t.Holds p) ∧
      (∀ s, (t.rangeOf s).isSome ↔ s.stop ≤ t.length) ∧
      (t.length < Position.limit →
        (∀ offset p, t.positionOf offset = some p → t.offsetOf p = some offset) ∧
          (∀ offset other p q, t.positionOf offset = some p → t.positionOf other = some q →
            offset < other → p.Before q) ∧
          (∀ p offset, t.offsetOf p = some offset →
            (¬t.BehindBreak p → t.positionOf offset = some p) ∧
              (t.BehindBreak p → t.positionOf offset = some ⟨p.line + 1, 0⟩)) ∧
          ∀ s r, t.rangeOf s = some r →
            t.offsetOf r.start = some s.start ∧ t.offsetOf r.stop = some s.stop) := by
  refine ⟨fun _ => positionOf_isSome_iff, fun _ _ => add_le_of_positionOf,
    fun _ => offsetOf_isSome_iff, fun _ => rangeOf_isSome_iff, fun hlength => ?_⟩
  have hback : ∀ offset p, t.positionOf offset = some p → t.offsetOf p = some offset := by
    intro offset p h
    obtain ⟨hproper, hplace⟩ := (positionOf_eq_some_iff hlength).1 h
    exact offsetOf_eq_some_iff.2 ⟨hproper.holds, hplace⟩
  refine ⟨hback, ?_, ?_, ?_⟩
  · intro offset other p q hp hq hlt
    obtain ⟨-, rfl⟩ := (positionOf_eq_some_iff hlength).1 hp
    obtain ⟨hproper, rfl⟩ := (positionOf_eq_some_iff hlength).1 hq
    exact before_of_place_lt hproper.holds hlt
  · intro p offset h
    obtain ⟨hholds, rfl⟩ := offsetOf_eq_some_iff.1 h
    constructor
    · intro hbreak
      exact (positionOf_eq_some_iff hlength).2 ⟨proper_of_not_behindBreak hholds hbreak, rfl⟩
    · intro hbreak
      exact (positionOf_eq_some_iff hlength).2 hbreak.next
  · intro s r h
    obtain ⟨hstart, hstop⟩ := rangeOf_eq_some_iff.1 h
    exact ⟨hback _ _ hstart, hback _ _ hstop⟩

/-- Lines that end in breaks of several kinds, the last one in none. -/
def mixedBreaks : Text := "a\r\n\n\rb\u2028".toList

theorem offsets_places_inverse_mixedBreaks :
    mixedBreaks.positionOf 2 = some ⟨0, 2⟩ ∧ mixedBreaks.positionOf 6 = some ⟨3, 1⟩ ∧
      mixedBreaks.offsetOf ⟨0, 2⟩ = some 2 ∧ Position.Before ⟨0, 2⟩ ⟨3, 1⟩ ∧
      mixedBreaks.offsetOf ⟨0, 3⟩ = some 3 ∧ mixedBreaks.BehindBreak ⟨0, 3⟩ ∧
      mixedBreaks.positionOf 3 = some ⟨1, 0⟩ ∧
      mixedBreaks.offsetOf ⟨4, 0⟩ = some 7 ∧ ¬mixedBreaks.BehindBreak ⟨4, 0⟩ ∧
      mixedBreaks.positionOf 7 = some ⟨4, 0⟩ ∧
      ∃ r, mixedBreaks.rangeOf ⟨2, 7, by decide⟩ = some r ∧
        mixedBreaks.offsetOf r.start = some 2 ∧ mixedBreaks.offsetOf r.stop = some 7 := by
  obtain ⟨-, -, -, hrange, hinverse⟩ := offsets_places_inverse mixedBreaks
  obtain ⟨hoffset, hbefore, hplace, hends⟩ := hinverse (by decide +kernel)
  have htwo : mixedBreaks.positionOf 2 = some ⟨0, 2⟩ := by decide +kernel
  have hsix : mixedBreaks.positionOf 6 = some ⟨3, 1⟩ := by decide +kernel
  have hthree : mixedBreaks.offsetOf ⟨0, 3⟩ = some 3 := by decide +kernel
  have hseven : mixedBreaks.offsetOf ⟨4, 0⟩ = some 7 := by decide +kernel
  have hbehind : mixedBreaks.BehindBreak ⟨0, 3⟩ :=
    ⟨by decide +kernel, by decide +kernel, '\n', by decide +kernel, by decide⟩
  have hlast : ¬mixedBreaks.BehindBreak ⟨4, 0⟩ := by
    rintro ⟨hline, -, hended⟩
    exact absurd ((ended_iff hline).1 hended) (by decide +kernel)
  obtain ⟨r, hr⟩ := Option.isSome_iff_exists.1
    ((hrange ⟨2, 7, by decide⟩).2 (by decide +kernel))
  exact ⟨htwo, hsix, hoffset _ _ htwo, hbefore _ _ _ _ htwo hsix (by decide), hthree, hbehind,
    (hplace _ _ hthree).2 hbehind, hseven, hlast, (hplace _ _ hseven).1 hlast, r, hr, hends _ _ hr⟩

end Text
end LiveSheet
