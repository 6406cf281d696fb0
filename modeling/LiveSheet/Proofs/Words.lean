import LiveSheet.Completion.Cursor
import LiveSheet.Proofs.Places

/-!
# Words

The word at a cursor is the stretch of word characters around it.  No break is a word
character, so a word stays on its line, and an editor can be told its range.
-/

namespace LiveSheet
namespace Text

/-- The span is the word around an offset: it holds word characters only, and neither in front
of it nor behind it stands another one. -/
structure WordAround (t : Text) (offset : Nat) (word : Span) : Prop where
  start_le : word.start ≤ offset
  le_stop : offset ≤ word.stop
  stop_le : word.stop ≤ t.length
  within : ∀ i c, word.start ≤ i → i < word.stop → t[i]? = some c → isWordChar c = true
  before : ∀ c, 0 < word.start → t[word.start - 1]? = some c → isWordChar c = false
  behind : ∀ c, t[word.stop]? = some c → isWordChar c = false

theorem wordAround_wordAt {t : Text} {offset : Nat} (h : offset ≤ t.length) :
    t.WordAround offset (Cursor.wordAt t offset) := by
  -- The characters in front of the offset are scanned from the last one on.
  have hreverse : ∀ i, i < offset → (t.take offset).reverse[i]? = t[offset - 1 - i]? := by
    intro i hi
    have hlength : (t.take offset).length = offset := List.length_take_of_le h
    rw [List.getElem?_reverse (hlength.symm ▸ hi), hlength, List.getElem?_take_of_lt (by omega)]
  have hstart : (Cursor.wordAt t offset).start =
      offset - ((t.take offset).reverse.takeWhile isWordChar).length := rfl
  have hstop : (Cursor.wordAt t offset).stop =
      offset + ((t.drop offset).takeWhile isWordChar).length := rfl
  have hafter : ((t.drop offset).takeWhile isWordChar).length ≤ t.length - offset := by
    rw [← List.length_drop]
    exact (List.takeWhile_prefix _).length_le
  refine ⟨Nat.sub_le _ _, Nat.le_add_right _ _, by omega, fun i c hi hi' hc => ?_,
    fun c hpos hc => ?_, fun c hc => ?_⟩
  · rcases Nat.lt_or_ge i offset with hlt | hge
    · have hback : offset - 1 - (offset - 1 - i) = i := by omega
      refine of_getElem?_lt_takeWhile (t := (t.take offset).reverse) (i := offset - 1 - i)
        (by omega) ?_
      rw [hreverse _ (by omega), hback, hc]
    · refine of_getElem?_lt_takeWhile (t := t.drop offset) (i := i - offset) (by omega) ?_
      rw [List.getElem?_drop, Nat.add_sub_cancel' hge, hc]
  · refine not_of_getElem?_takeWhile (t := (t.take offset).reverse) ?_
    rw [hreverse _ (by omega), Nat.sub_right_comm, ← hstart, hc]
  · refine not_of_getElem?_takeWhile (t := t.drop offset) ?_
    rw [List.getElem?_drop, ← hstop, hc]

/-- The code points of the blanks. -/
def blankCodes : List Nat :=
  [0x9, 0xA, 0xB, 0xC, 0xD, 0x20, 0x85, 0xA0, 0x1680, 0x2000, 0x2001, 0x2002, 0x2003, 0x2004,
    0x2005, 0x2006, 0x2007, 0x2008, 0x2009, 0x200A, 0x2028, 0x2029, 0x202F, 0x205F, 0x3000]

/-- A property of all blanks is a property of these few characters. -/
theorem of_isBlank {q : Char → Prop} (hq : ∀ n ∈ blankCodes, q (Char.ofNat n)) {c : Char}
    (h : isBlank c = true) : q c := by
  have hcode : c.toNat ∈ blankCodes := by
    simp only [isBlank, Bool.or_eq_true, Bool.and_eq_true, decide_eq_true_eq, beq_iff_eq] at h
    simp only [blankCodes, List.mem_cons, List.not_mem_nil, or_false]
    omega
  rw [← Char.ofNat_toNat c]
  exact hq _ hcode

theorem not_isWordChar_of_isBlank {c : Char} (h : isBlank c = true) : isWordChar c = false :=
  of_isBlank (q := fun c => isWordChar c = false) (by decide +kernel) h

theorem not_isWordChar_of_isLineBreak {c : Char} (h : isLineBreak c = true) :
    isWordChar c = false := by
  refine not_isWordChar_of_isBlank ?_
  simp only [isLineBreak, isBlank, Bool.or_eq_true, Bool.and_eq_true, decide_eq_true_eq,
    beq_iff_eq] at h ⊢
  omega

section

variable {t : Text} {p : Position} {word : Span}

/-- No break stands in a word. -/
theorem WordAround.exists_not_isLineBreak {offset i : Nat} (hword : t.WordAround offset word)
    (hstart : word.start ≤ i) (hstop : i < word.stop) :
    ∃ c, t[i]? = some c ∧ isLineBreak c = false := by
  have hi : i < t.length := Nat.lt_of_lt_of_le hstop hword.stop_le
  refine ⟨t[i], List.getElem?_eq_getElem hi, Bool.eq_false_iff.2 fun hbreak => ?_⟩
  have hwithin := hword.within i t[i] hstart hstop (List.getElem?_eq_getElem hi)
  rw [not_isWordChar_of_isLineBreak hbreak] at hwithin
  exact Bool.false_ne_true hwithin

/-- A word around a place of a line begins on the line and ends in front of its break. -/
theorem WordAround.on_line (hword : t.WordAround (t.place p) word)
    (hline : p.line < t.lines.length) (hcolumn : p.column ≤ (body t.lines[p.line]).length) :
    t.place ⟨p.line, 0⟩ ≤ word.start ∧
      word.stop ≤ t.place ⟨p.line, (body t.lines[p.line]).length⟩ := by
  have hplace : t.place p = t.place ⟨p.line, 0⟩ + p.column := t.place_eq_add p.line p.column
  have hstart := hword.start_le
  have hstop := hword.le_stop
  constructor
  · by_contra hlt
    obtain ⟨c, hc, hnot⟩ := hword.exists_not_isLineBreak (i := t.place ⟨p.line, 0⟩ - 1)
      (by omega) (by omega)
    rw [isLineBreak_of_before_line hline (by omega) hc] at hnot
    exact Bool.false_ne_true hnot.symm
  · by_contra hlt
    obtain ⟨c, hc, hnot⟩ := hword.exists_not_isLineBreak
      (by rw [place_eq_add]; omega) (Nat.lt_of_not_le hlt)
    rw [isLineBreak_of_behind_body hline hc] at hnot
    exact Bool.false_ne_true hnot.symm

/-- The range of a word around a place of a line lies on the line and holds the place. -/
theorem WordAround.exists_range (hword : t.WordAround (t.place p) word) (h : t.Shows p)
    (hlength : t.length < Position.limit) :
    ∃ first last, t.rangeOf word = some ⟨⟨p.line, first⟩, ⟨p.line, last⟩⟩ ∧
      first ≤ p.column ∧ p.column ≤ last ∧
      t.Shows ⟨p.line, first⟩ ∧ t.Shows ⟨p.line, last⟩ ∧
      t.place ⟨p.line, first⟩ = word.start ∧ t.place ⟨p.line, last⟩ = word.stop := by
  obtain ⟨hline, hcolumn⟩ := h
  obtain ⟨hstart, hstop⟩ := hword.on_line hline hcolumn
  have hends := word.start_le_stop
  obtain ⟨first, hshows, hfirst⟩ := exists_column hline hstart (Nat.le_trans hends hstop)
  obtain ⟨last, hshows', hlast⟩ := exists_column hline (Nat.le_trans hstart hends) hstop
  have hcolumns : t.place ⟨p.line, first⟩ ≤ t.place p ∧ t.place p ≤ t.place ⟨p.line, last⟩ := by
    rw [hfirst, hlast]
    exact ⟨hword.start_le, hword.le_stop⟩
  refine ⟨first, last, ?_, Nat.add_le_add_iff_left.1 hcolumns.1,
    Nat.add_le_add_iff_left.1 hcolumns.2, hshows, hshows', hfirst, hlast⟩
  exact rangeOf_eq_some_iff.2 ⟨(positionOf_eq_some_iff hlength).2 ⟨hshows.proper, hfirst⟩,
    (positionOf_eq_some_iff hlength).2 ⟨hshows'.proper, hlast⟩⟩

end

end Text
end LiveSheet
