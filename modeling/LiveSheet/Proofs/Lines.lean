import LiveSheet.Text.Position
import Mathlib.Data.List.SplitBy
import Mathlib.Data.List.TakeWhile

/-!
# Lines

The lines of a text make up the text, and the offset of a place is the length of the lines
before it and its column.  So the offsets of places inside a text ascend with the places.
-/

namespace LiveSheet

/-- The place stands before the other one or is the same. -/
def Position.UpTo (p q : Position) : Prop :=
  p.line < q.line ∨ p.line = q.line ∧ p.column ≤ q.column

instance (p q : Position) : Decidable (p.UpTo q) :=
  inferInstanceAs (Decidable (p.line < q.line ∨ p.line = q.line ∧ p.column ≤ q.column))

namespace Text

/-- Whether one character and the next one stand on the same line.  A carriage return and a
line feed after it are one break. -/
def joins (a b : Char) : Bool := !isLineBreak a || (a == '\r' && b == '\n')

/-- The lines of a text, each with the break that ends it.  The last one has none. -/
def lines (t : Text) : List Text :=
  t.splitBy joins ++ if t.getLast?.all isLineBreak then [[]] else []

/-- The length of all lines before a place and its column. -/
def place (t : Text) (p : Position) : Nat :=
  (t.lines.take p.line).flatten.length + p.column

/-- The place lies inside the text: its line exists, and its column is not after the break
that ends the line. -/
def Holds (t : Text) (p : Position) : Prop :=
  ∃ h : p.line < t.lines.length, p.column ≤ t.lines[p.line].length

instance (t : Text) (p : Position) : Decidable (t.Holds p) :=
  inferInstanceAs (Decidable (∃ h : p.line < t.lines.length, p.column ≤ t.lines[p.line].length))

theorem flatten_lines (t : Text) : t.lines.flatten = t := by
  unfold lines
  rw [List.flatten_append, List.flatten_splitBy]
  split <;> simp

theorem isChain_of_no_break {t : Text} (h : ∀ c ∈ t, isLineBreak c = false) (c : Char) :
    (t ++ [c]).IsChain fun a b => joins a b = true := by
  induction t with
  | nil => exact List.isChain_singleton c
  | cons a rest ih =>
    have hjoins : ∀ b, joins a b = true := by
      intro b
      simp only [joins, h a List.mem_cons_self, Bool.not_false, Bool.true_or]
    rw [List.cons_append, List.isChain_cons]
    exact ⟨fun b _ => hjoins b, ih fun b hb => h b (List.mem_cons_of_mem _ hb)⟩

theorem lines_of_no_break {t : Text} (h : ∀ c ∈ t, isLineBreak c = false) : t.lines = [t] := by
  rcases List.eq_nil_or_concat' t with rfl | ⟨before, c, rfl⟩
  · rfl
  · have hc := h c (List.mem_append_right _ List.mem_cons_self)
    have hchain := isChain_of_no_break (fun b hb => h b (List.mem_append_left _ hb)) c
    unfold lines
    rw [List.splitBy_of_isChain (List.append_ne_nil_of_right_ne_nil _ (List.cons_ne_nil _ _))
        hchain, List.getLast?_concat, Option.all_some, hc]
    rfl

/-- A line that ends in a break stands for itself, whatever follows it. -/
theorem lines_append {line rest : Text} {c : Char} (hlast : line.getLast? = some c)
    (hbreak : isLineBreak c = true) (hchain : line.IsChain fun a b => joins a b = true)
    (hends : ∀ b ∈ rest.head?, joins c b = false) :
    (line ++ rest).lines = line :: lines rest := by
  have hne : line ≠ [] := by
    rintro rfl
    exact nomatch hlast
  have hsplit : (line ++ rest).splitBy joins = line :: rest.splitBy joins := by
    rw [List.splitBy_append, List.splitBy_of_isChain hne hchain]
    · rfl
    · intro a ha b hb
      rw [hlast] at ha
      cases ha
      exact hends b hb
  unfold lines
  rw [hsplit, List.cons_append]
  cases rest with
  | nil =>
    rw [List.append_nil, hlast, Option.all_some, hbreak]
    rfl
  | cons b rest => rw [List.getLast?_append_of_ne_nil _ (List.cons_ne_nil _ _)]

/-- The lengths of the lines, when no break stands in what was counted before. -/
theorem lineLengthsFrom_eq (before t : Text) (h : ∀ c ∈ before, isLineBreak c = false) :
    lineLengthsFrom before.length t = (before ++ t).lines.map List.length := by
  generalize hn : before.length = n
  fun_induction lineLengthsFrom n t generalizing before with
  | case1 n =>
    rw [List.append_nil, lines_of_no_break h, ← hn]
    rfl
  | case2 n rest ih =>
    have hline : (before ++ ['\r', '\n']).IsChain fun a b => joins a b = true := by
      rw [List.append_cons before '\r' ['\n'], List.isChain_append]
      refine ⟨isChain_of_no_break h '\r', List.isChain_singleton _, ?_⟩
      simp only [List.getLast?_concat, List.head?_cons, Option.mem_def, Option.some.injEq]
      rintro a rfl b rfl
      decide
    have hlines : (before ++ '\r' :: '\n' :: rest).lines =
        (before ++ ['\r', '\n']) :: lines rest := by
      rw [show before ++ '\r' :: '\n' :: rest = before ++ ['\r', '\n'] ++ rest by simp]
      refine lines_append (c := '\n') (by simp) (by decide) hline fun b _ => ?_
      show joins '\n' b = false
      simp [joins, isLineBreak]
    rw [hlines, ih [] (List.forall_mem_nil _) rfl, List.map_cons, List.length_append, hn]
    rfl
  | case3 n c rest hpair hbreak ih =>
    have hlines : (before ++ c :: rest).lines = (before ++ [c]) :: lines rest := by
      rw [List.append_cons]
      refine lines_append List.getLast?_concat hbreak (isChain_of_no_break h c) fun b hb => ?_
      cases rest with
      | nil => exact nomatch hb
      | cons d rest =>
        obtain rfl : d = b := Option.some.inj hb
        have hno : ¬(c = '\r' ∧ d = '\n') := fun hcd => hpair rest hcd.1 (by rw [hcd.2])
        simp only [joins, hbreak, Bool.not_true, Bool.false_or, Bool.and_eq_false_imp, beq_iff_eq]
        intro hc
        exact beq_eq_false_iff_ne.2 fun hd => hno ⟨hc, hd⟩
    rw [hlines, ih [] (List.forall_mem_nil _) rfl, List.map_cons, List.length_append, hn]
    rfl
  | case4 n c rest hpair hbreak ih =>
    have hall : ∀ b ∈ before ++ [c], isLineBreak b = false := by
      intro b hb
      rcases List.mem_append.1 hb with hb | hb
      · exact h b hb
      · rw [List.mem_singleton.1 hb]
        exact Bool.eq_false_iff.2 hbreak
    rw [ih (before ++ [c]) hall (by rw [List.length_append, hn]; rfl), List.append_cons before c rest]

theorem lineLengths_eq (t : Text) : t.lineLengths = t.lines.map List.length :=
  lineLengthsFrom_eq [] t (List.forall_mem_nil _)

theorem place_eq_add (t : Text) (line column : Nat) :
    t.place ⟨line, column⟩ = t.place ⟨line, 0⟩ + column := rfl

theorem offsetOf_eq_place {t : Text} {p : Position} (h : t.Holds p) :
    t.offsetOf p = some (t.place p) := by
  obtain ⟨hline, hcolumn⟩ := h
  have hget : (t.lines.map List.length)[p.line]? = some t.lines[p.line].length := by
    rw [List.getElem?_map, List.getElem?_eq_getElem hline, Option.map_some]
  have hsum : ∀ (lines : List Text) (n : Nat),
      (lines.map List.length).foldr (· + ·) n = lines.flatten.length + n := by
    intro lines n
    induction lines with
    | nil => exact (Nat.zero_add n).symm
    | cons line rest ih =>
      rw [List.map_cons, List.foldr_cons, ih, List.flatten_cons, List.length_append]
      omega
  unfold offsetOf
  simp only [lineLengths_eq, hget, hcolumn, if_true, ← List.map_take, hsum, place]

theorem place_le_place {t : Text} {p q : Position} (hp : t.Holds p) (h : p.UpTo q) :
    t.place p ≤ t.place q := by
  obtain ⟨hline, hcolumn⟩ := hp
  unfold place
  rcases h with hlt | ⟨heq, hle⟩
  · have hline : t.lines.take (p.line + 1) = t.lines.take p.line ++ [t.lines[p.line]] := by
      rw [List.take_add_one, List.getElem?_eq_getElem hline]
      rfl
    obtain ⟨rest, hrest⟩ : t.lines.take (p.line + 1) <+: t.lines.take q.line :=
      List.take_prefix_take_left hlt
    rw [← hrest, hline, List.flatten_append, List.flatten_append, List.length_append,
      List.length_append, List.flatten_singleton]
    omega
  · rw [heq]
    omega

/-! ## Line ends -/

/-- The line ends in a break. -/
def Ended (line : Text) : Prop := ∃ c, line.getLast? = some c ∧ isLineBreak c = true

/-- What stands in a line in front of the break. -/
def body (line : Text) : Text := line.takeWhile fun c => !isLineBreak c

/-- The place lies in the text, and its column is not after the beginning of the break that
ends the line. -/
def Shows (t : Text) (p : Position) : Prop :=
  ∃ h : p.line < t.lines.length, p.column ≤ (body t.lines[p.line]).length

instance (t : Text) (p : Position) : Decidable (t.Shows p) :=
  inferInstanceAs (Decidable
    (∃ h : p.line < t.lines.length, p.column ≤ (body t.lines[p.line]).length))

theorem isChain_lines (t : Text) : t.lines.IsChain fun line _ => Ended line := by
  have hsplit : (t.splitBy joins).IsChain fun line _ => Ended line := by
    refine (List.isChain_getLast_head_splitBy joins t).imp fun line next hjoins => ?_
    obtain ⟨hline, hnext, hjoins⟩ := hjoins
    refine ⟨line.getLast hline, List.getLast?_eq_some_getLast hline, ?_⟩
    simpa only [Bool.not_eq_false'] using (Bool.or_eq_false_iff.1 hjoins).1
  unfold lines
  split
  · rename_i hbreak
    refine hsplit.append (List.isChain_singleton _) fun line hline _ _ => ?_
    have hsplitne : t.splitBy joins ≠ [] := List.ne_nil_of_mem (List.mem_of_getLast? hline)
    have hne := List.splitBy_ne_nil.1 hsplitne
    rw [List.getLast?_eq_some_getLast hsplitne] at hline
    obtain rfl := Option.some.inj hline
    -- The last character of the text is the last one of its last line.
    refine ⟨t.getLast hne, ?_, ?_⟩
    · rw [← List.getLast_getLast_splitBy joins hne]
      exact List.getLast?_eq_some_getLast _
    · rwa [List.getLast?_eq_some_getLast hne, Option.all_some] at hbreak
  · rw [List.append_nil]
    exact hsplit

/-- Every line but the last one ends in a break. -/
theorem ended_of_lt {t : Text} {i : Nat} (h : i + 1 < t.lines.length) : Ended t.lines[i] :=
  List.isChain_iff_getElem.1 t.isChain_lines i h

theorem of_getElem?_lt_takeWhile {p : Char → Bool} {t : Text} {i : Nat} {c : Char}
    (hi : i < (t.takeWhile p).length) (h : t[i]? = some c) : p c = true := by
  have hmem : c ∈ t.takeWhile p := by
    rw [← List.takeWhile_append_dropWhile (p := p) (l := t), List.getElem?_append_left hi] at h
    exact List.mem_of_getElem? h
  exact List.mem_takeWhile_imp hmem

/-- Where the characters that satisfy `p` end, one stands that does not. -/
theorem not_of_getElem?_takeWhile {p : Char → Bool} {t : Text} {c : Char}
    (h : t[(t.takeWhile p).length]? = some c) : p c = false := by
  have hhead : (t.dropWhile p).head? = some c := by
    calc (t.dropWhile p).head?
        = (t.takeWhile p ++ t.dropWhile p)[(t.takeWhile p).length]? := by
          rw [List.getElem?_append_right (Nat.le_refl _), Nat.sub_self, List.head?_eq_getElem?]
      _ = some c := by rw [List.takeWhile_append_dropWhile, h]
  have hnot := List.head?_dropWhile_not p t
  rw [hhead] at hnot
  exact hnot

theorem body_length_le (line : Text) : (body line).length ≤ line.length :=
  (List.takeWhile_prefix _).length_le

theorem body_length_lt {line : Text} (h : Ended line) : (body line).length < line.length := by
  obtain ⟨c, hc, hbreak⟩ := h
  refine Nat.lt_of_le_of_ne (body_length_le line) fun heq => ?_
  have hall : body line = line := (List.takeWhile_prefix _).eq_of_length heq
  have hnot := List.takeWhile_eq_self_iff.1 hall c (List.mem_of_getLast? hc)
  rw [hbreak] at hnot
  exact Bool.false_ne_true hnot

theorem Shows.holds {t : Text} {p : Position} (h : t.Shows p) : t.Holds p :=
  ⟨h.1, Nat.le_trans h.2 (body_length_le _)⟩

theorem eq_append_line {t : Text} {i : Nat} (h : i < t.lines.length) :
    t = (t.lines.take i).flatten ++ (t.lines[i] ++ (t.lines.drop (i + 1)).flatten) := by
  rw [← List.flatten_cons, ← List.drop_eq_getElem_cons h, ← List.flatten_append,
    List.take_append_drop, flatten_lines]

theorem place_le_length {t : Text} {p : Position} (h : t.Holds p) : t.place p ≤ t.length := by
  obtain ⟨hline, hcolumn⟩ := h
  have hlength := congrArg List.length (eq_append_line hline)
  rw [List.length_append, List.length_append] at hlength
  rw [place]
  omega

/-- In front of a line stands the break of the line before it. -/
theorem isLineBreak_of_before_line {t : Text} {i : Nat} {c : Char} (h : i < t.lines.length)
    (hpos : 0 < t.place ⟨i, 0⟩) (hc : t[t.place ⟨i, 0⟩ - 1]? = some c) : isLineBreak c = true := by
  cases i with
  | zero => exact absurd hpos (Nat.lt_irrefl 0)
  | succ i =>
    obtain ⟨b, hb, hbreak⟩ := ended_of_lt h
    have hlast : (t.lines.take (i + 1)).flatten.getLast? = some b := by
      rw [List.take_add_one, List.getElem?_eq_getElem (Nat.lt_of_succ_lt h), Option.toList_some,
        List.flatten_append, List.flatten_singleton, List.getLast?_append, hb, Option.some_or]
    have hget := congrArg (fun u : Text => u[t.place ⟨i + 1, 0⟩ - 1]?) (eq_append_line h)
    rw [hc] at hget
    have hc := hget.trans (List.getElem?_append_left (Nat.sub_lt hpos Nat.one_pos))
    rw [List.getLast?_eq_getElem?] at hlast
    exact Option.some.inj (hc.trans hlast) ▸ hbreak

/-- Behind the body of a line stands its break, or nothing at all. -/
theorem isLineBreak_of_behind_body {t : Text} {i : Nat} {c : Char} (h : i < t.lines.length)
    (hc : t[t.place ⟨i, (body t.lines[i]).length⟩]? = some c) : isLineBreak c = true := by
  have hget := congrArg (fun u : Text => u[t.place ⟨i, (body t.lines[i]).length⟩]?)
    (eq_append_line h)
  rw [hc, place, List.getElem?_append_right (Nat.le_add_right _ _),
    Nat.add_sub_cancel_left] at hget
  have hline : t.lines[i][(body t.lines[i]).length]? = some c := by
    rcases Nat.lt_or_ge (i + 1) t.lines.length with hlt | hge
    · rw [hget, List.getElem?_append_left (body_length_lt (ended_of_lt hlt))]
    · rw [hget, List.drop_eq_nil_of_le hge, List.flatten_nil, List.append_nil]
  simpa only [Bool.not_eq_false'] using not_of_getElem?_takeWhile hline

/-- Each offset from the beginning of a line to its break is that of a place on the line. -/
theorem exists_column {t : Text} {line offset : Nat} (h : line < t.lines.length)
    (hstart : t.place ⟨line, 0⟩ ≤ offset)
    (hstop : offset ≤ t.place ⟨line, (body t.lines[line]).length⟩) :
    ∃ column, t.Shows ⟨line, column⟩ ∧ t.place ⟨line, column⟩ = offset := by
  rw [place_eq_add] at hstop
  refine ⟨offset - t.place ⟨line, 0⟩, ⟨h, Nat.sub_le_iff_le_add'.2 hstop⟩, ?_⟩
  rw [place_eq_add, Nat.add_sub_cancel' hstart]

/-! ## From offsets to places -/

/-- A column is located on its line.  The end of a line is on it only if no other line follows. -/
theorem locate_line {lines : List Text} {line i column : Nat} (h : i < lines.length)
    (hcolumn : column < lines[i].length ∨
      i + 1 = lines.length ∧ column ≤ lines[i].length) :
    locate line (lines.map List.length) ((lines.take i).flatten.length + column) =
      some ⟨line + i, column⟩ := by
  induction lines generalizing line i with
  | nil => exact absurd h (Nat.not_lt_zero i)
  | cons first rest ih =>
    rw [List.map_cons]
    cases i with
    | zero =>
      rw [List.take_zero, List.flatten_nil, List.length_nil, Nat.zero_add, Nat.add_zero]
      rw [List.getElem_cons_zero, List.length_cons] at hcolumn
      cases rest with
      | nil => exact if_pos (by omega)
      | cons second rest => exact if_pos (by rw [List.length_cons] at hcolumn; omega)
    | succ i =>
      rw [List.length_cons] at h
      rw [List.getElem_cons_succ, List.length_cons, Nat.add_right_cancel_iff] at hcolumn
      have hrest : locate (line + 1) (rest.map List.length)
          ((rest.take i).flatten.length + column) = some ⟨line + 1 + i, column⟩ :=
        ih (Nat.lt_of_succ_lt_succ h) hcolumn
      rw [List.take_succ_cons, List.flatten_cons, List.length_append, Nat.add_assoc]
      -- The last line is looked at in another way, so it has to be seen that this is not it.
      cases rest with
      | nil => exact absurd h (Nat.not_lt_of_ge (Nat.le_add_left _ _))
      | cons second rest =>
        rw [List.map_cons] at hrest ⊢
        rw [locate, if_neg (Nat.not_lt.2 (Nat.le_add_right _ _)), Nat.add_sub_cancel_left, hrest,
          Nat.add_right_comm]
        · rfl
        · exact List.cons_ne_nil _ _

/-- The place lies in front of the end of its line, or on the last line, which has no break. -/
def Proper (t : Text) (p : Position) : Prop :=
  ∃ h : p.line < t.lines.length, p.column < t.lines[p.line].length ∨
    p.line + 1 = t.lines.length ∧ p.column ≤ t.lines[p.line].length

theorem Proper.holds {t : Text} {p : Position} (h : t.Proper p) : t.Holds p := by
  obtain ⟨hline, hlt | ⟨-, hle⟩⟩ := h
  · exact ⟨hline, Nat.le_of_lt hlt⟩
  · exact ⟨hline, hle⟩

theorem Shows.proper {t : Text} {p : Position} (h : t.Shows p) : t.Proper p := by
  obtain ⟨hline, hcolumn⟩ := h
  refine ⟨hline, ?_⟩
  by_cases hlast : p.line + 1 < t.lines.length
  · exact .inl (Nat.lt_of_le_of_lt hcolumn (body_length_lt (ended_of_lt hlast)))
  · exact .inr ⟨by omega, Nat.le_trans hcolumn (body_length_le _)⟩

theorem locationOf_place {t : Text} {p : Position} (h : t.Proper p) :
    t.locationOf (t.place p) = some p := by
  obtain ⟨hline, hcolumn⟩ := h
  rw [locationOf, lineLengths_eq, place, locate_line hline hcolumn, Nat.zero_add]

end Text
end LiveSheet
