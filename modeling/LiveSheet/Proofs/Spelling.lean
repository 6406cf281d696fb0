import LiveSheet.Proofs.Comments
import Mathlib.Data.List.DropRight

/-!
# Spelling

What the characters of a token tell of its kind, and how the text between two offsets is spelled
by the tokens that tile it.
-/

namespace LiveSheet
namespace Text

variable {t : Text} {lo mid hi k : Nat} {c : Char}

/-! ## Blanks around a text -/

theorem dropEnd_eq_rdropWhile (p : Char → Bool) (t : Text) : dropEnd p t = t.rdropWhile p := rfl

/-- A text is what is left when its end is trimmed, and blanks behind that. -/
theorem exists_append_trimEnd (t : Text) :
    ∃ gap : Text, t = trimEnd t ++ gap ∧ ∀ c ∈ gap, isBlank c = true :=
  ⟨t.rtakeWhile isBlank, List.rdropWhile_append_rtakeWhile.symm,
    fun _ hc => List.mem_rtakeWhile_imp hc⟩

theorem trimEnd_append_blanks {front gap : Text} (hc : isBlank c = false)
    (hgap : ∀ b ∈ gap, isBlank b = true) : trimEnd (front ++ [c] ++ gap) = front ++ [c] := by
  induction gap using List.reverseRecOn with
  | nil =>
    rw [List.append_nil, trimEnd, dropEnd_eq_rdropWhile,
      List.rdropWhile_concat_neg _ _ _ (Bool.eq_false_iff.1 hc)]
  | append_singleton gap b ih =>
    obtain ⟨hgap, hb⟩ := List.forall_mem_append.1 hgap
    rw [← List.append_assoc, trimEnd, dropEnd_eq_rdropWhile,
      List.rdropWhile_concat_pos _ _ _ (hb b (List.mem_singleton_self b))]
    exact ih hgap

/-- Nothing but the blanks around a text is trimmed, if the text itself begins and ends with
other characters. -/
theorem trim_append_blanks {gap gap' x : Text} (hgap : ∀ b ∈ gap, isBlank b = true)
    (hgap' : ∀ b ∈ gap', isBlank b = true) (hfirst : ∀ c ∈ x.head?, isBlank c = false)
    (hlast : ∀ c ∈ x.getLast?, isBlank c = false) : trim (gap ++ (x ++ gap')) = x := by
  rw [trim, List.dropWhile_append_of_pos hgap]
  rcases List.eq_nil_or_concat x with rfl | ⟨front, d, rfl⟩
  · rw [List.nil_append, List.dropWhile_eq_nil_iff.2 hgap']
    rfl
  · have hd : isBlank d = false := hlast d (by simp)
    rw [List.concat_eq_append] at hfirst ⊢
    have hkept : (front ++ [d] ++ gap').dropWhile isBlank = front ++ [d] ++ gap' := by
      cases hparts : front ++ [d] with
      | nil => exact absurd hparts (by simp)
      | cons c rest =>
        rw [hparts] at hfirst
        exact List.dropWhile_cons_of_neg (Bool.eq_false_iff.1 (hfirst c rfl))
    rw [hkept, trimEnd_append_blanks hd hgap']

theorem trim_of_not_blank (h : ∀ c ∈ t, isBlank c = false) : trim t = t := by
  have hnone : ∀ b ∈ ([] : Text), isBlank b = true := List.forall_mem_nil _
  have htrim := trim_append_blanks hnone hnone (fun c hc => h c (List.mem_of_head? hc))
    fun c hc => h c (List.mem_of_getLast? hc)
  rwa [List.nil_append, List.append_nil] at htrim

/-! ## The text between two offsets -/

/-- What stands from `lo` up to `hi`. -/
def between (t : Text) (lo hi : Nat) : Text := t.slice lo (hi - lo)

theorem between_prefix (t : Text) (lo hi : Nat) : t.between lo hi <+: t.drop lo :=
  List.take_prefix _ _

theorem between_self (t : Text) (lo : Nat) : t.between lo lo = [] := by
  rw [between, slice, Nat.sub_self, List.take_zero]

theorem between_append (hlo : lo ≤ mid) (hhi : mid ≤ hi) :
    t.between lo hi = t.between lo mid ++ t.between mid hi := by
  have hlength : hi - lo = (mid - lo) + (hi - mid) := by omega
  have hmid : lo + (mid - lo) = mid := by omega
  rw [between, slice, hlength, List.take_add, List.drop_drop, hmid]
  rfl

theorem getElem?_between (h : (t.between lo hi)[k]? = some c) :
    lo + k < hi ∧ t[lo + k]? = some c := by
  rw [between, slice, List.getElem?_take] at h
  split at h
  · rw [List.getElem?_drop] at h
    exact ⟨by omega, h⟩
  · cases h

/-- Where no span stands, there are only blanks. -/
theorem isBlank_of_tiling_nil (h : t.Tiling lo hi []) :
    ∀ c ∈ t.between lo hi, isBlank c = true := by
  intro c hc
  obtain ⟨k, hk⟩ := List.mem_iff_getElem?.1 hc
  obtain ⟨hlt, hat⟩ := getElem?_between hk
  exact (tiling_nil.1 h).2 _ c (Nat.le_add_right _ _) hlt hat

end Text

namespace Token

variable {t rest : Text} {c d : Char} {kind : TokenKind} {more : Nat} {tokens : List Token}

/-! ## Kinds and characters -/

theorem punctuation?_mem (h : punctuation? c = some kind) :
    kind ∈ [TokenKind.openBrace, .closeBrace, .openParen, .closeParen, .colon, .semicolon,
      .comma] := by
  unfold punctuation? at h
  grind

theorem punctuation?_injective (h : punctuation? c = some kind) (h' : punctuation? d = some kind) :
    c = d := by
  unfold punctuation? at h
  repeat' split at h
  all_goals cases h
  all_goals unfold punctuation? at h'
  all_goals grind

/-- What the scan of `c :: rest` tells of the kinds that names and marks have. -/
def Scan.Marks (c : Char) (rest : Text) : Scan → Prop
  | .token kind more =>
    (kind = .variable →
      c = Declaration.sigil ∧ 0 < more ∧ more = (rest.takeWhile Text.isWordChar).length) ∧
    (∀ d, punctuation? d = some kind → c = d ∧ more = 0) ∧ (c = '(' → kind = .openParen)
  | _ => True

theorem Scan.marks_of_kind (hvariable : kind ≠ .variable)
    (hmark : kind ∉ [TokenKind.openBrace, .closeBrace, .openParen, .closeParen, .colon,
      .semicolon, .comma]) (hc : c ≠ '(') : (Scan.token kind more).Marks c rest :=
  ⟨fun h => absurd h hvariable, fun _ h => absurd (punctuation?_mem h) hmark, fun h => absurd h hc⟩

theorem Scan.marks_closed {cause : SyntaxFault} {length : Option Nat}
    (h : ∀ more, (Scan.token kind more).Marks c rest) :
    (Scan.closed kind cause length).Marks c rest := by
  cases length with
  | none => trivial
  | some more => exact h more

theorem Scan.marks_sigil (h : ∀ more, 0 < more → more = (rest.takeWhile Text.isWordChar).length →
    (Scan.token kind more).Marks c rest) (hc : c ≠ '(') : (Scan.sigil kind rest).Marks c rest := by
  unfold Scan.sigil
  split
  · exact marks_of_kind nofun (by decide) hc
  · rename_i hmore
    exact h _ (Nat.pos_of_ne_zero hmore) rfl

theorem scan_marks (c : Char) (rest : Text) : (scan (c :: rest)).Marks c rest := by
  unfold scan
  refine iteInduction (fun _ => trivial) fun _ => ?_
  refine iteInduction
    (fun h => Scan.marks_of_kind nofun (by decide) (by rw [h.1]; decide)) fun _ => ?_
  refine iteInduction (fun h => Scan.marks_closed fun _ =>
    Scan.marks_of_kind nofun (by decide) (by rw [h.1]; decide)) fun _ => ?_
  refine iteInduction (fun h => Scan.marks_sigil (fun more hpos hmore => ?_)
    (by rw [h]; decide)) fun _ => ?_
  · exact ⟨fun _ => ⟨h, hpos, hmore⟩, fun _ hd => absurd (punctuation?_mem hd) (by decide),
      fun hparen => absurd (h.symm.trans hparen) (by decide)⟩
  refine iteInduction (fun h => Scan.marks_sigil (fun _ _ _ =>
    Scan.marks_of_kind nofun (by decide) (by rw [h]; decide)) (by rw [h]; decide)) fun _ => ?_
  refine iteInduction (fun h => Scan.marks_sigil (fun _ _ _ =>
    Scan.marks_of_kind nofun (by decide) (by rw [h]; decide)) (by rw [h]; decide)) fun _ => ?_
  refine iteInduction (fun h => Scan.marks_closed fun _ =>
    Scan.marks_of_kind nofun (by decide) (by rcases h with h | h <;> rw [h] <;> decide)) fun _ => ?_
  refine iteInduction (fun h => Scan.marks_closed fun _ =>
    Scan.marks_of_kind nofun (by decide) (by rw [h.1]; decide)) fun _ => ?_
  cases hmark : punctuation? c with
  | some kind =>
    refine ⟨?_, fun d hd => ⟨punctuation?_injective hmark hd, rfl⟩, ?_⟩
    · rintro rfl
      exact absurd (punctuation?_mem hmark) (by decide)
    · rintro rfl
      exact (Option.some.inj hmark).symm
  | none =>
    have hparen : c ≠ '(' := by
      rintro rfl
      cases hmark
    refine iteInduction (fun _ => Scan.marks_of_kind nofun (by decide) hparen) fun _ => ?_
    refine iteInduction (fun _ => Scan.marks_of_kind nofun (by decide) hparen) fun _ => ?_
    exact Scan.marks_of_kind nofun (by decide) hparen

/-- What can be read off a token without the text around it. -/
structure Lexical (tok : Token) : Prop where
  solid : ∃ c rest, tok.lexeme = c :: rest ∧ Text.isBlank c = false
  variable_lexeme : tok.kind = .variable → ∃ word, tok.lexeme = Declaration.sigil :: word ∧
    word ≠ [] ∧ ∀ c ∈ word, Text.isWordChar c = true
  mark : ∀ c, punctuation? c = some tok.kind → tok.lexeme = [c]
  paren : tok.lexeme.head? = some '(' → tok.kind = .openParen

theorem lexical_of_lex (h : lex t = .ok tokens) : ∀ tok ∈ tokens, tok.Lexical := by
  intro tok htok
  obtain ⟨c, rest, more, hdrop, hscan, hstop⟩ := lex_found h tok htok
  have hmarks := scan_marks c rest
  rw [hscan] at hmarks
  obtain ⟨hvariable, hmark, hparen⟩ := hmarks
  have hlength : tok.lexeme.length = more + 1 := by
    rw [stop] at hstop
    omega
  have hlexeme : tok.lexeme = c :: rest.take more := by
    have hstands : t.slice tok.start tok.lexeme.length = tok.lexeme := ((lex_tiling h).2 tok htok).1
    rw [← hstands, hlength, Text.slice, hdrop, List.take_succ_cons]
  refine ⟨⟨c, _, hlexeme, scan_not_blank hscan⟩, fun hkind => ?_, fun d hd => ?_, fun hhead => ?_⟩
  · obtain ⟨rfl, hpos, hmore⟩ := hvariable hkind
    have htaken : rest.take more = rest.takeWhile Text.isWordChar := by
      rw [hmore]
      exact (List.prefix_iff_eq_take.1 (List.takeWhile_prefix _)).symm
    refine ⟨_, hlexeme, ?_, fun d hd => ?_⟩
    · rw [htaken]
      exact List.ne_nil_of_length_pos (hmore ▸ hpos)
    · rw [htaken] at hd
      exact List.mem_takeWhile_imp hd
  · obtain ⟨rfl, rfl⟩ := hmark d hd
    exact hlexeme
  · rw [hlexeme] at hhead
    exact hparen (Option.some.inj hhead)

/-! ## Runs of tokens -/

variable {tok u : Token} {ts : List Token} {lo hi k : Nat}

theorem StandsIn.between (h : tok.StandsIn t) : t.between tok.start tok.stop = tok.lexeme := by
  have hlength : tok.stop - tok.start = tok.lexeme.length := by
    rw [stop]
    omega
  rw [Text.between, hlength]
  exact h

/-- What is tiled by tokens begins with blanks and the first of the tokens. -/
theorem between_cons (htiling : t.Tiling lo hi ((u :: ts).map span)) (hstands : u.StandsIn t) :
    t.between lo hi = t.between lo u.start ++ (u.lexeme ++ t.between u.stop hi) ∧
      (∀ c ∈ t.between lo u.start, Text.isBlank c = true) ∧
      t.Tiling u.stop hi (ts.map span) := by
  obtain ⟨hgap, -, hrest⟩ := Text.tiling_cons.1 htiling
  have hlo : lo ≤ u.start := hgap.bounds
  have hhi : u.stop ≤ hi := hrest.bounds
  have hstart : u.start ≤ u.stop := u.span.start_le_stop
  refine ⟨?_, Text.isBlank_of_tiling_nil hgap, hrest⟩
  rw [Text.between_append hlo (Nat.le_trans hstart hhi), Text.between_append hstart hhi,
    hstands.between]

/-- Every character that is not blank stands in one of the tokens. -/
theorem exists_mem_of_between (htiling : t.Tiling lo hi (ts.map span))
    (hstands : ∀ tok ∈ ts, tok.StandsIn t) (hc : (t.between lo hi)[k]? = some c)
    (hnot : Text.isBlank c = false) :
    ∃ tok ∈ ts, ∃ j, tok.start + j = lo + k ∧ tok.lexeme[j]? = some c := by
  obtain ⟨hlt, hat⟩ := Text.getElem?_between hc
  by_contra hnone
  have hblank := htiling.blank_outside (lo + k) c (Nat.le_add_right _ _) hlt ?_ hat
  · rw [hnot] at hblank
    exact Bool.false_ne_true hblank
  · intro s hs
    obtain ⟨tok, htok, rfl⟩ := List.mem_map.1 hs
    rw [← Bool.not_eq_true, Span.contains_iff]
    rintro ⟨hstart, hstop⟩
    have hstart : tok.start ≤ lo + k := hstart
    have hstop : lo + k < tok.stop := hstop
    refine hnone ⟨tok, htok, lo + k - tok.start, by omega, ?_⟩
    rw [← (hstands tok htok).between, Text.between, Text.slice,
      List.getElem?_take_of_lt (by omega), List.getElem?_drop, Nat.add_sub_cancel' hstart, hat]

end Token
end LiveSheet
