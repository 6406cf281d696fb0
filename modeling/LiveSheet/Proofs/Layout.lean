import LiveSheet.Proofs.Tiling
import LiveSheet.Token.Lexer

/-!
# The layout of tokens

The lexer loses nothing: its tokens tile the text, each of them carries the characters
that stand where it lies, and a token is a brace only if its one character is.
-/

namespace LiveSheet
namespace Token

/-- A token stands in a text where it says. -/
def StandsIn (tok : Token) (t : Text) : Prop := t.slice tok.start tok.lexeme.length = tok.lexeme

/-- The braces are recognised by their kind. -/
def BraceKind (tok : Token) : Prop :=
  (tok.kind = .openBrace → tok.lexeme = ['\x7b']) ∧
    (tok.kind = .closeBrace → tok.lexeme = ['\x7d'])

theorem commentLength_le {n more : Nat} {t : Text} (h : commentLength n t = some more) :
    more ≤ n + t.length := by
  fun_induction commentLength n t with
  | case1 => exact nomatch h
  | case2 n rest =>
    cases h
    simp only [List.length_cons]
    omega
  | case3 n c rest _ ih =>
    have := ih h
    simp only [List.length_cons]
    omega

theorem quotedLength_le {quote : Char} {n more : Nat} {t : Text}
    (h : quotedLength quote n t = some more) : more ≤ n + t.length := by
  fun_induction quotedLength quote n t with
  | case1 => exact nomatch h
  | case2 => exact nomatch h
  | case3 n c rest ih =>
    have := ih h
    simp only [List.length_cons]
    omega
  | case4 n rest =>
    cases h
    simp only [List.length_cons]
    omega
  | case5 => exact nomatch h
  | case6 n c rest _ _ _ _ ih =>
    have := ih h
    simp only [List.length_cons]
    omega

theorem interpolationLength_le {depth n more : Nat} {t : Text}
    (h : interpolationLength depth n t = some more) : more ≤ n + t.length := by
  fun_induction interpolationLength depth n t with
  | case1 => exact nomatch h
  | case3 =>
    cases h
    simp only [List.length_cons]
    omega
  | case2 _ _ _ ih | case4 _ _ _ _ ih | case5 _ _ _ _ _ _ ih =>
    have := ih h
    simp only [List.length_cons]
    omega

theorem length_takeWhile_le (p : Char → Bool) (t : Text) :
    (t.takeWhile p).length ≤ t.length :=
  (List.takeWhile_sublist p).length_le

/-- What a scan may say about the text `c :: rest`.  A token ends with the text at the
latest, and it is a brace only if its one character is. -/
def Scan.Fits (c : Char) (rest : Text) : Scan → Prop
  | .finished => False
  | .blank => Text.isBlank c = true
  | .token kind more =>
    more ≤ rest.length ∧ (kind = .openBrace → c = '\x7b' ∧ more = 0) ∧
      (kind = .closeBrace → c = '\x7d' ∧ more = 0)
  | .fault _ => True

theorem Scan.fits_of_kind {c : Char} {rest : Text} {kind : TokenKind} {more : Nat}
    (hmore : more ≤ rest.length) (hopen : kind ≠ .openBrace) (hclose : kind ≠ .closeBrace) :
    (Scan.token kind more).Fits c rest :=
  ⟨hmore, fun h => absurd h hopen, fun h => absurd h hclose⟩

theorem Scan.closed_fits {c : Char} {rest : Text} {kind : TokenKind} (cause : SyntaxFault)
    {length : Option Nat} (hlength : ∀ more, length = some more → more ≤ rest.length)
    (hopen : kind ≠ .openBrace) (hclose : kind ≠ .closeBrace) :
    (Scan.closed kind cause length).Fits c rest := by
  cases length with
  | none => trivial
  | some more => exact fits_of_kind (hlength more rfl) hopen hclose

theorem Scan.sigil_fits {c : Char} {rest : Text} {kind : TokenKind}
    (hopen : kind ≠ .openBrace) (hclose : kind ≠ .closeBrace) :
    (Scan.sigil kind rest).Fits c rest := by
  unfold Scan.sigil
  split
  · exact fits_of_kind (Nat.zero_le _) nofun nofun
  · exact fits_of_kind (length_takeWhile_le _ _) hopen hclose

theorem punctuation?_fits {c : Char} {rest : Text} {kind : TokenKind}
    (h : punctuation? c = some kind) : (Scan.token kind 0).Fits c rest := by
  unfold punctuation? at h
  refine ⟨Nat.zero_le _, ?_, ?_⟩
  · rintro rfl
    grind
  · rintro rfl
    grind

theorem length_tail_of_head? {rest : Text} {c : Char} (h : rest.head? = some c) :
    rest.tail.length + 1 = rest.length := by
  cases rest with
  | nil => exact nomatch h
  | cons => rfl

theorem scan_fits (c : Char) (rest : Text) : (scan (c :: rest)).Fits c rest := by
  unfold scan
  refine iteInduction (fun hblank => hblank) fun _ => ?_
  refine iteInduction
    (fun _ => Scan.fits_of_kind (length_takeWhile_le _ _) nofun nofun) fun _ => ?_
  refine iteInduction
    (fun hmark => Scan.closed_fits _ (fun more hmore => ?_) nofun nofun) fun _ => ?_
  · have := commentLength_le hmore
    have := length_tail_of_head? hmark.2
    omega
  refine iteInduction (fun _ => Scan.sigil_fits nofun nofun) fun _ => ?_
  refine iteInduction (fun _ => Scan.sigil_fits nofun nofun) fun _ => ?_
  refine iteInduction (fun _ => Scan.sigil_fits nofun nofun) fun _ => ?_
  refine iteInduction (fun _ => Scan.closed_fits _ (fun more hmore => ?_) nofun nofun) fun _ => ?_
  · have := quotedLength_le hmore
    omega
  refine iteInduction
    (fun hmark => Scan.closed_fits _ (fun more hmore => ?_) nofun nofun) fun _ => ?_
  · have := interpolationLength_le hmore
    have := length_tail_of_head? hmark.2
    omega
  cases hpunctuation : punctuation? c with
  | some kind => exact punctuation?_fits hpunctuation
  | none =>
    refine iteInduction
      (fun _ => Scan.fits_of_kind (length_takeWhile_le _ _) nofun nofun) fun _ => ?_
    refine iteInduction
      (fun _ => Scan.fits_of_kind (length_takeWhile_le _ _) nofun nofun) fun _ => ?_
    exact Scan.fits_of_kind (Nat.zero_le _) nofun nofun

theorem scan_eq_blank_iff {c : Char} {rest : Text} :
    scan (c :: rest) = .blank ↔ Text.isBlank c = true := by
  constructor
  · intro hscan
    have hblank := scan_fits c rest
    rwa [hscan] at hblank
  · intro hblank
    unfold scan
    exact if_pos hblank

theorem of_drop_eq_cons {w rest : Text} {offset : Nat} {c : Char}
    (hw : w.drop offset = c :: rest) :
    offset + rest.length + 1 = w.length ∧ w[offset]? = some c ∧ w.drop (offset + 1) = rest := by
  refine ⟨?_, ?_, ?_⟩
  · have hlength := congrArg List.length hw
    rw [List.length_drop, List.length_cons] at hlength
    omega
  · rw [← List.head?_drop, hw, List.head?_cons]
  · rw [← List.drop_drop, hw, List.drop_one, List.tail_cons]

theorem lexFrom_step {w : Text} {offset : Nat} {c : Char} {rest : Text} {kind : TokenKind}
    {more : Nat} (hw : w.drop offset = c :: rest) (hscan : scan (c :: rest) = .token kind more) :
    let tok : Token := ⟨kind, offset, c :: rest.take more⟩
    tok.span.stop = offset + 1 + more ∧ tok.StandsIn w ∧ tok.BraceKind ∧
      offset + 1 + more ≤ w.length ∧ w.drop (offset + 1 + more) = rest.drop more := by
  have hfits := scan_fits c rest
  rw [hscan] at hfits
  obtain ⟨hmore, hopen, hclose⟩ := hfits
  have hlength : (rest.take more).length = more := List.length_take_of_le hmore
  refine ⟨?_, ?_, ⟨?_, ?_⟩, ?_, ?_⟩
  · simp only [span, stop, List.length_cons, hlength]
    omega
  · simp only [StandsIn, Text.slice, hw, List.length_cons, hlength, List.take_succ_cons]
  · rintro rfl
    obtain ⟨rfl, rfl⟩ := hopen rfl
    rfl
  · rintro rfl
    obtain ⟨rfl, rfl⟩ := hclose rfl
    rfl
  · have := (of_drop_eq_cons hw).1
    omega
  · rw [← List.drop_drop, (of_drop_eq_cons hw).2.2]

/-- The lexer from `offset` on: the new tokens tile the rest of the text. -/
theorem lexFrom_tiling {w : Text} {offset : Nat} {found tokens : List Token} {rest : Text}
    (h : lexFrom offset found rest = .ok tokens) (hw : w.drop offset = rest)
    (hoffset : offset ≤ w.length) :
    ∃ new, tokens = found.reverse ++ new ∧ w.Tiling offset w.length (new.map span) ∧
      ∀ tok ∈ new, tok.StandsIn w ∧ tok.BraceKind := by
  -- the induction is that of the lexer; what is left of the text begins at `offset`
  fun_induction lexFrom offset found rest with
  | case1 offset found =>
    cases h
    refine ⟨[], (List.append_nil _).symm, Text.tiling_nil.2 ⟨hoffset, fun p c hp hlt hc => ?_⟩,
      List.forall_mem_nil _⟩
    have := List.drop_eq_nil_iff.1 hw
    omega
  | case2 offset found c rest hscan =>
    have hfits := scan_fits c rest
    rw [hscan] at hfits
    exact hfits.elim
  | case3 offset found c rest hscan ih =>
    have hblank := scan_fits c rest
    rw [hscan] at hblank
    obtain ⟨hlength, hc, hdrop⟩ := of_drop_eq_cons hw
    have hlt : offset + 1 ≤ w.length := by omega
    obtain ⟨new, hnew, htiling, hstands⟩ := ih h hdrop hlt
    exact ⟨new, hnew, htiling.blank_before hc hblank, hstands⟩
  | case4 offset found c rest kind more hscan ih =>
    obtain ⟨hstop, hstands, hbrace, hle, hdrop⟩ := lexFrom_step hw hscan
    obtain ⟨new, hnew, htiling, hall⟩ := ih h hdrop hle
    refine ⟨_ :: new, by rw [hnew, List.reverse_cons, List.append_assoc]; rfl, ?_,
      List.forall_mem_cons.2 ⟨⟨hstands, hbrace⟩, hall⟩⟩
    refine Text.tiling_cons.2 ⟨Text.tiling_refl, ?_, ?_⟩
    · rw [hstop]
      show offset < _
      omega
    · rw [hstop]
      exact htiling
  | case5 => exact nomatch h

theorem lex_tiling {t : Text} {tokens : List Token} (h : lex t = .ok tokens) :
    t.Tiling 0 t.length (tokens.map span) ∧ ∀ tok ∈ tokens, tok.StandsIn t ∧ tok.BraceKind := by
  obtain ⟨new, hnew, htiling, hall⟩ := lexFrom_tiling h List.drop_zero (Nat.zero_le _)
  rw [List.reverse_nil, List.nil_append] at hnew
  exact hnew ▸ ⟨htiling, hall⟩

/-- A token of one character is the character that stands in the text. -/
theorem StandsIn.getElem? {tok : Token} {t : Text} {c : Char} (h : tok.StandsIn t)
    (hlexeme : tok.lexeme = [c]) : tok.stop = tok.start + 1 ∧ t[tok.start]? = some c := by
  unfold StandsIn Text.slice at h
  rw [hlexeme] at h
  refine ⟨by rw [stop, hlexeme]; rfl, ?_⟩
  rw [← List.head?_drop]
  cases hdrop : t.drop tok.start with
  | nil => rw [hdrop] at h; exact nomatch h
  | cons d rest =>
    rw [hdrop] at h
    cases h
    rfl

end Token
end LiveSheet
