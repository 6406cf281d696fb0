import LiveSheet.Proofs.Joining
import LiveSheet.Proofs.Words

/-!
# Where tokens end

A token takes as many characters as it can.  So what it takes depends on the character behind it,
and on nothing else that is there: the token stays the same if what comes after it begins with
the same character as before, or with a blank.
-/

namespace LiveSheet
namespace Token

variable {x rest rest' : Text} {c : Char} {kind : TokenKind} {p : Char → Bool}

/-! ## Closing marks -/

theorem lt_of_commentLength {n length : Nat} (h : commentLength n rest = some length) :
    n < length := by
  fun_induction commentLength n rest with
  | case1 => cases h
  | case2 =>
    cases h
    omega
  | case3 n c rest _ ih => exact Nat.lt_of_succ_lt (ih h)

/-- A comment that is closed where `x` ends is closed within `x`. -/
theorem commentLength_of_append {n : Nat}
    (h : commentLength n (x ++ rest) = some (n + x.length)) :
    commentLength n x = some (n + x.length) := by
  induction x generalizing n with
  | nil => exact absurd (lt_of_commentLength h) (Nat.lt_irrefl n)
  | cons c x ih =>
    have hlength : n + (c :: x).length = n + 1 + x.length := by
      rw [List.length_cons, Nat.add_assoc, Nat.add_comm 1]
    rw [hlength] at h ⊢
    rw [List.cons_append, commentLength.eq_def] at h
    split at h
    · cases h
    · rename_i after hmark
      obtain ⟨rfl, hslash⟩ := List.cons.inj hmark
      cases x with
      | nil =>
        have hmore := Option.some.inj h
        rw [List.length_nil] at hmore
        omega
      | cons d x =>
        obtain ⟨rfl, rfl⟩ := List.cons.inj hslash
        exact h
    · rename_i d after hmark hsame
      obtain ⟨rfl, rfl⟩ := List.cons.inj hsame
      rw [commentLength]
      · exact ih h
      · rintro after rfl rfl
        exact hmark (after ++ rest) rfl rfl

theorem lt_of_quotedLength {quote : Char} {n length : Nat}
    (h : quotedLength quote n rest = some length) : n < length := by
  fun_induction quotedLength quote n rest with
  | case1 => cases h
  | case2 => cases h
  | case3 n c rest ih =>
    have := ih h
    omega
  | case4 =>
    cases h
    omega
  | case5 => cases h
  | case6 n c rest _ _ _ _ ih => exact Nat.lt_of_succ_lt (ih h)

theorem quotedLength_of_append {quote : Char} {n : Nat}
    (h : quotedLength quote n (x ++ rest) = some (n + x.length)) :
    quotedLength quote n x = some (n + x.length) := by
  fun_induction quotedLength quote n x with
  | case1 => exact absurd (lt_of_quotedLength h) (Nat.lt_irrefl _)
  | case2 n =>
    -- the character behind a backslash belongs to the string
    cases rest with
    | nil => cases h
    | cons d rest =>
      have hlt : n + 2 < n + 1 := lt_of_quotedLength h
      omega
  | case3 n c x ih =>
    have hlength : n + ('\\' :: c :: x).length = n + 2 + x.length := by
      rw [List.length_cons, List.length_cons]
      omega
    rw [hlength] at h ⊢
    exact ih h
  | case4 n x hlast hpair =>
    rw [List.cons_append, quotedLength_cons (ne_backslash hlast hpair), if_pos rfl] at h
    exact h
  | case5 n x hlast hpair hquote =>
    rw [List.cons_append, quotedLength_cons (ne_backslash hlast hpair), if_neg hquote,
      if_pos rfl] at h
    cases h
  | case6 n c x hlast hpair hquote hbreak ih =>
    have hlength : n + (c :: x).length = n + 1 + x.length := by
      rw [List.length_cons, Nat.add_assoc, Nat.add_comm 1]
    rw [List.cons_append, quotedLength_cons (ne_backslash hlast hpair), if_neg hquote,
      if_neg hbreak, hlength] at h
    rw [hlength]
    exact ih h

theorem lt_of_interpolationLength {depth n length : Nat}
    (h : interpolationLength depth n rest = some length) : n < length := by
  fun_induction interpolationLength depth n rest with
  | case1 => cases h
  | case3 =>
    cases h
    omega
  | case2 _ _ _ ih | case4 _ _ _ _ ih | case5 _ _ _ _ _ _ ih => exact Nat.lt_of_succ_lt (ih h)

theorem interpolationLength_of_append {depth n : Nat}
    (h : interpolationLength depth n (x ++ rest) = some (n + x.length)) :
    interpolationLength depth n x = some (n + x.length) := by
  induction x generalizing depth n with
  | nil => exact absurd (lt_of_interpolationLength h) (Nat.lt_irrefl n)
  | cons c x ih =>
    have hlength : n + (c :: x).length = n + 1 + x.length := by
      rw [List.length_cons, Nat.add_assoc, Nat.add_comm 1]
    rw [hlength] at h ⊢
    rw [List.cons_append, interpolationLength.eq_def] at h
    rw [interpolationLength.eq_def]
    dsimp only at h ⊢
    split at h
    · rename_i hopen
      rw [if_pos hopen]
      exact ih h
    · rename_i hopen
      rw [if_neg hopen]
      split at h
      · rename_i hclose
        rw [if_pos hclose]
        cases depth with
        | zero => exact h
        | succ outer => exact ih h
      · rename_i hclose
        rw [if_neg hclose]
        exact ih h

/-! ## Scanning -/

theorem length_takeWhile_append_eq_iff :
    ((x ++ rest).takeWhile p).length = x.length ↔
      (∀ c ∈ x, p c = true) ∧ ∀ d ∈ rest.head?, p d = false := by
  induction x with
  | nil =>
    cases rest with
    | nil => simp
    | cons d rest =>
      cases hd : p d <;> simp [hd]
  | cons c x ih =>
    cases hc : p c <;> simp [hc, ih]

/-- What comes after a token of the kind begins as what came before did, or with a blank.  What
ends a line comment is a line feed and no other blank. -/
def Apart (kind : TokenKind) (rest rest' : Text) : Prop :=
  ∀ d ∈ rest'.head?, d ∈ rest.head? ∨
    Text.isBlank d = true ∧ (kind = .lineComment → d = '\n')

theorem Apart.head? (h : Apart kind rest rest') {d : Char} (hd : d ∈ (x ++ rest').head?)
    (hblank : Text.isBlank d = false) : d ∈ (x ++ rest).head? := by
  cases x with
  | nil =>
    rcases h d hd with hsame | ⟨hnot, -⟩
    · exact hsame
    · exact nomatch hblank.symm.trans hnot
  | cons => exact hd

theorem Apart.length_takeWhile (h : Apart kind rest rest')
    (hp : ∀ d, Text.isBlank d = true → (kind = .lineComment → d = '\n') → p d = false)
    (hlength : ((x ++ rest).takeWhile p).length = x.length) :
    ((x ++ rest').takeWhile p).length = x.length := by
  rw [length_takeWhile_append_eq_iff] at hlength ⊢
  refine ⟨hlength.1, fun d hd => ?_⟩
  rcases h d hd with hsame | ⟨hblank, hbreak⟩
  · exact hlength.2 d hsame
  · exact hp d hblank hbreak

theorem head?_of_length_takeWhile (hlength : ((x ++ rest).takeWhile p).length = x.length)
    {d : Char} (hd : d ∈ (x ++ rest).head?) (hp : p d = true) : d ∈ (x ++ rest').head? := by
  cases x with
  | nil => exact nomatch hp.symm.trans ((length_takeWhile_append_eq_iff.1 hlength).2 d hd)
  | cons => exact hd

namespace Scan

variable {n : Nat}

/-- The second scan finds the token if the first one does. -/
def Kept (kind : TokenKind) (n : Nat) (s s' : Scan) : Prop :=
  s = .token kind n → s' = .token kind n

theorem kept_ite {q q' : Prop} [Decidable q] [Decidable q'] {s s' u u' : Scan} (hback : q' → q)
    (hs : q → s = .token kind n → q' ∧ s' = .token kind n) (hu : ¬q → Kept kind n u u') :
    Kept kind n (if q then s else u) (if q' then s' else u') := by
  intro h
  by_cases hq : q
  · rw [if_pos hq] at h
    obtain ⟨hq', hs'⟩ := hs hq h
    rw [if_pos hq', hs']
  · rw [if_neg hq] at h
    rw [if_neg (mt hback hq)]
    exact hu hq h

theorem closed_eq_token_iff {found : TokenKind} {cause : SyntaxFault} {length : Option Nat} :
    closed found cause length = .token kind n ↔ found = kind ∧ length = some n := by
  cases length <;> simp [closed]

/-- A token that is opened by two characters and closed where `x` ends. -/
theorem closed_tail {found : TokenKind} {cause : SyntaxFault} {f : Text → Option Nat} {d : Char}
    (hlt : ∀ t length, f t = some length → 1 < length)
    (hf : ∀ y : Text, f (y ++ rest) = some (1 + y.length) → f (y ++ rest') = some (1 + y.length))
    (hd : (x ++ rest).head? = some d)
    (h : closed found cause (f (x ++ rest).tail) = .token kind x.length) :
    (x ++ rest').head? = some d ∧ closed found cause (f (x ++ rest').tail) = .token kind x.length := by
  obtain ⟨rfl, hlength⟩ := closed_eq_token_iff.1 h
  cases x with
  | nil => exact absurd (hlt _ _ hlength) (Nat.not_lt_zero 1)
  | cons e y =>
    rw [List.length_cons, Nat.add_comm] at hlength ⊢
    exact ⟨hd, closed_eq_token_iff.2 ⟨rfl, hf y hlength⟩⟩

theorem sigil_kept {found : TokenKind} (h : Apart kind rest rest') :
    Kept kind x.length (sigil found (x ++ rest)) (sigil found (x ++ rest')) := by
  intro hs
  have hlength : ((x ++ rest).takeWhile Text.isWordChar).length = x.length := by
    unfold sigil at hs
    split at hs
    · rename_i hzero
      exact hzero.trans (Scan.token.inj hs).2
    · exact (Scan.token.inj hs).2
  have hlength' := h.length_takeWhile (fun d hd _ => Text.not_isWordChar_of_isBlank hd) hlength
  unfold sigil at hs ⊢
  rw [hlength] at hs
  rwa [hlength']

end Scan

theorem isDigit_not_blank {d : Char} (hd : d.isDigit = true) : Text.isBlank d = false := by
  cases hblank : Text.isBlank d with
  | false => rfl
  | true =>
    have hnot := Text.of_isBlank (q := fun d => d.isDigit = false) (by decide +kernel) hblank
    exact hd.symm.trans hnot

theorem isNumberChar_of_isDigit {d : Char} (hd : d.isDigit = true) : isNumberChar d = true := by
  simp [isNumberChar, Char.isAlphanum, hd]

theorem not_isNumberChar_of_isBlank {d : Char} (hd : Text.isBlank d = true) :
    isNumberChar d = false :=
  Text.of_isBlank (q := fun d => isNumberChar d = false) (by decide +kernel) hd

theorem startsNumber_iff {next : Option Char} :
    startsNumber c next = true ↔ c.isDigit = true ∨ c = '.' ∧ ∃ d ∈ next, d.isDigit = true := by
  simp [startsNumber, Option.any_eq_true]

/-- A token that ends with `x` ends there as well if what comes after it is set apart. -/
theorem scan_kept (h : Apart kind rest rest') :
    Scan.Kept kind x.length (scan (c :: (x ++ rest))) (scan (c :: (x ++ rest'))) := by
  unfold scan
  refine Scan.kept_ite id (fun hblank hs => nomatch hs) fun _ => ?_
  refine Scan.kept_ite (fun hmark => ⟨hmark.1, h.head? hmark.2 rfl⟩) (fun hmark hs => ?_) fun _ => ?_
  · obtain ⟨rfl, hlength⟩ := Scan.token.inj hs
    have hbreak : ∀ d, Text.isBlank d = true → (TokenKind.lineComment = .lineComment → d = '\n') →
        (d != '\n') = false := by
      intro d _ hd
      rw [hd rfl]
      rfl
    exact ⟨⟨hmark.1, head?_of_length_takeWhile hlength hmark.2 (by decide)⟩,
      congrArg (Scan.token .lineComment) (h.length_takeWhile hbreak hlength)⟩
  refine Scan.kept_ite (fun hmark => ⟨hmark.1, h.head? hmark.2 rfl⟩) (fun hmark hs => ?_) fun _ => ?_
  · obtain ⟨hhead, htoken⟩ := Scan.closed_tail (f := commentLength 1)
      (fun _ _ => lt_of_commentLength)
      (fun _ hy => commentLength_append (commentLength_of_append hy) rest') hmark.2 hs
    exact ⟨⟨hmark.1, hhead⟩, htoken⟩
  refine Scan.kept_ite id (fun hmark hs => ⟨hmark, Scan.sigil_kept h hs⟩) fun _ => ?_
  refine Scan.kept_ite id (fun hmark hs => ⟨hmark, Scan.sigil_kept h hs⟩) fun _ => ?_
  refine Scan.kept_ite id (fun hmark hs => ⟨hmark, Scan.sigil_kept h hs⟩) fun _ => ?_
  refine Scan.kept_ite id (fun hmark hs => ⟨hmark, ?_⟩) fun _ => ?_
  · obtain ⟨rfl, hlength⟩ := Scan.closed_eq_token_iff.1 hs
    rw [← Nat.zero_add x.length] at hlength
    refine Scan.closed_eq_token_iff.2 ⟨rfl, ?_⟩
    rw [quotedLength_append (quotedLength_of_append hlength) rest', Nat.zero_add]
  refine Scan.kept_ite (fun hmark => ⟨hmark.1, h.head? hmark.2 rfl⟩) (fun hmark hs => ?_) fun _ => ?_
  · obtain ⟨hhead, htoken⟩ := Scan.closed_tail (f := interpolationLength 0 1)
      (fun _ _ => lt_of_interpolationLength)
      (fun _ hy => interpolationLength_append (interpolationLength_of_append hy) rest') hmark.2 hs
    exact ⟨⟨hmark.1, hhead⟩, htoken⟩
  cases punctuation? c with
  | some found => exact id
  | none =>
    refine Scan.kept_ite (fun hnumber => ?_) (fun hnumber hs => ?_) fun _ => ?_
    · rw [startsNumber_iff] at hnumber ⊢
      exact hnumber.imp_right fun ⟨hpoint, d, hd, hdigit⟩ =>
        ⟨hpoint, d, h.head? hd (isDigit_not_blank hdigit), hdigit⟩
    · obtain ⟨rfl, hlength⟩ := Scan.token.inj hs
      have hlength' := h.length_takeWhile (fun d hd _ => not_isNumberChar_of_isBlank hd) hlength
      rw [hlength']
      refine ⟨?_, rfl⟩
      rw [startsNumber_iff] at hnumber ⊢
      exact hnumber.imp_right fun ⟨hpoint, d, hd, hdigit⟩ => ⟨hpoint, d,
        head?_of_length_takeWhile hlength hd (isNumberChar_of_isDigit hdigit), hdigit⟩
    refine Scan.kept_ite id (fun hword hs => ⟨hword, ?_⟩) fun _ => id
    obtain ⟨rfl, hlength⟩ := Scan.token.inj hs
    rw [h.length_takeWhile (fun d hd _ => Text.not_isWordChar_of_isBlank hd) hlength]

/-- The lexer finds the same token, and goes on behind it, if what comes after it is set apart. -/
theorem lexFrom_kept {more : Nat} (hscan : scan (c :: rest) = .token kind more)
    (h : Apart kind (rest.drop more) rest') (offset : Nat) (found : List Token) :
    lexFrom offset found (c :: (rest.take more ++ rest')) =
      lexFrom (offset + 1 + more) (⟨kind, offset, c :: rest.take more⟩ :: found) rest' := by
  have hfits := scan_fits c rest
  rw [hscan] at hfits
  have hlength : (rest.take more).length = more := List.length_take_of_le hfits.1
  have hkept := scan_kept (c := c) (x := rest.take more) h
  rw [List.take_append_drop, hlength] at hkept
  rw [lexFrom, hkept hscan]
  dsimp only
  rw [List.take_left' hlength, List.drop_left' hlength]

end Token
end LiveSheet
