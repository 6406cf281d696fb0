import LiveSheet.Proofs.Boundaries
import LiveSheet.Proofs.Comments
import Mathlib.Data.List.DropRight

/-!
# Delimiters

What has to be closed, and what it is to be left open.  A comment is closed by its mark wherever
that stands, a string by a quote that no backslash takes along, an interpolation by the brace that
balances its own.  The lexer fails where such a closing mark is missing and nowhere else, and what
stands in front of the fault is a text of tokens by itself.
-/

namespace LiveSheet
namespace Text

variable {t body rest : Text} {c d quote : Char} {k m : Nat}

/-- The character stands at `k`, and no backslash takes it along: those right in front of it are
even in number, so they take each other. -/
def Unescaped (t : Text) (k : Nat) (c : Char) : Prop :=
  t[k]? = some c ∧ ((t.take k).rtakeWhile (· == '\\')).length % 2 = 0

instance (t : Text) (k : Nat) (c : Char) : Decidable (t.Unescaped k c) :=
  inferInstanceAs (Decidable (_ ∧ _))

theorem length_rtakeWhile_cons (p : Char → Bool) (c : Char) (t : Text) :
    ((c :: t).rtakeWhile p).length =
      (t.rtakeWhile p).length + if (t.rtakeWhile p).length = t.length ∧ p c then 1 else 0 := by
  unfold List.rtakeWhile
  rw [List.reverse_cons, List.takeWhile_append, List.length_reverse, List.length_reverse,
    List.length_reverse]
  by_cases hall : (t.reverse.takeWhile p).length = t.length
  · rw [if_pos hall, List.length_append, List.length_reverse, hall]
    cases hc : p c <;> simp [hc]
  · simp [hall]

theorem unescaped_zero : Unescaped (c :: rest) 0 d ↔ c = d := by
  simp [Unescaped]

theorem unescaped_succ (hc : c ≠ '\\') : Unescaped (c :: rest) (k + 1) d ↔ rest.Unescaped k d := by
  unfold Unescaped
  rw [List.getElem?_cons_succ, List.take_succ_cons, length_rtakeWhile_cons,
    if_neg fun h => hc (beq_iff_eq.1 h.2), Nat.add_zero]

theorem not_unescaped_one : ¬Unescaped ('\\' :: c :: rest) 1 d := by
  rintro ⟨-, heven⟩
  exact absurd heven (by simp [length_rtakeWhile_cons])

theorem unescaped_add_two :
    Unescaped ('\\' :: c :: rest) (k + 2) d ↔ rest.Unescaped k d := by
  have hle : ((rest.take k).rtakeWhile (· == '\\')).length ≤ (rest.take k).length :=
    (List.rtakeWhile_suffix _ _).length_le
  have hparity : (('\\' :: c :: rest.take k).rtakeWhile (· == '\\')).length % 2 =
      ((rest.take k).rtakeWhile (· == '\\')).length % 2 := by
    rw [length_rtakeWhile_cons, length_rtakeWhile_cons, List.length_cons]
    split <;> split <;> simp_all <;> omega
  unfold Unescaped
  rw [List.getElem?_cons_succ, List.getElem?_cons_succ, List.take_succ_cons, List.take_succ_cons,
    hparity]

/-- No quote ends the string: in front of every quote that no backslash takes along, the line has
ended already. -/
def Unquoted (quote : Char) (body : Text) : Prop :=
  ∀ k, body.Unescaped k quote → ∃ j < k, body.Unescaped j '\n'

/-- Nothing changes for the characters behind the first `m` if those end neither the string nor
its line. -/
theorem unquoted_skip (hshift : ∀ d k, body.Unescaped (k + m) d ↔ rest.Unescaped k d)
    (hquote : ∀ k < m, ¬body.Unescaped k quote) (hbreak : ∀ k < m, ¬body.Unescaped k '\n') :
    Unquoted quote body ↔ Unquoted quote rest := by
  constructor
  · intro h k hk
    obtain ⟨j, hj, hline⟩ := h (k + m) ((hshift quote k).2 hk)
    rcases Nat.lt_or_ge j m with hlt | hge
    · exact absurd hline (hbreak j hlt)
    · obtain ⟨i, rfl⟩ := Nat.exists_eq_add_of_le' hge
      exact ⟨i, Nat.lt_of_add_lt_add_right hj, (hshift '\n' i).1 hline⟩
  · intro h k hk
    rcases Nat.lt_or_ge k m with hlt | hge
    · exact absurd hk (hquote k hlt)
    · obtain ⟨i, rfl⟩ := Nat.exists_eq_add_of_le' hge
      obtain ⟨j, hj, hline⟩ := h i ((hshift quote i).1 hk)
      exact ⟨j + m, Nat.add_lt_add_right hj m, (hshift '\n' j).2 hline⟩

theorem unquoted_nil : Unquoted quote [] := by
  intro k hk
  cases hk.1

theorem unquoted_singleton (hc : c ≠ quote) : Unquoted quote [c] := by
  intro k hk
  cases k with
  | zero => exact absurd (unescaped_zero.1 hk) hc
  | succ k => cases hk.1

theorem not_unquoted_quote : ¬Unquoted quote (quote :: rest) := by
  intro h
  obtain ⟨j, hj, -⟩ := h 0 (unescaped_zero.2 rfl)
  exact absurd hj (Nat.not_lt_zero j)

theorem unquoted_break (hquote : '\n' ≠ quote) : Unquoted quote ('\n' :: rest) := by
  intro k hk
  cases k with
  | zero => exact absurd (unescaped_zero.1 hk) hquote
  | succ k => exact ⟨0, Nat.succ_pos k, unescaped_zero.2 rfl⟩

theorem unquoted_cons (hc : c ≠ '\\') (hquote : c ≠ quote) (hbreak : c ≠ '\n') :
    Unquoted quote (c :: rest) ↔ Unquoted quote rest := by
  refine unquoted_skip (m := 1) (fun d k => unescaped_succ hc) (fun k hk => ?_) fun k hk => ?_
  · rw [Nat.lt_one_iff.1 hk, unescaped_zero]
    exact hquote
  · rw [Nat.lt_one_iff.1 hk, unescaped_zero]
    exact hbreak

theorem unquoted_backslash (hquote : quote ≠ '\\') :
    Unquoted quote ('\\' :: c :: rest) ↔ Unquoted quote rest := by
  have hfront : ∀ d, d ≠ '\\' → ∀ k < 2, ¬Unescaped ('\\' :: c :: rest) k d := by
    intro d hd k hk
    match k, hk with
    | 0, _ => exact fun h => hd (unescaped_zero.1 h).symm
    | 1, _ => exact not_unescaped_one
  exact unquoted_skip (fun d k => unescaped_add_two) (hfront quote hquote)
    (hfront '\n' (by decide))

end Text

namespace Token

variable {w t rest : Text} {c quote : Char} {cause : SyntaxFault} {tokens found : List Token}
  {n depth offset : Nat}

/-! ## Closing marks -/

theorem commentLength_eq_none_iff : commentLength n t = none ↔ ¬['*', '/'] <:+: t := by
  fun_induction commentLength n t with
  | case1 => simp
  | case2 n rest =>
    refine iff_of_false (Option.some_ne_none _) fun h => h ?_
    exact (List.prefix_append ['*', '/'] rest).isInfix
  | case3 n c rest hmark ih =>
    rw [ih, List.infix_cons_iff, not_or, and_iff_right]
    rintro ⟨after, hafter⟩
    obtain ⟨rfl, hrest⟩ := List.cons.inj hafter
    exact hmark after rfl hrest.symm

theorem quotedLength_eq_none_iff (hquote : quote ≠ '\\') :
    quotedLength quote n t = none ↔ Text.Unquoted quote t := by
  fun_induction quotedLength quote n t with
  | case1 => exact iff_of_true rfl Text.unquoted_nil
  | case2 n =>
    exact iff_of_true rfl (Text.unquoted_singleton hquote.symm)
  | case3 n c rest ih => rw [ih, Text.unquoted_backslash hquote]
  | case4 n rest => exact iff_of_false (Option.some_ne_none _) Text.not_unquoted_quote
  | case5 n rest _ _ hne => exact iff_of_true rfl (Text.unquoted_break hne)
  | case6 n c rest hlast hpair hne hbreak ih =>
    rw [ih, Text.unquoted_cons (ne_backslash hlast hpair) hne hbreak]

theorem forall_prefix_cons {P : Text → Prop} :
    (∀ run, run <+: c :: rest → P run) ↔ P [] ∧ ∀ run, run <+: rest → P (c :: run) := by
  constructor
  · intro h
    exact ⟨h [] List.nil_prefix, fun run hrun => h (c :: run) ((List.prefix_cons_inj c).2 hrun)⟩
  · rintro ⟨hnil, hcons⟩ run hrun
    rcases List.prefix_cons_iff.1 hrun with rfl | ⟨inner, rfl, hinner⟩
    · exact hnil
    · exact hcons inner hinner

theorem interpolationLength_eq_none_iff : interpolationLength depth n t = none ↔
    ∀ run, run <+: t → run.count '}' ≤ depth + run.count '{' := by
  fun_induction interpolationLength depth n t with
  | case1 => simp
  | case2 depth n rest ih =>
    rw [ih, forall_prefix_cons]
    simp [Nat.add_assoc, Nat.add_comm 1]
  | case3 n rest =>
    refine iff_of_false (Option.some_ne_none _) fun h => ?_
    exact absurd (h ['}'] (List.prefix_append ['}'] rest)) (by decide)
  | case4 n rest outer _ ih =>
    rw [ih, forall_prefix_cons]
    simp [Nat.add_right_comm outer 1]
  | case5 depth n c rest hopen hclose ih =>
    rw [ih, forall_prefix_cons]
    simp [hopen, hclose]

/-! ## Faults -/

/-- The text begins with what has to be closed, and is never closed: a comment without its mark, a
string that no quote ends on its line, or an interpolation whose brace is never balanced. -/
inductive LeftOpen : SyntaxFault → Text → Prop
  | comment {body : Text} :
      ¬['*', '/'] <:+: body → LeftOpen .unterminatedComment ('/' :: '*' :: body)
  | string {quote : Char} {body : Text} :
      quote = '"' ∨ quote = '\'' → body.Unquoted quote →
      LeftOpen .unterminatedString (quote :: body)
  | interpolation {body : Text} :
      (∀ run, run <+: body → run.count '}' ≤ run.count '{') →
      LeftOpen .unterminatedInterpolation ('#' :: '{' :: body)

/-- A scan that fails has found what is left open. -/
def Scan.Opens (t : Text) : Scan → Prop
  | .fault cause => LeftOpen cause t
  | _ => True

theorem Scan.opens_closed {kind : TokenKind} {length : Option Nat}
    (h : length = none → LeftOpen cause t) : (Scan.closed kind cause length).Opens t := by
  cases length with
  | none => exact h rfl
  | some more => trivial

theorem Scan.opens_sigil {kind : TokenKind} : (Scan.sigil kind rest).Opens t := by
  unfold Scan.sigil
  split <;> trivial

theorem scan_opens (c : Char) (rest : Text) : (scan (c :: rest)).Opens (c :: rest) := by
  unfold scan
  refine iteInduction (fun _ => trivial) fun _ => ?_
  refine iteInduction (fun _ => trivial) fun _ => ?_
  refine iteInduction (fun hmark => Scan.opens_closed fun hnone => ?_) fun _ => ?_
  · obtain ⟨rfl, hhead⟩ := hmark
    obtain ⟨body, rfl⟩ := List.head?_eq_some_iff.1 hhead
    exact .comment (commentLength_eq_none_iff.1 hnone)
  refine iteInduction (fun _ => Scan.opens_sigil) fun _ => ?_
  refine iteInduction (fun _ => Scan.opens_sigil) fun _ => ?_
  refine iteInduction (fun _ => Scan.opens_sigil) fun _ => ?_
  refine iteInduction (fun hmark => Scan.opens_closed fun hnone => ?_) fun _ => ?_
  · have hquote : c ≠ '\\' := by
      rcases hmark with rfl | rfl <;> decide
    exact .string hmark ((quotedLength_eq_none_iff hquote).1 hnone)
  refine iteInduction (fun hmark => Scan.opens_closed fun hnone => ?_) fun _ => ?_
  · obtain ⟨rfl, hhead⟩ := hmark
    obtain ⟨body, rfl⟩ := List.head?_eq_some_iff.1 hhead
    refine .interpolation fun run hrun => ?_
    have hle := interpolationLength_eq_none_iff.1 hnone run hrun
    rwa [Nat.zero_add] at hle
  split
  · trivial
  · refine iteInduction (fun _ => trivial) fun _ => ?_
    exact iteInduction (fun _ => trivial) fun _ => trivial

/-- What is cut off further on sets a token apart. -/
theorem apart_take (kind : TokenKind) (rest : Text) (n : Nat) : Apart kind rest (rest.take n) := by
  intro d hd
  cases n with
  | zero => cases hd
  | succ n =>
    rw [List.head?_take, if_neg (Nat.succ_ne_zero n)] at hd
    exact .inl hd

/-- Where the lexer fails, something is left open.  It fails nowhere before that: the text that
ends there has the tokens that were found so far. -/
theorem lexFrom_leftOpen {e : SyntaxError} (h : lexFrom offset found rest = .error e)
    (hw : w.drop offset = rest) : offset ≤ e.offset ∧ LeftOpen e.fault (w.drop e.offset) ∧
      ∃ tokens, lexFrom offset found (rest.take (e.offset - offset)) = .ok tokens := by
  fun_induction lexFrom offset found rest with
  | case1 => cases h
  | case2 => cases h
  | case3 offset found c rest hscan ih =>
    obtain ⟨hle, hopen, tokens, hfront⟩ := ih h (of_drop_eq_cons hw).2.2
    have hcut : e.offset - offset = e.offset - (offset + 1) + 1 := by omega
    refine ⟨Nat.le_of_succ_le hle, hopen, tokens, ?_⟩
    rw [hcut, List.take_succ_cons, lexFrom, scan_eq_blank_iff.2 (scan_eq_blank_iff.1 hscan)]
    exact hfront
  | case4 offset found c rest kind more hscan ih =>
    obtain ⟨hstop, -, -, -, hdrop⟩ := lexFrom_step hw hscan
    obtain ⟨hle, hopen, tokens, hfront⟩ := ih h hdrop
    have hcut : e.offset - offset = more + (e.offset - (offset + 1 + more)) + 1 := by omega
    refine ⟨by omega, hopen, tokens, ?_⟩
    rw [hcut, List.take_succ_cons, List.take_add, lexFrom_kept hscan (apart_take _ _ _)]
    exact hfront
  | case5 offset found c rest cause hscan =>
    cases h
    have hopen := scan_opens c rest
    rw [hscan] at hopen
    refine ⟨Nat.le_refl offset, hw.symm ▸ hopen, found.reverse, ?_⟩
    rw [Nat.sub_self, List.take_zero, lexFrom]

/-- A text that is cut into tokens is tiled by them: they are in order and apart, none is empty or
begins with a blank, each carries what stands where it lies, and there are only blanks outside.  A
text that is not has something left open at the offset of the error, and tokens up to there. -/
theorem lex_lossless (t : Text) :
    (∀ tokens, lex t = .ok tokens → t.Tiling 0 t.length (tokens.map span) ∧
      ∀ tok ∈ tokens, tok.StandsIn t ∧ ∃ c, t[tok.start]? = some c ∧ Text.isBlank c = false) ∧
    ∀ e, lex t = .error e →
      LeftOpen e.fault (t.drop e.offset) ∧ ∃ tokens, lex (t.take e.offset) = .ok tokens := by
  constructor
  · intro tokens h
    obtain ⟨htiling, hstands⟩ := lex_tiling h
    refine ⟨htiling, fun tok htok => ⟨(hstands tok htok).1, ?_⟩⟩
    obtain ⟨c, rest, more, hdrop, hscan, -⟩ := lex_found h tok htok
    exact ⟨c, (of_drop_eq_cons hdrop).2.1, scan_not_blank hscan⟩
  · intro e h
    obtain ⟨-, hopen, hfront⟩ := lexFrom_leftOpen h List.drop_zero
    exact ⟨hopen, hfront⟩

/-- Of two quotes, the first one is taken along by a backslash.  The line ends in front of the
second one in the first text, and in the second text another backslash takes the line feed along. -/
theorem lex_lossless_quotes :
    let t : Text := "a \"\\\"\n\"".toList
    let u : Text := "a \"\\\"\\\n\"".toList
    (lex t = .error ⟨.unterminatedString, 2⟩ ∧ LeftOpen .unterminatedString (t.drop 2) ∧
      ∃ tokens, lex (t.take 2) = .ok tokens) ∧
    ∃ tokens, lex u = .ok tokens ∧ u.Tiling 0 u.length (tokens.map span) ∧
      ⟨.string, 2, u.drop 2⟩ ∈ tokens := by
  intro t u
  obtain ⟨-, hfails⟩ := lex_lossless t
  obtain ⟨hlexes, -⟩ := lex_lossless u
  have hopen : lex t = .error ⟨.unterminatedString, 2⟩ := eq_error_of_failure? (by decide +kernel)
  obtain ⟨tokens, hlex, hmem⟩ := exists_ok (r := lex u)
    (p := (·.contains ⟨.string, 2, u.drop 2⟩)) (by decide +kernel)
  exact ⟨⟨hopen, hfails _ hopen⟩, tokens, hlex, (hlexes tokens hlex).1,
    List.contains_iff_mem.1 hmem⟩

end Token
end LiveSheet
