import LiveSheet.Proofs.Layout
import LiveSheet.Proofs.Moves
import LiveSheet.Proofs.Reading

/-!
# Joining texts

Nothing in a text whose last token closes a block sees what comes after it.  So if more text is
added to a sheet that ends like this, then the items of what was added follow those that were
there, and an error in it stays the same, only further on.
-/

namespace LiveSheet

/-! ## Scanning -/

namespace Token

variable {rest more : Text} {c : Char}

/-- A token that ends before `n` characters are over is there in both scans. -/
def Scan.Settled (n : Nat) (s s' : Scan) : Prop :=
  ∀ kind length, s = .token kind length → length < n → s' = .token kind length

theorem Scan.settled_of_eq {n : Nat} {s s' : Scan} (h : s = s') : Settled n s s' :=
  fun _ _ hs _ => h ▸ hs

theorem Scan.settled_ite {n : Nat} {p : Prop} [Decidable p] {s s' u u' : Scan}
    (hs : p → Settled n s s') (hu : ¬p → Settled n u u') :
    Settled n (if p then s else u) (if p then s' else u') := by
  by_cases hp : p
  · rw [if_pos hp, if_pos hp]
    exact hs hp
  · rw [if_neg hp, if_neg hp]
    exact hu hp

theorem Scan.settled_closed {n : Nat} {kind : TokenKind} {cause : SyntaxFault}
    {length length' : Option Nat} (h : ∀ more, length = some more → length' = some more) :
    Settled n (.closed kind cause length) (.closed kind cause length') := by
  intro kind' found hs _
  cases length with
  | none => cases hs
  | some more =>
    rw [h more rfl]
    exact hs

theorem takeWhile_append_of_lt {p : Char → Bool}
    (h : (rest.takeWhile p).length < rest.length) (more : Text) :
    (rest ++ more).takeWhile p = rest.takeWhile p := by
  rw [List.takeWhile_append, if_neg (Nat.ne_of_lt h)]

theorem Scan.settled_takeWhile (kind : TokenKind) (p : Char → Bool) (rest more : Text) :
    Settled rest.length (.token kind (rest.takeWhile p).length)
      (.token kind ((rest ++ more).takeWhile p).length) := by
  intro kind' length hs hlt
  cases hs
  rw [takeWhile_append_of_lt hlt]

theorem Scan.settled_sigil (kind : TokenKind) (rest more : Text) :
    Settled rest.length (.sigil kind rest) (.sigil kind (rest ++ more)) := by
  intro kind' length hs hlt
  have htaken : (rest.takeWhile Text.isWordChar).length = length := by
    unfold sigil at hs
    split at hs
    · rename_i hzero
      cases hs
      exact hzero
    · cases hs
      rfl
  unfold sigil
  rw [takeWhile_append_of_lt (htaken ▸ hlt)]
  exact hs

theorem commentLength_append {n length : Nat} (h : commentLength n rest = some length)
    (more : Text) : commentLength n (rest ++ more) = some length := by
  fun_induction commentLength n rest with
  | case1 => cases h
  | case2 => exact h
  | case3 n c rest hmark ih =>
    rw [List.cons_append, commentLength]
    · exact ih h
    · intro after hc hafter
      cases rest with
      | nil => cases h
      | cons d rest =>
        obtain ⟨rfl, -⟩ := List.cons.inj hafter
        exact hmark rest hc rfl

theorem quotedLength_cons (hc : c ≠ '\\') (quote : Char) (n : Nat) (rest : Text) :
    quotedLength quote n (c :: rest) =
      if c = quote then some (n + 1)
      else if c = '\n' then none
      else quotedLength quote (n + 1) rest := by
  rw [quotedLength]
  · exact fun hslash => absurd hslash hc
  · exact fun _ _ hslash => absurd hslash hc

/-- The first two equations of `quotedLength` are about a backslash, at the end or before another
character. -/
theorem ne_backslash (hlast : c = '\\' → rest = [] → False)
    (hpair : ∀ d after, c = '\\' → rest = d :: after → False) : c ≠ '\\' := by
  intro hslash
  cases rest with
  | nil => exact hlast hslash rfl
  | cons d after => exact hpair d after hslash rfl

theorem quotedLength_append {quote : Char} {n length : Nat}
    (h : quotedLength quote n rest = some length) (more : Text) :
    quotedLength quote n (rest ++ more) = some length := by
  fun_induction quotedLength quote n rest with
  | case1 => cases h
  | case2 => cases h
  | case3 n c rest ih => exact ih h
  | case4 n rest hlast hpair =>
    rw [List.cons_append, quotedLength_cons (ne_backslash hlast hpair), if_pos rfl]
    exact h
  | case5 => cases h
  | case6 n c rest hlast hpair hquote hbreak ih =>
    rw [List.cons_append, quotedLength_cons (ne_backslash hlast hpair), if_neg hquote,
      if_neg hbreak]
    exact ih h

theorem interpolationLength_append {depth n length : Nat}
    (h : interpolationLength depth n rest = some length) (more : Text) :
    interpolationLength depth n (rest ++ more) = some length := by
  fun_induction interpolationLength depth n rest with
  | case1 => cases h
  | case2 depth n rest ih =>
    rw [List.cons_append, interpolationLength.eq_def]
    exact ih h
  | case3 n rest =>
    rw [List.cons_append, interpolationLength.eq_def]
    exact h
  | case4 n rest outer _ ih =>
    rw [List.cons_append, interpolationLength.eq_def]
    exact ih h
  | case5 depth n c rest hopen hclose ih =>
    rw [List.cons_append, interpolationLength.eq_def]
    simp only [if_neg hopen, if_neg hclose]
    exact ih h

/-- A scan that finds a token with characters left behind it finds the same token if there are
more of them. -/
theorem scan_settled (c : Char) (rest more : Text) :
    (scan (c :: rest)).Settled rest.length (scan (c :: (rest ++ more))) := by
  cases rest with
  | nil => exact fun _ _ _ hlt => absurd hlt (Nat.not_lt_zero _)
  | cons d after =>
    unfold scan
    refine Scan.settled_ite (fun _ => Scan.settled_of_eq rfl) fun _ => ?_
    refine Scan.settled_ite (fun _ => Scan.settled_takeWhile _ _ _ _) fun _ => ?_
    refine Scan.settled_ite
      (fun _ => Scan.settled_closed fun _ h => commentLength_append h more) fun _ => ?_
    refine Scan.settled_ite (fun _ => Scan.settled_sigil _ _ _) fun _ => ?_
    refine Scan.settled_ite (fun _ => Scan.settled_sigil _ _ _) fun _ => ?_
    refine Scan.settled_ite (fun _ => Scan.settled_sigil _ _ _) fun _ => ?_
    refine Scan.settled_ite
      (fun _ => Scan.settled_closed fun _ h => quotedLength_append h more) fun _ => ?_
    refine Scan.settled_ite
      (fun _ => Scan.settled_closed fun _ h => interpolationLength_append h more) fun _ => ?_
    cases punctuation? c with
    | some kind => exact Scan.settled_of_eq rfl
    | none =>
      refine Scan.settled_ite (fun _ => Scan.settled_takeWhile _ _ _ _) fun _ => ?_
      exact Scan.settled_ite (fun _ => Scan.settled_takeWhile _ _ _ _)
        fun _ => Scan.settled_of_eq rfl

theorem scan_closeBrace (rest : Text) : scan ('\x7d' :: rest) = .token .closeBrace 0 := by
  simp [scan, Text.isBlank, punctuation?]

/-! ## Lexing -/

/-- The last token, if there is one, closes a block. -/
def EndsClosed (ts : List Token) : Prop := ∀ t ∈ ts.getLast?, t.kind = .closeBrace

/-- After a text whose last token closes a block, the lexer goes on with the next one as if
this were the first. -/
theorem lexFrom_append {offset : Nat} {found tokens : List Token}
    (h : lexFrom offset found rest = .ok tokens) (hends : EndsClosed tokens) (more : Text) :
    lexFrom offset found (rest ++ more) =
      lexFrom (offset + rest.length) tokens.reverse more := by
  fun_induction lexFrom offset found rest with
  | case1 offset found =>
    cases h
    rw [List.reverse_reverse]
    rfl
  | case2 offset found c rest hscan =>
    have hfits := scan_fits c rest
    rw [hscan] at hfits
    exact hfits.elim
  | case3 offset found c rest hscan ih =>
    rw [List.cons_append, lexFrom, scan_eq_blank_iff.2 (scan_eq_blank_iff.1 hscan)]
    dsimp only
    rw [ih h, List.length_cons, Nat.add_assoc, Nat.add_comm 1]
  | case4 offset found c rest kind length hscan ih =>
    have hfits := scan_fits c rest
    rw [hscan] at hfits
    have hle : length ≤ rest.length := hfits.1
    have hsame : scan (c :: (rest ++ more)) = .token kind length := by
      rcases Nat.lt_or_eq_of_le hle with hlt | heq
      · exact scan_settled c rest more kind length hscan hlt
      · -- the text ends with this token, so that it is the last one and a closing brace
        rw [heq, List.drop_length, lexFrom] at h
        cases h
        have hkind : kind = .closeBrace := hends _ (by rw [List.getLast?_reverse]; rfl)
        obtain ⟨rfl, rfl⟩ := hfits.2.2 hkind
        rw [scan_closeBrace, hkind]
    rw [List.cons_append, lexFrom, hsame]
    dsimp only
    rw [List.take_append_of_le_length hle, List.drop_append_of_le_length hle, ih h,
      List.length_cons, List.length_drop]
    congr 1
    omega
  | case5 => cases h

end Token

/-! ## Shifting -/

/-- Everything goes further on by `n`. -/
def Move.shift (n : Nat) : Move where
  start := (· + n)
  stop := (· + n)
  start_strictMono := fun _ _ h => Nat.add_lt_add_right h n
  stop_mono := fun _ _ h => Nat.add_le_add_right h n

def Span.shift (n : Nat) (s : Span) : Span :=
  ⟨s.start + n, s.stop + n, Nat.add_le_add_right s.start_le_stop n⟩

namespace Item

mutual
/-- An item all of whose spans are `n` further on. -/
def shift (n : Nat) : Item → Item
  | leaf kind span => leaf kind (span.shift n)
  | comment style span => comment style (span.shift n)
  | node kind span children => node kind (span.shift n) (shiftAll n children)

def shiftAll (n : Nat) : List Item → List Item
  | [] => []
  | i :: rest => shift n i :: shiftAll n rest
end

mutual
theorem Moves.eq_shift {n : Nat} : {i i' : Item} → i.Moves (.shift n) i' → i' = i.shift n
  | leaf kind s, _, .leaf hs => congrArg (leaf kind) (Span.ext_ends hs.start hs.stop)
  | comment style s, _, .comment hs => congrArg (comment style) (Span.ext_ends hs.start hs.stop)
  | node kind s children, _, .node hs hchildren => by
    rw [shift, eq_shiftAll hchildren]
    exact congrArg (node kind · _) (Span.ext_ends hs.start hs.stop)

theorem eq_shiftAll {n : Nat} : {items items' : List Item} →
    List.Forall₂ (Moves (.shift n)) items items' → items' = shiftAll n items
  | [], _, .nil => rfl
  | i :: rest, _, .cons hi hrest => by
    rw [shiftAll, ← hi.eq_shift, ← eq_shiftAll hrest]
end

end Item

/-- What the lexer finds in a text does not depend on what stands before it, but for the place:
if everything from `offset` on goes further on by `n`, then so does all that is found there. -/
theorem Token.lexFrom_moves {m : Move} {n : Nat} (offset : Nat)
    (hstart : ∀ x, offset ≤ x → m.start x = x + n)
    (hstop : ∀ x, offset < x → m.stop x = x + n) {found found' : List Token}
    (hfound : List.Forall₂ (Moves m) found found') (old : List Token) (t : Text) :
    Agree m
      (fun ts ts' => ∃ moved, List.Forall₂ (Moves m) ts moved ∧ ts' = old.reverse ++ moved)
      (lexFrom offset found t) (lexFrom (offset + n) (found' ++ old) t) := by
  fun_induction lexFrom offset found t generalizing found' with
  | case1 offset found =>
    rw [lexFrom, List.reverse_append]
    exact .ok ⟨_, List.forall₂_reverse_iff.2 hfound, rfl⟩
  | case2 offset found c rest hscan =>
    rw [lexFrom, hscan, List.reverse_append]
    exact .ok ⟨_, List.forall₂_reverse_iff.2 hfound, rfl⟩
  | case3 offset found c rest hscan ih =>
    rw [lexFrom, hscan]
    dsimp only
    rw [Nat.add_right_comm offset n 1]
    exact ih (fun x hx => hstart x (Nat.le_of_succ_le hx))
      (fun x hx => hstop x (Nat.lt_of_succ_lt hx)) hfound
  | case4 offset found c rest kind length hscan ih =>
    rw [lexFrom, hscan]
    dsimp only
    rw [Nat.add_right_comm offset n 1, Nat.add_right_comm _ n length]
    have hlater : offset ≤ offset + 1 + length := by omega
    have htoken : Moves m ⟨kind, offset, c :: rest.take length⟩
        ⟨kind, offset + n, c :: rest.take length⟩ := by
      refine ⟨rfl, rfl, (hstart offset (Nat.le_refl _)).symm, ?_⟩
      have hlexeme : offset < offset + (c :: rest.take length).length := by
        rw [List.length_cons]
        omega
      exact (Nat.add_right_comm offset n _).trans (hstop _ hlexeme).symm
    exact ih (fun x hx => hstart x (Nat.le_trans hlater hx))
      (fun x hx => hstop x (Nat.lt_of_le_of_lt hlater hx)) (.cons htoken hfound)
  | case5 offset found c rest fault hscan =>
    rw [lexFrom, hscan]
    dsimp only
    rw [← hstart offset (Nat.le_refl _)]
    exact .error fault offset

theorem Token.EndsClosed.of_append (run : List Token) {rest : List Token}
    (h : EndsClosed (run ++ rest)) : EndsClosed rest :=
  fun t ht => h t (List.mem_getLast?_append_of_mem_getLast? ht)

theorem Token.lex_append {a : Text} {tokens : List Token} (h : lex a = .ok tokens)
    (hends : EndsClosed tokens) (b : Text) :
    Agree (.shift a.length)
      (fun ts all => ∃ moved, List.Forall₂ (Moves (.shift a.length)) ts moved ∧
        all = tokens ++ moved) (lex b) (lex (a ++ b)) := by
  have hjoined : lex (a ++ b) = lexFrom (0 + a.length) ([] ++ tokens.reverse) b :=
    lexFrom_append h hends b
  rw [hjoined]
  have hshift := lexFrom_moves (m := .shift a.length) 0 (fun _ _ => rfl) (fun _ _ => rfl) .nil
    tokens.reverse b
  rw [List.reverse_reverse] at hshift
  exact hshift

/-- A token that is no closing brace is not the last one. -/
theorem Token.EndsClosed.tail_ne_nil {t : Token} {rest : List Token} (h : EndsClosed (t :: rest))
    (ht : t.kind ≠ .closeBrace) : rest ≠ [] := by
  rintro rfl
  exact ht (h t rfl)

theorem Token.EndsClosed.tail {t : Token} {rest : List Token} (h : EndsClosed (t :: rest)) :
    EndsClosed rest :=
  of_append [t] h

namespace Grammar

open Token (EndsClosed)

variable {ts rest : List Token} {t : Token} {depth : Nat} {covered : Option Span}

theorem Terminator.ne_closeBrace {kind : TokenKind} (h : of? depth kind = none) :
    kind ≠ .closeBrace := by
  rintro rfl
  cases h

/-! ## Productions -/

def Prelude.append (p : Prelude) (more : List Token) : Prelude := { p with rest := p.rest ++ more }

theorem preludeFrom_append {comments : List Item} (h : EndsClosed ts) (hne : ts ≠ [])
    (more : List Token) :
    preludeFrom depth comments covered (ts ++ more) =
      (preludeFrom depth comments covered ts).append more ∧
      (preludeFrom depth comments covered ts).rest ≠ [] := by
  fun_induction preludeFrom depth comments covered ts with
  | case1 => exact absurd rfl hne
  | case2 depth comments covered t rest terminator hterminator =>
    rw [List.cons_append, preludeFrom, hterminator]
    exact ⟨rfl, List.cons_ne_nil _ _⟩
  | case3 depth comments covered t rest hterminator comment hcomment ih =>
    rw [List.cons_append, preludeFrom, hterminator, hcomment]
    exact ih h.tail (h.tail_ne_nil (Terminator.ne_closeBrace hterminator))
  | case4 depth comments covered t rest hterminator hcomment ih =>
    rw [List.cons_append, preludeFrom, hterminator, hcomment]
    exact ih h.tail (h.tail_ne_nil (Terminator.ne_closeBrace hterminator))

theorem prelude_append (h : EndsClosed ts) (hne : ts ≠ []) (more : List Token) :
    prelude (ts ++ more) = (prelude ts).append more ∧ (prelude ts).rest ≠ [] :=
  preludeFrom_append h hne more

theorem lookaheadFrom_append {n : Nat} {colon : Option Nat} (h : EndsClosed ts) (hne : ts ≠ [])
    (more : List Token) :
    lookaheadFrom depth n colon (ts ++ more) = lookaheadFrom depth n colon ts := by
  fun_induction lookaheadFrom depth n colon ts with
  | case1 => exact absurd rfl hne
  | case2 depth n colon t rest terminator hterminator =>
    rw [List.cons_append, lookaheadFrom, hterminator]
  | case3 depth n colon t rest hterminator here ih =>
    rw [List.cons_append, lookaheadFrom, hterminator]
    exact ih h.tail (h.tail_ne_nil (Terminator.ne_closeBrace hterminator))

theorem value_finish_append (parts : List Item) (covered : Option Span) (t : Token)
    (rest more : List Token) :
    Value.finish parts covered (t :: rest ++ more) =
      ⟨(Value.finish parts covered (t :: rest)).children,
        (Value.finish parts covered (t :: rest)).rest ++ more⟩ := by
  rw [List.cons_append, Value.finish, Value.finish]
  split <;> rfl

/-- A value ends at the closing brace at the latest. -/
theorem valueFrom_append {parts : List Item} (h : EndsClosed ts) (hne : ts ≠ [])
    (more : List Token) :
    ∃ v, valueFrom depth parts covered ts = .ok v ∧
      valueFrom depth parts covered (ts ++ more) = .ok ⟨v.children, v.rest ++ more⟩ := by
  fun_induction valueFrom depth parts covered ts with
  | case1 => exact absurd rfl hne
  | case2 => exact absurd rfl hne
  | case3 depth parts covered t rest terminator hterminator =>
    rw [List.cons_append, valueFrom, hterminator]
    exact ⟨_, rfl, congrArg Except.ok (value_finish_append parts covered t rest more)⟩
  | case4 depth parts covered t rest hterminator comment hcomment ih =>
    rw [List.cons_append, valueFrom, hterminator, hcomment]
    exact ih h.tail (h.tail_ne_nil (Terminator.ne_closeBrace hterminator))
  | case5 depth parts covered t rest hterminator hcomment hflag ih =>
    rw [List.cons_append, valueFrom, hterminator, hcomment]
    dsimp only
    rw [if_pos hflag]
    exact ih h.tail (h.tail_ne_nil (Terminator.ne_closeBrace hterminator))
  | case6 depth parts covered t rest hterminator hcomment hflag ih =>
    rw [List.cons_append, valueFrom, hterminator, hcomment]
    dsimp only
    rw [if_neg hflag]
    exact ih h.tail (h.tail_ne_nil (Terminator.ne_closeBrace hterminator))

theorem parenthesesFrom_append {opened : Nat} {span : Span} {result : Span × List Token}
    (hr : parenthesesFrom opened depth span ts = .ok result) (h : EndsClosed ts)
    (more : List Token) :
    parenthesesFrom opened depth span (ts ++ more) = .ok (result.1, result.2 ++ more) ∧
      result.2 ≠ [] := by
  fun_induction parenthesesFrom opened depth span ts with
  | case1 => cases hr
  | case3 span t rest hkind =>
    cases hr
    rw [List.cons_append, parenthesesFrom.eq_def]
    dsimp only
    rw [hkind]
    exact ⟨rfl, h.tail_ne_nil (by rw [hkind]; decide)⟩
  | case2 depth span t rest hkind ih =>
    rw [List.cons_append, parenthesesFrom.eq_def]
    dsimp only
    rw [hkind]
    exact ih hr h.tail
  | case4 span t rest outer hkind ih =>
    rw [List.cons_append, parenthesesFrom.eq_def]
    dsimp only
    rw [hkind]
    exact ih hr h.tail
  | case5 depth span t rest hopen hclose hother ih =>
    rw [List.cons_append, parenthesesFrom.eq_5 _ _ _ _ _ hopen hclose hother]
    exact ih hr h.tail

theorem signature_append {result : List Item × List Token} (hr : signature ts = .ok result)
    (h : EndsClosed ts) (hne : ts ≠ []) (more : List Token) :
    signature (ts ++ more) = .ok (result.1, result.2 ++ more) ∧ result.2 ≠ [] := by
  cases ts with
  | nil => exact absurd rfl hne
  | cons name rest =>
    unfold signature at hr ⊢
    dsimp only [List.cons_append] at hr ⊢
    by_cases hname : name.kind = .identifier
    · rw [if_pos hname] at hr ⊢
      have hrest : rest ≠ [] := h.tail_ne_nil fun hclose => nomatch hname.symm.trans hclose
      cases rest with
      | nil => exact absurd rfl hrest
      | cons paren inner =>
        dsimp only [List.cons_append] at hr ⊢
        by_cases hparen : paren.kind = .openParen
        · rw [if_pos hparen] at hr ⊢
          cases htaken : parenthesesFrom paren.start 0 paren.span inner with
          | error e =>
            rw [htaken] at hr
            cases hr
          | ok taken =>
            obtain ⟨hsame, hleft⟩ := parenthesesFrom_append htaken h.tail.tail more
            rw [htaken] at hr
            cases hr
            rw [hsame]
            exact ⟨rfl, hleft⟩
        · rw [if_neg hparen] at hr ⊢
          cases hr
          exact ⟨rfl, hrest⟩
    · rw [if_neg hname] at hr ⊢
      cases hr
      exact ⟨rfl, hne⟩

/-! ## Statements -/

def Statement.append (more : List Token) : Statement → Statement
  | .item i rest => .item i (rest ++ more)
  | .header kind head brace rest => .header kind head brace (rest ++ more)

theorem atRuleTail_append (head : List Item) (h : EndsClosed ts) (hne : ts ≠ [])
    (more : List Token) : atRuleTail head (ts ++ more) = (atRuleTail head ts).append more := by
  obtain ⟨hp, hrest⟩ := prelude_append h hne more
  unfold atRuleTail
  rw [hp]
  unfold Prelude.append
  dsimp only
  generalize (prelude ts).rest = rest at hrest ⊢
  cases rest with
  | nil => exact absurd rfl hrest
  | cons t rest => cases (prelude ts).terminator <;> rfl

theorem atRule_append {keyword : Token} {s : Statement} (hs : atRule keyword ts = .ok s)
    (h : EndsClosed ts) (hne : ts ≠ []) (more : List Token) :
    atRule keyword (ts ++ more) = .ok (s.append more) := by
  unfold atRule at hs ⊢
  split at hs
  · rename_i hnames
    rw [if_pos hnames]
    cases hnamed : signature ts with
    | error e =>
      rw [hnamed] at hs
      cases hs
    | ok named =>
      obtain ⟨hsame, hrest⟩ := signature_append hnamed h hne more
      obtain ⟨run, hrun, -⟩ := signature_form hnames hnamed
      have hends : EndsClosed named.2 := Token.EndsClosed.of_append run (hrun ▸ h)
      rw [hnamed] at hs
      cases hs
      rw [hsame]
      exact congrArg Except.ok (atRuleTail_append _ hends hrest more)
  · rename_i hnames
    rw [if_neg hnames]
    cases hs
    exact congrArg Except.ok (atRuleTail_append _ h hne more)

theorem unknown_append {p : Prelude} (hrest : p.rest ≠ []) (more : List Token) :
    unknown (p.append more) = (unknown p).append more := by
  obtain ⟨comments, covered, terminator, rest⟩ := p
  cases rest with
  | nil => exact absurd rfl hrest
  | cons t rest => cases terminator <;> cases comments <;> rfl

theorem rule_append (h : EndsClosed ts) (hne : ts ≠ []) (more : List Token) :
    rule (ts ++ more) = (rule ts).append more := by
  obtain ⟨hp, hrest⟩ := prelude_append h hne more
  have hunknown := unknown_append hrest more
  unfold rule
  rw [hp]
  dsimp only
  rw [hunknown]
  unfold Prelude.append
  dsimp only
  generalize (prelude ts).rest = rest at hrest ⊢
  cases rest with
  | nil => exact absurd rfl hrest
  | cons t rest => cases (prelude ts).terminator <;> rfl

theorem value_append {v : Value} (hv : value ts = .ok v) (h : EndsClosed ts) (hne : ts ≠ [])
    (more : List Token) : value (ts ++ more) = .ok ⟨v.children, v.rest ++ more⟩ := by
  obtain ⟨v', hv', hsame⟩ : ∃ v', value ts = .ok v' ∧
      value (ts ++ more) = .ok ⟨v'.children, v'.rest ++ more⟩ := valueFrom_append h hne more
  cases hv.symm.trans hv'
  exact hsame

theorem propertyDeclaration_append {name after : List Token} {colon : Token} {s : Statement}
    (hs : propertyDeclaration name (colon :: after) = .ok s) (h : EndsClosed after)
    (hne : after ≠ []) (more : List Token) :
    propertyDeclaration name (colon :: (after ++ more)) = .ok (s.append more) := by
  unfold propertyDeclaration at hs ⊢
  dsimp only at hs ⊢
  cases hv : value after with
  | error e =>
    rw [hv] at hs
    cases hs
  | ok v =>
    rw [hv] at hs
    cases hs
    rw [value_append hv h hne more]
    rfl

theorem ruleOrDeclaration_append {s : Statement} (hs : ruleOrDeclaration ts = .ok s)
    (h : EndsClosed ts) (hne : ts ≠ []) (more : List Token) :
    ruleOrDeclaration (ts ++ more) = .ok (s.append more) := by
  have hsame : lookahead (ts ++ more) = lookahead ts := lookaheadFrom_append h hne more
  unfold ruleOrDeclaration at hs ⊢
  dsimp only at hs ⊢
  rw [hsame]
  split at hs
  · rename_i n hcolon
    split at hs
    · rename_i hblock
      cases hs
      rw [if_pos hblock, rule_append h hne more]
      rfl
    · rename_i hblock
      obtain ⟨c, after, hdrop, hc, -⟩ := lookahead_colon hcolon
      have hends : EndsClosed (c :: after) :=
        Token.EndsClosed.of_append (ts.take (n + 1)) (by rwa [← hdrop, List.take_append_drop])
      have hle : n + 1 ≤ ts.length := by
        have hlength := congrArg List.length hdrop
        rw [List.length_drop, List.length_cons] at hlength
        omega
      rw [hdrop] at hs
      rw [if_neg hblock, List.take_append_of_le_length hle, List.drop_append_of_le_length hle,
        hdrop]
      exact propertyDeclaration_append hs hends.tail
        (hends.tail_ne_nil fun hclose => nomatch hc.symm.trans hclose) more
  · cases hs
    rw [rule_append h hne more]
    rfl

theorem variableDeclaration_append {name colon : Token} {s : Statement}
    (hs : variableDeclaration name colon ts = .ok s) (h : EndsClosed ts) (hne : ts ≠ [])
    (more : List Token) :
    variableDeclaration name colon (ts ++ more) = .ok (s.append more) := by
  unfold variableDeclaration at hs ⊢
  cases hv : value ts with
  | error e =>
    rw [hv] at hs
    cases hs
  | ok v =>
    rw [hv] at hs
    cases hs
    rw [value_append hv h hne more]
    rfl

theorem statement_append {s : Statement} (hs : statement t rest = .ok s)
    (h : EndsClosed (t :: rest)) (hclose : t.kind ≠ .closeBrace) (more : List Token) :
    statement t (rest ++ more) = .ok (s.append more) := by
  have hne := h.tail_ne_nil hclose
  have hother := fun hs => ruleOrDeclaration_append (s := s) hs h (List.cons_ne_nil _ _) more
  cases rest with
  | nil => exact absurd rfl hne
  | cons next after =>
    unfold statement at hs ⊢
    cases hkind : t.kind <;> rw [hkind] at hs
    case atKeyword => exact atRule_append hs h.tail hne more
    case «variable» =>
      dsimp only [List.cons_append] at hs ⊢
      by_cases hcolon : next.kind = .colon
      · rw [if_pos hcolon] at hs ⊢
        exact variableDeclaration_append hs h.tail.tail
          (h.tail.tail_ne_nil fun hnext => nomatch hcolon.symm.trans hnext) more
      · rw [if_neg hcolon] at hs ⊢
        exact hother hs
    all_goals exact hother hs

/-! ## Readings -/

namespace Reading

def append (r : Reading) (more : List Token) : Reading := { r with rest := r.rest ++ more }

variable {r next : Reading}

theorem step_append (hstep : r.step = .more next) (h : EndsClosed r.rest) (more : List Token) :
    (r.append more).step = .more (next.append more) := by
  obtain ⟨blocks, items, rest⟩ := r
  cases rest with
  | nil =>
    cases blocks <;> cases hstep
  | cons t rest =>
    unfold step append at *
    dsimp only [List.cons_append] at hstep ⊢
    cases hcomment : t.comment? with
    | some comment =>
      rw [hcomment] at hstep
      cases hstep
      rfl
    | none =>
      rw [hcomment] at hstep
      dsimp only at hstep ⊢
      by_cases hclose : t.kind = .closeBrace
      · rw [if_pos hclose] at hstep ⊢
        cases blocks with
        | nil => cases hstep
        | cons b outer =>
          cases hstep
          rfl
      · rw [if_neg hclose] at hstep ⊢
        by_cases hmark : t.kind = .semicolon
        · rw [if_pos hmark] at hstep ⊢
          cases hstep
          rfl
        · rw [if_neg hmark] at hstep ⊢
          cases hs : statement t rest with
          | error e =>
            rw [hs] at hstep
            cases hstep
          | ok s =>
            rw [statement_append hs h hclose more]
            rw [hs] at hstep
            cases s with
            | item i rest =>
              cases hstep
              rfl
            | header kind head brace rest =>
              dsimp only [Statement.append, openBlock] at hstep ⊢
              split at hstep
              · cases hstep
              · rename_i hroom
                cases hstep
                rw [if_neg hroom]

theorem Next.endsClosed (hnext : r.Next next) (h : EndsClosed r.rest) : EndsClosed next.rest := by
  cases hnext with
  | item hmade =>
    obtain ⟨run, hrun, -⟩ := hmade.covers
    exact Token.EndsClosed.of_append run (hrun ▸ h)
  | opened _ _ _ hmade =>
    obtain ⟨run, hrun, -⟩ := hmade.covers
    exact (Token.EndsClosed.of_append run (hrun ▸ h)).tail
  | closed _ _ hrest => exact (hrest ▸ h).tail

/-- A reading that comes to an end with the tokens that it has goes on from there if there are
more of them. -/
theorem run_append {items : List Item} (hrun : r.run = .ok items) (h : EndsClosed r.rest)
    (more : List Token) : (r.append more).run = run ⟨[], items.reverse, more⟩ := by
  fun_induction Reading.run r with
  | case1 r items' hstep =>
    cases hrun
    rw [finished_of_step hstep]
    rfl
  | case2 => cases hrun
  | case3 r next hstep ih =>
    rw [Reading.run_eq, step_append hstep h more]
    exact ih hrun ((next_of_step hstep).endsClosed h)

end Reading

theorem read_append {tokens ts moved : List Token} {items : List Item} {m : Move}
    (hread : read tokens = .ok items) (hends : EndsClosed tokens)
    (hmoved : List.Forall₂ (Token.Moves m) ts moved) :
    Agree m
      (fun later all => ∃ moved, List.Forall₂ (Item.Moves m) later moved ∧ all = items ++ moved)
      (read ts) (read (tokens ++ moved)) := by
  have hrun : read (tokens ++ moved) = Reading.run ⟨[], [] ++ items.reverse, moved⟩ :=
    Reading.run_append hread hends moved
  have hstart : (Reading.start ts).Moves m items.reverse ⟨[], [] ++ items.reverse, moved⟩ :=
    ⟨.top .nil, hmoved⟩
  have hagree := hstart.run
  rw [List.reverse_reverse, ← hrun] at hagree
  exact hagree

/-- Text that is added to a sheet whose last token closes a block is read as if it stood alone.
Its items follow those of the sheet, with all their spans as much further on as the sheet is
long, and so does the offset of an error in it. -/
theorem parse_append (a b : Text) (items : List Item) (tokens : List Token)
    (hparse : parse a = .ok items) (hlex : Token.lex a = .ok tokens)
    (hlast : tokens.getLast?.map Token.kind = some .closeBrace) :
    parse (a ++ b) =
      match parse b with
      | .ok later => .ok (items ++ Item.shiftAll a.length later)
      | .error e => .error ⟨e.fault, e.offset + a.length⟩ := by
  have hends : EndsClosed tokens := by
    intro t ht
    rw [Option.mem_def.1 ht] at hlast
    exact Option.some.inj hlast
  have hread : read tokens = .ok items := by
    rw [parse, hlex] at hparse
    exact hparse
  have hall : Agree (.shift a.length)
      (fun later all => ∃ moved, List.Forall₂ (Item.Moves (.shift a.length)) later moved ∧
        all = items ++ moved) (parse b) (parse (a ++ b)) := by
    refine (Token.lex_append hlex hends b).bind ?_
    rintro ts all ⟨moved, hmoved, rfl⟩
    exact read_append hread hends hmoved
  generalize parse b = result at hall ⊢
  generalize parse (a ++ b) = result' at hall ⊢
  cases hall with
  | ok hmoved =>
    obtain ⟨moved, hmoved, rfl⟩ := hmoved
    rw [Item.eq_shiftAll hmoved]
  | error fault offset => rfl

/-- A rule with a blank behind its brace, and after it a declaration, or a rule that is left
open. -/
theorem parse_append_rule :
    let a := "a\x7bb:c\x7d ".toList
    ∃ items tokens, parse a = .ok items ∧ Token.lex a = .ok tokens ∧
      tokens.getLast?.map Token.kind = some .closeBrace ∧
      (∃ later, parse "d:1;".toList = .ok later ∧
        parse (a ++ "d:1;".toList) = .ok (items ++ Item.shiftAll 7 later)) ∧
      parse (a ++ "d\x7b".toList) = .error ⟨.unclosedBlock, 8⟩ := by
  intro a
  have hread : (parse a).toOption.isSome = true := by decide +kernel
  have hclosed : (Token.lex a).toOption.bind (·.getLast?.map Token.kind) = some .closeBrace := by
    decide +kernel
  have hlater : (parse "d:1;".toList).toOption.isSome = true := by decide +kernel
  have hopen : parse "d\x7b".toList = .error ⟨.unclosedBlock, 1⟩ := by
    have herror : (match parse "d\x7b".toList with
        | .ok _ => none
        | .error e => some e) = some ⟨.unclosedBlock, 1⟩ := by decide +kernel
    cases hparse : parse "d\x7b".toList with
    | ok _ => exact nomatch hparse ▸ herror
    | error e =>
      rw [hparse] at herror
      exact congrArg Except.error (Option.some.inj herror)
  cases hparse : parse a with
  | error e => exact nomatch hparse ▸ hread
  | ok items =>
    cases hlex : Token.lex a with
    | error e => exact nomatch hlex ▸ hclosed
    | ok tokens =>
      have hlast : tokens.getLast?.map Token.kind = some .closeBrace := by
        rw [hlex] at hclosed
        exact hclosed
      refine ⟨items, tokens, rfl, rfl, hlast, ?_, ?_⟩
      · cases hdeclaration : parse "d:1;".toList with
        | error e => exact nomatch hdeclaration ▸ hlater
        | ok later =>
          refine ⟨later, rfl, ?_⟩
          rw [parse_append a "d:1;".toList items tokens hparse hlex hlast, hdeclaration]
          rfl
      · rw [parse_append a "d\x7b".toList items tokens hparse hlex hlast, hopen]
        rfl

end Grammar
end LiveSheet
