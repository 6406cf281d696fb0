import LiveSheet.Proofs.Trivia

/-!
# Look-aheads

A look-ahead, a prelude and the value of a declaration count the open parentheses each on its own,
and the value begins to count anew behind the colon.  Each of them is described here over tokens
that are cut in two where the first terminator stands, so that all three end there.
-/

namespace LiveSheet

namespace Grammar

variable {ts run more stop : List Token} {depth inner : Nat} {terminator : Terminator}
  {covered : Option Span}

/-- The terminator with which the tokens begin when `depth` parentheses are open.  The end of the
tokens is one at any depth. -/
def Terminator.next? (depth : Nat) : List Token → Option Terminator
  | [] => some endOfInput
  | t :: _ => of? depth t.kind

/-- The tokens are cut in front of the first terminator, where `inner` parentheses are open. -/
structure Cut (depth : Nat) (ts run stop : List Token) (inner : Nat) (terminator : Terminator) :
    Prop where
  tokens : run ++ stop = ts
  passed : depthThrough depth run = some inner
  stopped : Terminator.next? inner stop = some terminator

theorem exists_cut (depth : Nat) (ts : List Token) :
    ∃ run stop inner terminator, Cut depth ts run stop inner terminator := by
  induction ts generalizing depth with
  | nil => exact ⟨[], [], depth, .endOfInput, rfl, rfl, rfl⟩
  | cons t ts ih =>
    cases hterminator : Terminator.of? depth t.kind with
    | some terminator => exact ⟨[], t :: ts, depth, terminator, rfl, rfl, hterminator⟩
    | none =>
      obtain ⟨run, stop, inner, terminator, hcut⟩ := ih (depthAfter depth t.kind)
      refine ⟨t :: run, stop, inner, terminator, congrArg (t :: ·) hcut.tokens, ?_, hcut.stopped⟩
      rw [depthThrough, hterminator]
      exact hcut.passed

theorem depthThrough_append :
    depthThrough depth (run ++ more) = (depthThrough depth run).bind (depthThrough · more) := by
  induction run generalizing depth with
  | nil => rfl
  | cons t run ih =>
    rw [List.cons_append, depthThrough, depthThrough]
    cases Terminator.of? depth t.kind with
    | some terminator => rfl
    | none => exact ih

theorem Terminator.next?_ne_brace {t : Token} (h : next? inner stop = some terminator)
    (hblock : terminator ≠ .block) (ht : t ∈ stop.head?) : t.kind ≠ .openBrace := by
  obtain ⟨rest, rfl⟩ := List.head?_eq_some_iff.1 ht
  intro hopen
  rw [next?, hopen, of?] at h
  split at h
  · exact hblock (Option.some.inj h).symm
  · cases h

theorem Terminator.of?_ne_endOfInput {kind : TokenKind} : of? depth kind ≠ some endOfInput := by
  cases kind <;> simp [of?]

/-! ## Where look-aheads and preludes end -/

theorem Cut.endFrom (h : Cut depth ts run stop inner terminator) :
    endFrom depth ts = (terminator, stop) := by
  rw [← h.tokens, endFrom_through h.passed]
  have hstop := h.stopped
  cases stop with
  | nil =>
    cases hstop
    rfl
  | cons t rest =>
    rw [Terminator.next?] at hstop
    rw [Grammar.endFrom, hstop]

/-- Tokens are cut in one place only. -/
theorem Cut.unique {run' stop' : List Token} {inner' : Nat} {terminator' : Terminator}
    (h : Cut depth ts run stop inner terminator)
    (h' : Cut depth ts run' stop' inner' terminator') :
    run = run' ∧ stop = stop' ∧ inner = inner' ∧ terminator = terminator' := by
  obtain ⟨rfl, rfl⟩ := Prod.mk.inj (h.endFrom.symm.trans h'.endFrom)
  obtain rfl := List.append_cancel_right (h.tokens.trans h'.tokens.symm)
  exact ⟨rfl, rfl, Option.some.inj (h.passed.symm.trans h'.passed), rfl⟩

theorem Cut.lookahead_terminator (h : Cut 0 ts run stop inner terminator) :
    (lookahead ts).terminator = terminator :=
  (lookaheadFrom_end 0 0 none ts).trans (congrArg Prod.fst h.endFrom)

theorem Cut.prelude_eq (h : Cut 0 ts run stop inner terminator) :
    (prelude ts).terminator = terminator ∧ (prelude ts).rest = stop :=
  Prod.mk.inj ((prelude_end ts).trans h.endFrom)

theorem Cut.lookaheadFrom_count (h : Cut depth ts run stop inner terminator) (n : Nat)
    (colon : Option Nat) : (lookaheadFrom depth n colon ts).count = n + run.length := by
  obtain ⟨rfl, hrun, hstop⟩ := h
  induction run generalizing depth n colon with
  | nil =>
    cases hrun
    cases stop with
    | nil => rfl
    | cons t rest =>
      rw [Terminator.next?] at hstop
      rw [List.nil_append, lookaheadFrom, hstop]
      rfl
  | cons t run ih =>
    rw [depthThrough] at hrun
    rw [List.cons_append, lookaheadFrom]
    cases hterminator : Terminator.of? depth t.kind with
    | some _ =>
      rw [hterminator] at hrun
      cases hrun
    | none =>
      rw [hterminator] at hrun
      exact (ih (n + 1) _ hrun).trans (Nat.succ_add_eq_add_succ n run.length)

/-- A look-ahead counts the tokens in front of the first terminator. -/
theorem Cut.lookahead_count (h : Cut 0 ts run stop inner terminator) :
    ts.take (lookahead ts).count = run ∧ ts.drop (lookahead ts).count = stop := by
  have hcount : (lookahead ts).count = run.length :=
    (h.lookaheadFrom_count 0 none).trans (Nat.zero_add _)
  rw [hcount, ← h.tokens]
  exact ⟨List.take_left, List.drop_left⟩

theorem Cut.prelude_sifted (h : Cut 0 ts run stop inner terminator) (kind : ItemKind) :
    Sifted kind run (prelude ts).comments (prelude ts).covered := by
  obtain ⟨run', hrun', hsifted⟩ := Grammar.prelude_sifted kind ts
  rw [h.prelude_eq.2, ← h.tokens] at hrun'
  exact List.append_cancel_right hrun' ▸ hsifted

/-! ## Where values end -/

/-- The end of a value: it is an error only at the end of all tokens, if a parenthesis is open
there. -/
theorem valueFrom_stop (hstop : Terminator.next? depth stop = some terminator)
    (parts : List Item) (covered : Option Span) :
    valueFrom depth parts covered stop =
      if terminator = .endOfInput ∧ 0 < depth then
        .error ⟨.unclosedParenthesis, (covered.map Span.start).getD 0⟩
      else .ok (Value.finish parts covered stop) := by
  cases stop with
  | nil =>
    cases hstop
    simp only [valueFrom, true_and]
  | cons t rest =>
    rw [Terminator.next?] at hstop
    have hend : terminator ≠ .endOfInput := by
      rintro rfl
      exact Terminator.of?_ne_endOfInput hstop
    rw [valueFrom, hstop]
    exact (if_neg fun h => hend h.1).symm

/-- A value takes all tokens before the first terminator. -/
theorem valueFrom_through {before : List Token} {parts : List Item}
    (hsifted : Sifted .value before parts.reverse covered)
    (hrun : depthThrough depth run = some inner) (stop : List Token) :
    ∃ parts' covered', Sifted .value (before ++ run) parts'.reverse covered' ∧
      valueFrom depth parts covered (run ++ stop) = valueFrom inner parts' covered' stop := by
  induction run generalizing depth parts covered before with
  | nil =>
    cases hrun
    exact ⟨parts, covered, (List.append_nil before).symm ▸ hsifted, rfl⟩
  | cons t run ih =>
    rw [depthThrough] at hrun
    rw [List.cons_append, List.append_cons, valueFrom]
    cases hterminator : Terminator.of? depth t.kind with
    | some _ =>
      rw [hterminator] at hrun
      cases hrun
    | none =>
      rw [hterminator] at hrun
      dsimp only at hrun ⊢
      cases hcomment : t.comment? with
      | some comment =>
        rw [depthAfter_of_comment? hcomment] at hrun
        have haside := hsifted.aside (.comment hcomment)
        rw [← List.reverse_cons] at haside
        exact ih haside hrun
      | none =>
        dsimp only
        by_cases hflag : t.kind = .flag ∧ depth = 0
        · have haside := hsifted.aside (.flag rfl hflag.1)
          rw [← List.reverse_cons] at haside
          rw [hflag.1] at hrun
          rw [if_pos hflag]
          exact ih haside hrun
        · rw [if_neg hflag]
          exact ih (hsifted.cover hcomment) hrun

theorem Cut.value_eq (h : Cut 0 ts run stop inner terminator) :
    ∃ parts covered, Sifted .value run parts covered ∧
      value ts =
        if terminator = .endOfInput ∧ 0 < inner then
          .error ⟨.unclosedParenthesis, (covered.map Span.start).getD 0⟩
        else .ok (Value.finish parts.reverse covered stop) := by
  have hnil : Sifted .value [] ([] : List Item).reverse none := .nil
  obtain ⟨parts, covered, hsifted, hvalue⟩ := valueFrom_through hnil h.passed stop
  refine ⟨parts.reverse, covered, hsifted, ?_⟩
  rw [List.reverse_reverse, ← valueFrom_stop h.stopped, ← hvalue, h.tokens]
  rfl

/-- Behind a colon outside parentheses the count begins anew, and the cut is the same. -/
theorem Cut.behind_colon {front after : List Token} {colon : Token}
    (h : Cut 0 (front ++ colon :: after) run stop inner terminator)
    (hfront : depthThrough 0 front = some 0) (hcolon : colon.kind = .colon) :
    ∃ more, run = front ++ colon :: more ∧ Cut 0 after more stop inner terminator := by
  -- what is in front of the colon and the colon itself leave no parenthesis open
  obtain ⟨more, stop', inner', terminator', hcut⟩ := exists_cut 0 after
  have hwhole : Cut 0 (front ++ colon :: after) (front ++ colon :: more) stop' inner'
      terminator' := by
    refine ⟨?_, ?_, hcut.stopped⟩
    · rw [List.append_assoc, List.cons_append, hcut.tokens]
    · rw [depthThrough_append, hfront, Option.bind_some, depthThrough, hcolon]
      exact hcut.passed
  obtain ⟨rfl, rfl, rfl, rfl⟩ := h.unique hwhole
  exact ⟨more, rfl, hcut⟩

/-- A declaration of a name in front of a colon, with what its value has taken. -/
def declared (asides : List Item) (name : Option Span) (colon : Token) (v : Value) : Statement :=
  .item (.gather .propertyDeclaration
    (asides ++ covering .propertyName name ++ [colon.leaf .punctuation] ++ v.children)) v.rest

theorem Cut.propertyDeclaration_eq (h : Cut 0 ts run stop inner terminator) (name : List Token)
    (colon : Token) :
    ∃ parts covered, Sifted .value run parts covered ∧
      propertyDeclaration name (colon :: ts) =
        if terminator = .endOfInput ∧ 0 < inner then
          .error ⟨.unclosedParenthesis, (covered.map Span.start).getD 0⟩
        else .ok (declared (separate name).1 (separate name).2 colon
          (Value.finish parts.reverse covered stop)) := by
  obtain ⟨parts, covered, hsifted, hvalue⟩ := h.value_eq
  refine ⟨parts, covered, hsifted, ?_⟩
  unfold propertyDeclaration
  dsimp only
  rw [hvalue]
  split <;> rfl

/-- Look-ahead and reading agree.  A look-ahead stops at the first terminator, and a prelude ends
with this terminator there, with all tokens before it taken.  If there is a colon outside
parentheses further on and no block, then the value of the declaration ends there as well, and not
at a brace that opens a block.  It is an error only at the end of all tokens, where a parenthesis is
open. -/
theorem lookahead_agrees (ts : List Token) :
    let found := lookahead ts
    let run := ts.take found.count
    let stop := ts.drop found.count
    ∃ inner, Cut 0 ts run stop inner found.terminator ∧
      (prelude ts).terminator = found.terminator ∧ (prelude ts).rest = stop ∧
      (∀ kind, Sifted kind run (prelude ts).comments (prelude ts).covered) ∧
      ∀ n, found.colon = some (n + 1) → found.terminator ≠ .block →
        (∀ t ∈ stop.head?, t.kind ≠ .openBrace) ∧
        ∃ colon more asides name parts covered, run = ts.take (n + 1) ++ colon :: more ∧
          colon.kind = .colon ∧ Sifted .propertyName (ts.take (n + 1)) asides name ∧
          Sifted .value more parts covered ∧
          propertyDeclaration (ts.take (n + 1)) (ts.drop (n + 1)) =
            if found.terminator = .endOfInput ∧ 0 < inner then
              .error ⟨.unclosedParenthesis, (covered.map Span.start).getD 0⟩
            else .ok (declared asides name colon (Value.finish parts.reverse covered stop)) := by
  obtain ⟨run, stop, inner, terminator, hcut⟩ := exists_cut 0 ts
  obtain ⟨hrun, hstop⟩ := hcut.lookahead_count
  obtain ⟨hprelude, hrest⟩ := hcut.prelude_eq
  dsimp only
  rw [hrun, hstop, hcut.lookahead_terminator]
  refine ⟨inner, hcut, hprelude, hrest, hcut.prelude_sifted, fun n hfound hblock => ?_⟩
  refine ⟨fun t ht => Terminator.next?_ne_brace hcut.stopped hblock ht, ?_⟩
  obtain ⟨colon, after, hdrop, hcolon, hfront⟩ := lookahead_colon hfound
  have hsplit : ts.take (n + 1) ++ colon :: after = ts := hdrop ▸ List.take_append_drop (n + 1) ts
  obtain ⟨more, hmore, hbehind⟩ := Cut.behind_colon (hsplit.symm ▸ hcut) hfront hcolon
  obtain ⟨parts, covered, hvalue, heq⟩ :=
    hbehind.propertyDeclaration_eq (ts.take (n + 1)) colon
  rw [hdrop]
  exact ⟨colon, more, _, _, parts, covered, hmore, hcolon, separate_sifted _ _, hvalue, heq⟩

/-- A parenthesis is closed that was not opened, and a brace and a semicolon stand in parentheses:
the declaration ends at the semicolon behind them.  If they are not closed, then it is an error. -/
theorem lookahead_agrees_unbalanced :
    let t : Text := "a):f(\x7b;)!x;b".toList
    let u : Text := "a:f(\x7b;".toList
    (∃ tokens, Token.lex t = .ok tokens ∧ lookahead tokens = ⟨.semicolon, 9, some 2⟩ ∧
      (prelude tokens).terminator = .semicolon ∧ (prelude tokens).rest = tokens.drop 9 ∧
      ∃ i, propertyDeclaration (tokens.take 2) (tokens.drop 2) = .ok (.item i (tokens.drop 10))) ∧
    ∃ tokens, Token.lex u = .ok tokens ∧ lookahead tokens = ⟨.endOfInput, 6, some 1⟩ ∧
      ∃ offset, propertyDeclaration (tokens.take 1) (tokens.drop 1) =
        .error ⟨.unclosedParenthesis, offset⟩ := by
  intro t u
  constructor
  · obtain ⟨tokens, hlex, hcheck⟩ := exists_ok (r := Token.lex t)
      (p := fun tokens => decide (lookahead tokens = ⟨.semicolon, 9, some 2⟩ ∧
        behindMark (tokens.drop 9) = tokens.drop 10)) (by decide +kernel)
    obtain ⟨hfound, hmark⟩ := of_decide_eq_true hcheck
    have hagrees := lookahead_agrees tokens
    rw [hfound] at hagrees
    obtain ⟨inner, -, hterminator, hrest, -, hdeclares⟩ := hagrees
    obtain ⟨-, colon, -, asides, name, parts, covered, -, -, -, -, heq⟩ :=
      hdeclares 1 rfl (by decide)
    rw [if_neg (by simp), declared, value_finish_rest, hmark] at heq
    exact ⟨tokens, hlex, hfound, hterminator, hrest, _, heq⟩
  · obtain ⟨tokens, hlex, hcheck⟩ := exists_ok (r := Token.lex u)
      (p := fun tokens => decide (lookahead tokens = ⟨.endOfInput, 6, some 1⟩ ∧
        depthThrough 0 (tokens.take 6) = some 1)) (by decide +kernel)
    obtain ⟨hfound, hopen⟩ := of_decide_eq_true hcheck
    have hagrees := lookahead_agrees tokens
    rw [hfound] at hagrees
    obtain ⟨inner, hcut, -, -, -, hdeclares⟩ := hagrees
    obtain ⟨-, colon, -, asides, name, parts, covered, -, -, -, -, heq⟩ :=
      hdeclares 0 rfl (by decide)
    have hinner : 1 = inner := Option.some.inj (hopen.symm.trans hcut.passed)
    subst hinner
    exact ⟨tokens, hlex, hfound, _, heq.trans (if_pos ⟨rfl, Nat.one_pos⟩)⟩

end Grammar
end LiveSheet
