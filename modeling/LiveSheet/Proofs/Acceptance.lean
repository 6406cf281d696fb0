import LiveSheet.Proofs.Braces
import LiveSheet.Proofs.Reading

/-!
# Acceptance

As long as parentheses are balanced and hold no braces, no statement fails and none takes
a brace.  So a sheet is accepted or rejected by its braces alone: a reading does what the
scan of the braces does.
-/

namespace LiveSheet
namespace Grammar

variable {depth : Nat} {ts mid rest run : List Token} {t : Token} {items : List Item}
  {covered : Option Span}

theorem Enclosed.of_terminator {terminator : Terminator} (h : Enclosed depth (t :: rest))
    (ht : Terminator.of? depth t.kind = some terminator) : depth = 0 := by
  unfold Terminator.of? at ht
  split at ht
  · rename_i hkind
    exact h.2.1 (.inl hkind)
  · exact Decidable.byContradiction fun hne => nomatch (if_neg hne).symm.trans ht
  · rename_i hkind
    exact h.2.1 (.inr hkind)
  · exact nomatch ht

/-- A brace is taken by no run, because it ends the run or stands in parentheses. -/
theorem Enclosed.not_isBrace (h : Enclosed depth (t :: rest))
    (ht : Terminator.of? depth t.kind = none) : ¬IsBrace t := by
  intro hb
  have hdepth := h.2.1 hb
  subst hdepth
  rcases hb with hkind | hkind
  · rw [hkind] at ht
    exact nomatch ht
  · rw [hkind] at ht
    exact nomatch ht

theorem depthAfter_of_comment? {i : Item} (h : t.comment? = some i) (depth : Nat) :
    depthAfter depth t.kind = depth := by
  refine depthAfter_other (fun hkind => ?_) (fun hkind => ?_) depth
  · rw [Token.comment?, hkind] at h
    cases h
  · rw [Token.comment?, hkind] at h
    cases h

/-- The tokens up to `rest` hold no braces, and `rest` begins outside parentheses. -/
structure Skips (ts rest : List Token) : Prop where
  run : ∃ run, ts = run ++ rest ∧ ∀ t ∈ run, ¬IsBrace t
  enclosed : Enclosed 0 rest

namespace Skips

theorem refl (h : Enclosed 0 ts) : Skips ts ts :=
  ⟨⟨[], rfl, List.forall_mem_nil _⟩, h⟩

theorem cons (h : Skips ts rest) (ht : ¬IsBrace t) : Skips (t :: ts) rest := by
  obtain ⟨⟨run, rfl, hrun⟩, henclosed⟩ := h
  exact ⟨⟨t :: run, rfl, List.forall_mem_cons.2 ⟨ht, hrun⟩⟩, henclosed⟩

theorem trans (h : Skips ts mid) (h' : Skips mid rest) : Skips ts rest := by
  obtain ⟨⟨run, rfl, hrun⟩, -⟩ := h
  obtain ⟨⟨run', rfl, hrun'⟩, henclosed⟩ := h'
  refine ⟨⟨run ++ run', (List.append_assoc _ _ _).symm, fun t ht => ?_⟩, henclosed⟩
  exact (List.mem_append.1 ht).elim (hrun t) (hrun' t)

theorem token (h : Enclosed 0 (t :: rest)) (ht : ¬IsBrace t) (hdepth : depthAfter 0 t.kind = 0) :
    Skips (t :: rest) rest :=
  (refl (hdepth ▸ h.2.2)).cons ht

/-- One token of a kind that counts neither braces nor parentheses. -/
theorem of_kind {kind : TokenKind} (h : Enclosed 0 (t :: rest)) (hkind : t.kind = kind)
    (hneutral : kind ∉ [.openBrace, .closeBrace, .openParen, .closeParen]) :
    Skips (t :: rest) rest := by
  simp only [List.mem_cons, List.not_mem_nil, or_false, not_or] at hneutral
  obtain ⟨hopen, hclose, hopen', hclose'⟩ := hneutral
  rw [← hkind] at hopen hclose hopen' hclose'
  exact token h (fun hb => hb.elim hopen hclose) (depthAfter_other hopen' hclose' 0)

theorem mark (h : Skips ts (t :: rest)) (hmark : t.kind = .semicolon) : Skips ts rest :=
  h.trans (of_kind h.enclosed hmark (by decide))

theorem scanBraces_eq (h : Skips ts rest) (stack : List Nat) :
    scanBraces stack ts = scanBraces stack rest := by
  obtain ⟨⟨run, rfl, hrun⟩, -⟩ := h
  induction run with
  | nil => rfl
  | cons t run ih =>
    obtain ⟨ht, hrun⟩ := List.forall_mem_cons.1 hrun
    rw [← ih hrun, List.cons_append, scanBraces, if_neg fun hopen => ht (.inl hopen.1),
      if_neg fun hclose => ht (.inr hclose.1), openAfter, if_neg fun hopen => ht (.inl hopen),
      if_neg fun hclose => ht (.inr hclose)]

end Skips

theorem Enclosed.skip_through {behind : Nat} (h : Enclosed depth (run ++ rest))
    (hrun : depthThrough depth run = some behind) :
    Enclosed behind rest ∧ ∀ t ∈ run, ¬IsBrace t := by
  induction run generalizing depth with
  | nil =>
    cases hrun
    exact ⟨h, List.forall_mem_nil _⟩
  | cons t run ih =>
    rw [depthThrough] at hrun
    cases ht : Terminator.of? depth t.kind with
    | some terminator =>
      rw [ht] at hrun
      cases hrun
    | none =>
      rw [ht] at hrun
      obtain ⟨henclosed, hbraces⟩ := ih h.2.2 hrun
      exact ⟨henclosed, List.forall_mem_cons.2 ⟨h.not_isBrace ht, hbraces⟩⟩

/-! ## Productions -/

theorem preludeFrom_skips {comments : List Item} (h : Enclosed depth ts) :
    Skips ts (preludeFrom depth comments covered ts).rest := by
  fun_induction preludeFrom depth comments covered ts with
  | case1 depth =>
    exact Skips.refl rfl
  | case2 depth _ _ t rest _ hterminator =>
    exact Skips.refl (h.of_terminator hterminator ▸ h)
  | case3 depth _ _ t rest hterminator _ hcomment ih =>
    have hdepth : depthAfter depth t.kind = depth := depthAfter_of_comment? hcomment depth
    exact (ih (hdepth ▸ h.2.2)).cons (h.not_isBrace hterminator)
  | case4 _ _ _ _ _ hterminator _ ih => exact (ih h.2.2).cons (h.not_isBrace hterminator)

theorem value_finish_skips {parts : List Item} (h : Enclosed 0 ts) :
    Skips ts (Value.finish parts covered ts).rest := by
  cases ts with
  | nil => exact Skips.refl h
  | cons t rest =>
    by_cases hmark : t.kind = .semicolon
    · rw [Value.finish, if_pos hmark]
      exact (Skips.refl h).mark hmark
    · rw [Value.finish, if_neg hmark]
      exact Skips.refl h

theorem valueFrom_skips {parts : List Item} (h : Enclosed depth ts) :
    ∃ v, valueFrom depth parts covered ts = .ok v ∧ Skips ts v.rest := by
  fun_induction valueFrom depth parts covered ts with
  | case1 depth _ _ hdepth =>
    have hzero : depth = 0 := h
    omega
  | case2 => exact ⟨_, rfl, Skips.refl rfl⟩
  | case3 depth _ _ t rest _ hterminator =>
    exact ⟨_, rfl, value_finish_skips (h.of_terminator hterminator ▸ h)⟩
  | case4 depth _ _ t rest hterminator _ hcomment ih =>
    have hdepth : depthAfter depth t.kind = depth := depthAfter_of_comment? hcomment depth
    obtain ⟨v, hv, hskips⟩ := ih (hdepth ▸ h.2.2)
    exact ⟨v, hv, hskips.cons (h.not_isBrace hterminator)⟩
  | case5 depth _ _ t rest hterminator _ hflag ih =>
    have hdepth : depthAfter depth t.kind = depth := by rw [hflag.1]; rfl
    obtain ⟨v, hv, hskips⟩ := ih (hdepth ▸ h.2.2)
    exact ⟨v, hv, hskips.cons (h.not_isBrace hterminator)⟩
  | case6 _ _ _ _ _ hterminator _ _ ih =>
    obtain ⟨v, hv, hskips⟩ := ih h.2.2
    exact ⟨v, hv, hskips.cons (h.not_isBrace hterminator)⟩

theorem value_skips (h : Enclosed 0 ts) : ∃ v, value ts = .ok v ∧ Skips ts v.rest :=
  valueFrom_skips h

theorem parenthesesFrom_skips (opened : Nat) (span : Span) (h : Enclosed (depth + 1) ts) :
    ∃ result, parenthesesFrom opened depth span ts = .ok result ∧ Skips ts result.2 := by
  have hnot : ∀ {d : Nat} {t : Token} {rest : List Token}, Enclosed (d + 1) (t :: rest) →
      ¬IsBrace t := fun h hb => absurd (h.2.1 hb) (Nat.succ_ne_zero _)
  fun_induction parenthesesFrom opened depth span ts with
  | case1 depth => exact absurd h (Nat.succ_ne_zero depth)
  | case2 depth _ t rest hkind ih =>
    have hrest := h.2.2
    rw [hkind] at hrest
    obtain ⟨result, hresult, hskips⟩ := ih hrest
    exact ⟨result, hresult, hskips.cons (hnot h)⟩
  | case3 _ t rest hkind =>
    have hrest := h.2.2
    rw [hkind] at hrest
    exact ⟨_, rfl, (Skips.refl hrest).cons (hnot h)⟩
  | case4 _ t rest outer hkind ih =>
    have hrest := h.2.2
    rw [hkind] at hrest
    obtain ⟨result, hresult, hskips⟩ := ih hrest
    exact ⟨result, hresult, hskips.cons (hnot h)⟩
  | case5 depth _ t rest hopen hclose hclose' ih =>
    have hother : t.kind ≠ .closeParen := by
      intro hkind
      cases depth with
      | zero => exact hclose hkind rfl
      | succ outer => exact hclose' outer hkind rfl
    have hrest := h.2.2
    rw [depthAfter_other hopen hother] at hrest
    obtain ⟨result, hresult, hskips⟩ := ih hrest
    exact ⟨result, hresult, hskips.cons (hnot h)⟩

theorem signature_skips (h : Enclosed 0 ts) :
    ∃ result, signature ts = .ok result ∧ Skips ts result.2 := by
  unfold signature
  split
  · rename_i name after
    by_cases hname : name.kind = .identifier
    · rw [if_pos hname]
      have hnamed : Skips (name :: after) after :=
        Skips.of_kind h hname (by decide)
      split
      · rename_i paren inner
        by_cases hparen : paren.kind = .openParen
        · rw [if_pos hparen]
          have hinner := hnamed.enclosed.2.2
          rw [hparen] at hinner
          obtain ⟨taken, htaken, hskips⟩ := parenthesesFrom_skips paren.start paren.span hinner
          rw [htaken]
          exact ⟨_, rfl, hnamed.trans (hskips.cons (by simp [IsBrace, hparen]))⟩
        · rw [if_neg hparen]
          exact ⟨_, rfl, hnamed⟩
      · exact ⟨_, rfl, hnamed⟩
    · rw [if_neg hname]
      exact ⟨_, rfl, Skips.refl h⟩
  · exact ⟨_, rfl, Skips.refl h⟩

/-- A statement takes no braces.  The head of an item stops at the brace of its block. -/
def Statement.Skips (ts : List Token) : Statement → Prop
  | .item _ rest => Grammar.Skips ts rest
  | .header _ _ brace rest => brace.kind = .openBrace ∧ Grammar.Skips ts (brace :: rest)

theorem atRuleTail_skips {head : List Item} (h : Skips ts mid) :
    (atRuleTail head mid).Skips ts := by
  have hp : Skips mid (prelude mid).rest := preludeFrom_skips h.enclosed
  unfold atRuleTail
  dsimp only
  split
  · rename_i hterminator hrest
    exact ⟨prelude_brace hterminator hrest, hrest ▸ h.trans hp⟩
  · rename_i hterminator hrest
    exact (hrest ▸ h.trans hp).mark (prelude_mark hterminator hrest)
  · exact h.trans hp

theorem atRule_skips {keyword : Token} (h : Skips ts mid) :
    ∃ s, atRule keyword mid = .ok s ∧ s.Skips ts := by
  unfold atRule
  split
  · obtain ⟨named, hnamed, hskips⟩ := signature_skips h.enclosed
    rw [hnamed]
    exact ⟨_, rfl, atRuleTail_skips (h.trans hskips)⟩
  · exact ⟨_, rfl, atRuleTail_skips h⟩

theorem unknown_skips {us : List Token} (h : Skips ts (prelude us).rest) :
    (unknown (prelude us)).Skips ts := by
  unfold unknown
  split
  rename_i covered rest heq
  have hrest : Skips ts rest := by
    split at heq
    · rename_i hterminator hrest
      cases heq
      rw [hrest] at h
      exact h.mark (prelude_mark hterminator hrest)
    · cases heq
      exact h
  dsimp only
  split <;> exact hrest

theorem rule_skips (h : Enclosed 0 ts) : (rule ts).Skips ts := by
  have hp : Skips ts (prelude ts).rest := preludeFrom_skips h
  unfold rule
  dsimp only
  split
  · rename_i hterminator hrest
    exact ⟨prelude_brace hterminator hrest, hrest ▸ hp⟩
  · exact unknown_skips hp

theorem propertyDeclaration_skips {name after : List Token} {colon : Token}
    (h : Skips ts after) :
    ∃ s, propertyDeclaration name (colon :: after) = .ok s ∧ s.Skips ts := by
  obtain ⟨v, hv, hskips⟩ := value_skips h.enclosed
  unfold propertyDeclaration
  dsimp only
  rw [hv]
  exact ⟨_, rfl, h.trans hskips⟩

theorem ruleOrDeclaration_skips (h : Enclosed 0 ts) :
    ∃ s, ruleOrDeclaration ts = .ok s ∧ s.Skips ts := by
  unfold ruleOrDeclaration
  dsimp only
  split
  · rename_i n hcolon
    split
    · exact ⟨_, rfl, rule_skips h⟩
    · obtain ⟨colon, after, hdrop, hkind, hdepth⟩ := lookahead_colon hcolon
      -- the look-ahead has passed the name, so no prelude ends in it
      have hsplit := List.take_append_drop (n + 1) ts
      rw [← hsplit, hdrop] at h
      obtain ⟨henclosed, hbraces⟩ := h.skip_through hdepth
      have hname : Skips ts (colon :: after) := ⟨⟨_, hdrop ▸ hsplit.symm, hbraces⟩, henclosed⟩
      have hcolon : Skips (colon :: after) after :=
        Skips.of_kind henclosed hkind (by decide)
      rw [hdrop]
      exact propertyDeclaration_skips (hname.trans hcolon)
  · exact ⟨_, rfl, rule_skips h⟩

theorem variableDeclaration_skips {name colon : Token} (h : Skips ts mid) :
    ∃ s, variableDeclaration name colon mid = .ok s ∧ s.Skips ts := by
  obtain ⟨v, hv, hskips⟩ := value_skips h.enclosed
  unfold variableDeclaration
  rw [hv]
  exact ⟨_, rfl, h.trans hskips⟩

/-- Where parentheses are balanced and hold no braces, no statement fails. -/
theorem statement_skips (h : Enclosed 0 (t :: rest)) :
    ∃ s, statement t rest = .ok s ∧ s.Skips (t :: rest) := by
  unfold statement
  split
  · rename_i hkind
    exact atRule_skips (Skips.of_kind h hkind (by decide))
  · rename_i next after hkind
    have hname : Skips (t :: next :: after) (next :: after) :=
      Skips.of_kind h hkind (by decide)
    split
    · rename_i hcolon
      have hskips : Skips (next :: after) after :=
        Skips.of_kind hname.enclosed hcolon (by decide)
      exact variableDeclaration_skips (hname.trans hskips)
    · exact ruleOrDeclaration_skips h
  · exact ruleOrDeclaration_skips h

/-! ## Readings -/

namespace Reading

/-- The offsets of the braces that a reading has open, innermost first. -/
def opened (r : Reading) : List Nat := r.blocks.map fun b => b.brace.start

/-- A step that comes to the verdict of a scan, or leaves a reading of which the scan
gives the same verdict. -/
def Step.Agrees (verdict : Option SyntaxError) : Step → Prop
  | .finished _ => verdict = none
  | .fault e => verdict = some e
  | .more next => Enclosed 0 next.rest ∧ scanBraces next.opened next.rest = verdict

variable {r : Reading}

theorem openBlock_agrees {kind : ItemKind} {head : List Item} {brace : Token}
    (hbrace : brace.kind = .openBrace) (h : Enclosed 0 (brace :: rest)) :
    (r.openBlock kind head brace rest).Agrees (scanBraces r.opened (brace :: rest)) := by
  have hlength : r.opened.length = r.blocks.length := List.length_map _
  have hrest := h.2.2
  rw [hbrace] at hrest
  unfold openBlock
  by_cases hdeep : maxNesting ≤ r.blocks.length
  · rw [if_pos hdeep, scanBraces, if_pos ⟨hbrace, hlength ▸ hdeep⟩]
    exact rfl
  · rw [if_neg hdeep, scanBraces, if_neg fun hfull => hdeep (hlength ▸ hfull.2),
      if_neg fun hclose => absurd (hbrace.symm.trans hclose.1) (by decide), openAfter,
      if_pos hbrace]
    exact ⟨hrest, rfl⟩

theorem closeBlock_agrees {close : Token} (hclose : close.kind = .closeBrace)
    (h : Enclosed 0 (close :: rest)) :
    (r.closeBlock close rest).Agrees (scanBraces r.opened (close :: rest)) := by
  have hopen : close.kind ≠ .openBrace := by rw [hclose]; decide
  have hrest := h.2.2
  rw [hclose] at hrest
  rw [scanBraces, if_neg fun hfull => hopen hfull.1, openAfter, if_neg hopen, if_pos hclose]
  unfold closeBlock opened
  cases r.blocks with
  | nil =>
    rw [if_pos ⟨hclose, rfl⟩]
    exact rfl
  | cons b outer =>
    rw [if_neg fun hnil => List.cons_ne_nil _ _ hnil.2]
    exact ⟨hrest, rfl⟩

/-- What is read without taking a brace does not change the verdict. -/
theorem agrees_of_skips {items : List Item} (h : Skips r.rest rest) :
    (Step.more ⟨r.blocks, items, rest⟩).Agrees (scanBraces r.opened r.rest) :=
  ⟨h.enclosed, (h.scanBraces_eq _).symm⟩

theorem step_agrees (h : Enclosed 0 r.rest) :
    r.step.Agrees (scanBraces r.opened r.rest) := by
  unfold step
  split
  · rename_i hrest
    unfold atEnd opened
    rw [hrest]
    cases r.blocks with
    | nil => exact rfl
    | cons b outer => exact rfl
  · rename_i t rest hrest
    rw [hrest] at h
    split
    · rename_i comment hcomment
      refine agrees_of_skips ?_
      rw [hrest]
      refine Skips.token h ?_ (depthAfter_of_comment? hcomment 0)
      rintro (hkind | hkind) <;> rw [Token.comment?, hkind] at hcomment <;> cases hcomment
    · by_cases hclose : t.kind = .closeBrace
      · rw [if_pos hclose, hrest]
        exact closeBlock_agrees hclose h
      · rw [if_neg hclose]
        by_cases hmark : t.kind = .semicolon
        · rw [if_pos hmark]
          refine agrees_of_skips ?_
          rw [hrest]
          exact (Skips.refl h).mark hmark
        · rw [if_neg hmark]
          obtain ⟨s, hs, hskips⟩ := statement_skips h
          rw [hs]
          cases s with
          | item i rest' => exact agrees_of_skips (hrest ▸ hskips)
          | header kind head brace rest' =>
            obtain ⟨hbrace, hskips⟩ := hskips
            rw [hrest, hskips.scanBraces_eq]
            exact openBlock_agrees hbrace hskips.enclosed

theorem run_agrees (h : Enclosed 0 r.rest) :
    match scanBraces r.opened r.rest with
    | none => ∃ items, r.run = .ok items
    | some e => r.run = .error e := by
  fun_induction Reading.run r with
  | case1 r items hstep =>
    have hagrees := step_agrees h
    rw [hstep] at hagrees
    rw [show scanBraces r.opened r.rest = none from hagrees]
    exact ⟨items, rfl⟩
  | case2 r e hstep =>
    have hagrees := step_agrees h
    rw [hstep] at hagrees
    rw [show scanBraces r.opened r.rest = some e from hagrees]
  | case3 r next hstep ih =>
    have hagrees := step_agrees h
    rw [hstep] at hagrees
    rw [← hagrees.2]
    exact ih hagrees.1

end Reading

theorem parse_agrees {t : Text} {ts : List Token} (hlex : Token.lex t = .ok ts)
    (hparens : ParensEnclosed ts) :
    match scanBraces [] ts with
    | none => ∃ items, parse t = .ok items
    | some e => parse t = .error e := by
  have hparse : parse t = (Reading.start ts).run := by
    unfold parse
    rw [hlex]
    rfl
  rw [hparse]
  exact Reading.run_agrees (r := .start ts) hparens.enclosed

/-- Acceptance.  A text whose parentheses are balanced and hold no braces is a sheet if and
only if its braces are balanced and not too deep.  Otherwise the first brace that offends
is at fault, and if none does, the last one that is never closed. -/
theorem parse_verdict (t : Text) (ts : List Token) (hlex : Token.lex t = .ok ts)
    (hparens : ParensEnclosed ts) :
    ((∃ items, parse t = .ok items) ↔ BracesBalanced ts) ∧
      (∀ k, ∀ h : k < ts.length, Offends ts k → (∀ j < k, ¬Offends ts j) →
        (ts[k].kind = .closeBrace → parse t = .error ⟨.unexpectedBrace, ts[k].start⟩) ∧
        (ts[k].kind = .openBrace → parse t = .error ⟨.nestingTooDeep, ts[k].start⟩)) ∧
      ((∀ k, ¬Offends ts k) → ¬BracesBalanced ts →
        ∃ k, ∃ h : k < ts.length, Unclosed ts k ∧ (∀ j, k < j → ¬Unclosed ts j) ∧
          parse t = .error ⟨.unclosedBlock, ts[k].start⟩) := by
  have hagrees := parse_agrees hlex hparens
  refine ⟨?_, fun k h hk hfirst => ?_, fun hnot hopen => ?_⟩
  · rw [← scanBraces_eq_none_iff]
    cases hscan : scanBraces [] ts with
    | none =>
      rw [hscan] at hagrees
      exact iff_of_true hagrees rfl
    | some e =>
      rw [hscan] at hagrees
      refine iff_of_false ?_ nofun
      rintro ⟨items, hitems⟩
      exact nomatch hagrees.symm.trans hitems
  · rw [scanBraces_of_offends h hk hfirst] at hagrees
    refine ⟨fun hclose => ?_, fun hbrace => ?_⟩
    · rw [if_pos hclose] at hagrees
      exact hagrees
    · rw [if_neg (by rw [hbrace]; decide)] at hagrees
      exact hagrees
  · obtain ⟨k, hk, hunclosed, hlast, hscan⟩ := scanBraces_of_not_balanced hnot hopen
    rw [hscan] at hagrees
    exact ⟨k, hk, hunclosed, hlast, hagrees⟩

/-- The block of `a` stays open as well as that of `d`, but that of `c` is closed. -/
def leftOpen : Text := "a(b)\x7bc\x7b\x7dd\x7b".toList

def leftOpenTokens : List Token :=
  [⟨.identifier, 0, ['a']⟩, ⟨.openParen, 1, ['(']⟩, ⟨.identifier, 2, ['b']⟩,
    ⟨.closeParen, 3, [')']⟩, ⟨.openBrace, 4, ['\x7b']⟩, ⟨.identifier, 5, ['c']⟩,
    ⟨.openBrace, 6, ['\x7b']⟩, ⟨.closeBrace, 7, ['\x7d']⟩, ⟨.identifier, 8, ['d']⟩,
    ⟨.openBrace, 9, ['\x7b']⟩]

theorem parse_verdict_left_open :
    Token.lex leftOpen = .ok leftOpenTokens ∧ ParensEnclosed leftOpenTokens ∧
      Unclosed leftOpenTokens 4 ∧ parse leftOpen = .error ⟨.unclosedBlock, 9⟩ := by
  have hlex : Token.lex leftOpen = .ok leftOpenTokens := by
    have htokens : (Token.lex leftOpen).toOption = some leftOpenTokens := by decide +kernel
    cases hlex : Token.lex leftOpen with
    | error e => exact nomatch hlex ▸ htokens
    | ok ts =>
      rw [hlex] at htokens
      rw [Option.some.inj htokens]
  have hparens : ParensEnclosed leftOpenTokens := by decide
  have hlast : Unclosed leftOpenTokens 9 := by decide
  have hoffends : ∀ k < leftOpenTokens.length, ¬Offends leftOpenTokens k := by decide
  obtain ⟨-, -, hverdict⟩ := parse_verdict leftOpen leftOpenTokens hlex hparens
  obtain ⟨k, hk, -, hbehind, herror⟩ :=
    hverdict (fun k hk => hoffends k hk.1 hk) (by decide)
  have hle : ¬k < 9 := fun hlt => hbehind 9 hlt hlast
  obtain rfl : k = 9 := by
    have hten : k < 10 := hk
    omega
  exact ⟨hlex, hparens, by decide, herror⟩

end Grammar
end LiveSheet
