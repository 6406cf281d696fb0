import LiveSheet.Proofs.Watched

/-!
# Recursive descent

A sheet is read here by functions that call each other, one for the items of a level, one for the
next item and one for a block.  A block is read by a call inside the call that has found its head,
and a counter of open blocks is raised before the items in the block and lowered behind them.
Where a function relies on its caller for a token, it reports an internal error if there is none.

The descent gives what a reading over a stack of open blocks gives, so no token is ever missing.
Its calls for blocks are inside each other as the open blocks of the reading are, so the counter is
their number at every call.
-/

namespace LiveSheet
namespace Grammar

/-- What a call comes to, and the greatest number of blocks whose items were being read at one
moment of it. -/
structure Call (α : Type) where
  result : Except ParseError α
  deepest : Nat

namespace Call

variable {α β : Type}

def fail (e : ParseError) : Call α := ⟨.error e, 0⟩

/-- Goes on with what a call has found.  An error ends the call at once. -/
def andThen (c : Call α) (f : α → Call β) : Call β :=
  match c.result with
  | .ok a => ⟨(f a).result, max c.deepest (f a).deepest⟩
  | .error e => ⟨.error e, c.deepest⟩

instance : Monad Call where
  pure a := ⟨.ok a, 0⟩
  bind := andThen

/-- A call that is made while the items of `active` blocks are being read. -/
def inside (active : Nat) (c : Call α) : Call α := ⟨c.result, max active c.deepest⟩

end Call

namespace Descent

/-! ## Heads -/

/-- What a descent finds: an item, or the parts of one in front of its block.  The block is left
to the next call, its brace with it. -/
inductive Head where
  | item (item : Item) (rest : List Token)
  | header (kind : ItemKind) (parts : List Item) (rest : List Token)

def Head.ofStatement : Statement → Head
  | .item i rest => .item i rest
  | .header kind parts brace rest => .header kind parts (brace :: rest)

def peekKind (ts : List Token) : Option TokenKind := ts.head?.map Token.kind

/-- Takes a parenthesis, which the caller has seen, and all up to the one that closes it. -/
def parenthesized : List Token → Except ParseError (Span × List Token)
  | [] => .error (.internal "expected `(`")
  | paren :: rest => (parenthesesFrom paren.start 0 paren.span rest).mapError .malformed

/-- The name after the keyword of a named at-rule, and the argument list right after it. -/
def callable (ts : List Token) : Except ParseError (List Item × List Token) :=
  match ts with
  | name :: rest =>
    if name.kind = .identifier then
      if peekKind rest = some .openParen then do
        let (arguments, rest) ← parenthesized rest
        return ([name.leaf .identifier, .leaf .arguments arguments], rest)
      else return ([name.leaf .identifier], rest)
    else return ([], ts)
  | [] => return ([], ts)

/-- What follows the head of an at-rule: a prelude, then a block, a semicolon or nothing. -/
def atRuleTail (parts : List Item) (ts : List Token) : Head :=
  let p := prelude ts
  let parts := parts ++ p.comments ++ (p.covered.map (Item.leaf .value)).toList
  match p.terminator, p.rest with
  | .block, rest => .header .atRule parts rest
  | .semicolon, mark :: rest => .item (.gather .atRule (parts ++ [mark.leaf .punctuation])) rest
  | _, rest => .item (.gather .atRule parts) rest

/-- An at-rule up to its block, of which the caller has seen the keyword. -/
def atRule : List Token → Except ParseError Head
  | [] => .error (.internal "at-rule without keyword")
  | keyword :: rest =>
    if namesCallable keyword.lexeme then do
      let (named, rest) ← callable rest
      return atRuleTail (keyword.leaf .atKeyword :: named) rest
    else return atRuleTail [keyword.leaf .atKeyword] rest

def rule (ts : List Token) : Head :=
  let p := prelude ts
  match p.terminator with
  | .block =>
    .header .ruleBlock (p.comments ++ (p.covered.map (Item.leaf .selector)).toList) p.rest
  | _ => .ofStatement (unknown p)

def ruleOrDeclaration (ts : List Token) : Except ParseError Head :=
  let found := lookahead ts
  match found.colon with
  | some (n + 1) =>
    if found.terminator = .block then return rule ts
    else ((propertyDeclaration (ts.take (n + 1)) (ts.drop (n + 1))).map .ofStatement).mapError
      .malformed
  | _ => return rule ts

/-- What begins with a token that is neither a comment, a closing brace nor a semicolon. -/
def head (t : Token) (rest : List Token) : Except ParseError Head :=
  match t.kind, rest with
  | .atKeyword, _ => atRule (t :: rest)
  | .variable, next :: after =>
    if next.kind = .colon then
      ((variableDeclaration t next after).map .ofStatement).mapError .malformed
    else ruleOrDeclaration (t :: rest)
  | _, _ => ruleOrDeclaration (t :: rest)

theorem preludeFrom_rest_ne_nil {depth : Nat} {comments : List Item} {covered : Option Span}
    {ts : List Token} (h : (preludeFrom depth comments covered ts).terminator ≠ .endOfInput) :
    (preludeFrom depth comments covered ts).rest ≠ [] := by
  fun_induction preludeFrom depth comments covered ts with
  | case1 => exact absurd rfl h
  | case2 => exact List.cons_ne_nil _ _
  | case3 _ _ _ _ _ _ _ _ ih => exact ih h
  | case4 _ _ _ _ _ _ _ ih => exact ih h

/-- Behind a prelude that a block ends, the brace of the block comes next. -/
theorem prelude_rest_ne_nil {ts : List Token} (h : (prelude ts).terminator = .block) :
    (prelude ts).rest ≠ [] := by
  refine preludeFrom_rest_ne_nil ?_
  rw [show (preludeFrom 0 [] none ts).terminator = .block from h]
  decide

theorem callable_eq (ts : List Token) : callable ts = (signature ts).mapError .malformed := by
  cases ts with
  | nil => rfl
  | cons name rest =>
    unfold callable signature
    by_cases hname : name.kind = .identifier
    · simp only [if_pos hname]
      cases rest with
      | nil => rfl
      | cons paren inner =>
        by_cases hparen : paren.kind = .openParen
        · have hpeek : peekKind (paren :: inner) = some .openParen := congrArg some hparen
          simp only [if_pos hpeek, if_pos hparen, parenthesized]
          cases parenthesesFrom paren.start 0 paren.span inner with
          | error e => rfl
          | ok taken => rfl
        · have hpeek : peekKind (paren :: inner) ≠ some .openParen :=
            fun hsome => hparen (Option.some.inj hsome)
          simp only [if_neg hpeek, if_neg hparen]
          rfl
    · simp only [if_neg hname]
      rfl

theorem atRuleTail_eq (parts : List Item) (ts : List Token) :
    atRuleTail parts ts = .ofStatement (Grammar.atRuleTail parts ts) := by
  have hblock := @prelude_rest_ne_nil ts
  unfold atRuleTail Grammar.atRuleTail
  generalize prelude ts = p at hblock ⊢
  obtain ⟨comments, covered, terminator, rest⟩ := p
  cases rest with
  | nil =>
    cases terminator with
    | block => exact absurd rfl (hblock rfl)
    | semicolon => rfl
    | closeBrace => rfl
    | endOfInput => rfl
  | cons t rest => cases terminator <;> rfl

theorem rule_eq (ts : List Token) : rule ts = .ofStatement (Grammar.rule ts) := by
  have hblock := @prelude_rest_ne_nil ts
  unfold rule Grammar.rule
  generalize prelude ts = p at hblock ⊢
  obtain ⟨comments, covered, terminator, rest⟩ := p
  cases rest with
  | nil =>
    cases terminator with
    | block => exact absurd rfl (hblock rfl)
    | semicolon => rfl
    | closeBrace => rfl
    | endOfInput => rfl
  | cons t rest => cases terminator <;> rfl

theorem atRule_eq (keyword : Token) (ts : List Token) :
    atRule (keyword :: ts) =
      ((Grammar.atRule keyword ts).map Head.ofStatement).mapError .malformed := by
  unfold atRule Grammar.atRule
  by_cases hnamed : namesCallable keyword.lexeme = true
  · simp only [if_pos hnamed, callable_eq]
    cases signature ts with
    | error e => rfl
    | ok named =>
      simp only [atRuleTail_eq]
      rfl
  · simp only [if_neg hnamed, atRuleTail_eq]
    rfl

theorem ruleOrDeclaration_eq (ts : List Token) : ruleOrDeclaration ts =
    ((Grammar.ruleOrDeclaration ts).map Head.ofStatement).mapError .malformed := by
  unfold ruleOrDeclaration Grammar.ruleOrDeclaration
  rw [rule_eq]
  dsimp only
  rcases (lookahead ts).colon with _ | _ | n
  · rfl
  · rfl
  · by_cases hblock : (lookahead ts).terminator = .block
    · simp only [if_pos hblock]
      rfl
    · simp only [if_neg hblock]

/-- The head is that of the statement, and no token is missing where one is relied on. -/
theorem head_eq (t : Token) (rest : List Token) :
    head t rest = ((statement t rest).map Head.ofStatement).mapError .malformed := by
  unfold head statement
  generalize t.kind = kind
  cases rest with
  | nil =>
    cases kind with
    | atKeyword => exact atRule_eq t []
    | _ => exact ruleOrDeclaration_eq _
  | cons next after =>
    cases kind with
    | atKeyword => exact atRule_eq t (next :: after)
    | «variable» =>
      by_cases hcolon : next.kind = .colon
      · simp only [if_pos hcolon]
      · simp only [if_neg hcolon]
        exact ruleOrDeclaration_eq _
    | _ => exact ruleOrDeclaration_eq _

/-- A head takes a token, unless it is that of a rule without a selector. -/
theorem head_rest_length {t : Token} (hclose : t.kind ≠ .closeBrace) (hmark : t.kind ≠ .semicolon)
    {rest : List Token} {found : Head} (h : head t rest = .ok found) :
    match found with
    | .item _ left => left.length < (t :: rest).length
    | .header _ _ left => left.length ≤ (t :: rest).length := by
  rw [head_eq] at h
  cases hs : statement t rest with
  | error e =>
    rw [hs] at h
    cases h
  | ok s =>
    have hlt := statement_rest_length_lt hclose hmark hs
    rw [hs] at h
    cases h
    cases s with
    | item => exact hlt
    | header => exact hlt

/-! ## Items and blocks -/

/-- What is left behind some of `n` tokens, with the counter of open blocks. -/
structure Left (n : Nat) where
  rest : List Token
  nesting : Nat
  fewer : rest.length < n

def Left.mono {m n : Nat} (left : Left m) (h : m ≤ n) : Left n :=
  { left with fewer := Nat.lt_of_lt_of_le left.fewer h }

theorem Left.length_behind_lt {n : Nat} (left : Left n) {t : Token} {behind : List Token}
    (h : left.rest = t :: behind) : behind.length < n := by
  have hfewer := left.fewer
  rw [h] at hfewer
  exact Nat.lt_of_succ_lt hfewer

mutual

/-- The next item, or none at the end of the tokens or, in a block, at a closing brace. -/
def nextItem (nested : Bool) (active nesting : Nat) (ts : List Token) :
    Call (Option (Item × Left ts.length)) :=
  match ts with
  | [] => return none
  | t :: rest =>
    match t.comment? with
    | some comment => return some (comment, ⟨rest, nesting, Nat.lt_succ_self _⟩)
    | none =>
      if hclose : t.kind = .closeBrace then
        if nested then return none else Call.fail (.malformed ⟨.unexpectedBrace, t.start⟩)
      else if hmark : t.kind = .semicolon then
        return some (t.leaf .punctuation, ⟨rest, nesting, Nat.lt_succ_self _⟩)
      else
        match h : head t rest with
        | .error e => Call.fail e
        | .ok (.item i left) => return some (i, ⟨left, nesting, head_rest_length hclose hmark h⟩)
        | .ok (.header kind parts left) => do
          let (b, left) ← block active nesting left
          return some (.gather kind (parts ++ [b]), left.mono (head_rest_length hclose hmark h))
termination_by (ts.length, 1)
decreasing_by exact Prod.Lex.right' _ (head_rest_length hclose hmark h) Nat.zero_lt_one

/-- A block, of whose brace the caller has seen that it comes next. -/
def block (active nesting : Nat) (ts : List Token) : Call (Item × Left ts.length) :=
  match ts with
  | [] => Call.fail (.internal "expected `\x7b`")
  | brace :: rest =>
    if maxNesting ≤ nesting then Call.fail (.malformed ⟨.nestingTooDeep, brace.start⟩)
    else do
      let (found, left) ← Call.inside (active + 1)
        (items true (active + 1) (nesting + 1) [] rest)
      match hleft : left.rest with
      | close :: behind =>
        if close.kind = .closeBrace then
          return (.node .block (brace.span.cover close.span) found.reverse,
            ⟨behind, left.nesting - 1, left.length_behind_lt hleft⟩)
        else Call.fail (.malformed ⟨.unclosedBlock, brace.start⟩)
      | [] => Call.fail (.malformed ⟨.unclosedBlock, brace.start⟩)
termination_by (ts.length, 0)
decreasing_by exact Prod.Lex.left _ _ (Nat.lt_succ_self _)

/-- All items up to the end of the tokens or, in a block, to a closing brace, behind those that
were found before.  They are listed latest first. -/
def items (nested : Bool) (active nesting : Nat) (found : List Item) (ts : List Token) :
    Call (List Item × Left (ts.length + 1)) := do
  match ← nextItem nested active nesting ts with
  | none => return (found, ⟨ts, nesting, Nat.lt_succ_self _⟩)
  | some (i, left) =>
    let (all, last) ← items nested active left.nesting (i :: found) left.rest
    return (all, last.mono (Nat.succ_le_succ (Nat.le_of_lt left.fewer)))
termination_by (ts.length, 2)
decreasing_by
  · exact Prod.Lex.right' _ (Nat.le_refl _) Nat.one_lt_two
  · exact Prod.Lex.left _ _ left.fewer

end

end Descent

/-- The items of a sheet, by recursive descent. -/
def descend (t : Text) : Call (List Item) :=
  match Token.lex t with
  | .error e => Call.fail (.malformed e)
  | .ok tokens => do
    let (found, _) ← Descent.items false 0 0 [] tokens
    return found.reverse

/-! ## Descents and readings -/

namespace Call

variable {α β : Type} {a : α} {e : ParseError} {c : Call α} {f : α → Call β} {active limit : Nat}
  {good : α → Prop} {bad : ParseError → Prop}

/-- A call that never reads more than `limit` blocks at once, and what holds of what it finds and
of the error that it may end with. -/
structure Meets (c : Call α) (limit : Nat) (good : α → Prop) (bad : ParseError → Prop) : Prop where
  deepest : c.deepest ≤ limit
  result : match c.result with
    | .ok a => good a
    | .error e => bad e

theorem meets_pure (h : good a) : (pure a : Call α).Meets limit good bad := ⟨Nat.zero_le _, h⟩

theorem meets_fail (h : bad e) : (fail e : Call α).Meets limit good bad := ⟨Nat.zero_le _, h⟩

theorem Meets.bind {good' : β → Prop} (h : c.Meets limit good bad)
    (hf : ∀ a, good a → (f a).Meets limit good' bad) : (c >>= f).Meets limit good' bad := by
  show (c.andThen f).Meets limit good' bad
  obtain ⟨result, deepest⟩ := c
  cases result with
  | ok a =>
    have hnext := hf a h.result
    exact ⟨Nat.max_le.2 ⟨h.deepest, hnext.deepest⟩, hnext.result⟩
  | error e => exact ⟨h.deepest, h.result⟩

theorem Meets.inside (h : c.Meets limit good bad) (hactive : active ≤ limit) :
    (c.inside active).Meets limit good bad :=
  ⟨Nat.max_le.2 ⟨hactive, h.deepest⟩, h.result⟩

end Call

namespace Reading

/-- What a reading comes to from a step on. -/
def Step.run : Step → Except SyntaxError (List Item)
  | .finished items => .ok items
  | .fault e => .error e
  | .more next => next.run

theorem run_eq_step_run (r : Reading) : r.run = r.step.run := by
  rw [run_eq]
  cases r.step <;> rfl

theorem run_close {b : OpenBlock} {outer : List OpenBlock} {found : List Item} {close : Token}
    {behind : List Token} (h : close.kind = .closeBrace) :
    run ⟨b :: outer, found, close :: behind⟩ =
      run ⟨outer, b.close found close :: b.before, behind⟩ := by
  have hcomment : close.comment? = none := by rw [Token.comment?, h]
  rw [run_eq_step_run, step]
  simp only [hcomment, if_pos h]
  rfl

theorem run_unclosed (b : OpenBlock) (outer : List OpenBlock) (found : List Item) :
    run ⟨b :: outer, found, []⟩ = .error ⟨.unclosedBlock, b.brace.start⟩ :=
  run_eq_step_run _

end Reading

namespace Descent

open Reading (Step)

/-- Where the items of a level end: at the end of the tokens, or at a brace that closes a block. -/
def EndsLevel (blocks : List OpenBlock) (ts : List Token) : Prop :=
  ts = [] ∨ blocks ≠ [] ∧ ∃ close behind, ts = close :: behind ∧ close.kind = .closeBrace

section

variable {t : Token} {rest left : List Token} {i : Item} {kind : ItemKind} {parts : List Item}

theorem statement_of_head_error {e : ParseError} (h : head t rest = .error e) :
    ∃ fault, statement t rest = .error fault ∧ e = .malformed fault := by
  rw [head_eq] at h
  cases hs : statement t rest with
  | error fault =>
    rw [hs] at h
    cases h
    exact ⟨fault, rfl, rfl⟩
  | ok s =>
    rw [hs] at h
    cases h

theorem exists_statement_of_head {found : Head} (h : head t rest = .ok found) :
    ∃ s, statement t rest = .ok s ∧ found = .ofStatement s := by
  rw [head_eq] at h
  cases hs : statement t rest with
  | error fault =>
    rw [hs] at h
    cases h
  | ok s =>
    rw [hs] at h
    cases h
    exact ⟨s, rfl, rfl⟩

theorem statement_of_head_item (h : head t rest = .ok (.item i left)) :
    statement t rest = .ok (.item i left) := by
  obtain ⟨s, hs, hfound⟩ := exists_statement_of_head h
  cases s with
  | item =>
    cases hfound
    exact hs
  | header => cases hfound

theorem statement_of_head_header (h : head t rest = .ok (.header kind parts left)) :
    ∃ brace behind, statement t rest = .ok (.header kind parts brace behind) ∧
      left = brace :: behind := by
  obtain ⟨s, hs, hfound⟩ := exists_statement_of_head h
  cases s with
  | item => cases hfound
  | header kind parts brace behind =>
    cases hfound
    exact ⟨brace, behind, hs, rfl⟩

/-- A call for the next item takes it as the steps of a reading do, and leaves the counter as it
was. -/
def NextReads (ts : List Token) : Prop :=
  ∀ blocks found, blocks.length ≤ maxNesting →
    (nextItem (!blocks.isEmpty) blocks.length blocks.length ts).Meets maxNesting
      (fun next => match next with
        | none => EndsLevel blocks ts
        | some (i, left) => left.nesting = blocks.length ∧
          Reading.run ⟨blocks, found, ts⟩ = Reading.run ⟨blocks, i :: found, left.rest⟩)
      (fun e => reported (Reading.run ⟨blocks, found, ts⟩) = .error e)

/-- The same of a call for a block, behind a head that was read before. -/
def BlockReads (brace : Token) (rest : List Token) : Prop :=
  ∀ blocks kind parts found, blocks.length ≤ maxNesting →
    let opened := Reading.openBlock ⟨blocks, found, brace :: rest⟩ kind parts brace rest
    (block blocks.length blocks.length (brace :: rest)).Meets maxNesting
      (fun next => next.2.nesting = blocks.length ∧ opened.run =
        Reading.run ⟨blocks, .gather kind (parts ++ [next.1]) :: found, next.2.rest⟩)
      (fun e => reported opened.run = .error e)

/-- The same of a call for all items of a level. -/
def ItemsRead (ts : List Token) : Prop :=
  ∀ blocks found, blocks.length ≤ maxNesting →
    (items (!blocks.isEmpty) blocks.length blocks.length found ts).Meets maxNesting
      (fun next => next.2.nesting = blocks.length ∧ EndsLevel blocks next.2.rest ∧
        Reading.run ⟨blocks, found, ts⟩ = Reading.run ⟨blocks, next.1, next.2.rest⟩)
      (fun e => reported (Reading.run ⟨blocks, found, ts⟩) = .error e)

theorem nextReads_nil : NextReads [] := by
  intro blocks found hroom
  rw [nextItem]
  exact Call.meets_pure (.inl rfl)

theorem nextReads_cons (hblock : ∀ brace behind, behind.length ≤ rest.length →
    BlockReads brace behind) : NextReads (t :: rest) := by
  intro blocks found hroom
  rw [Reading.run_eq_step_run, Reading.step, nextItem]
  dsimp only
  cases hcomment : t.comment? with
  | some comment => exact Call.meets_pure ⟨rfl, rfl⟩
  | none =>
    dsimp only
    by_cases hclose : t.kind = .closeBrace
    · rw [dif_pos hclose, if_pos hclose, Reading.closeBlock]
      cases blocks with
      | nil => exact Call.meets_fail rfl
      | cons b outer => exact Call.meets_pure (.inr ⟨List.cons_ne_nil _ _, t, rest, rfl, hclose⟩)
    · rw [dif_neg hclose, if_neg hclose]
      by_cases hmark : t.kind = .semicolon
      · rw [dif_pos hmark, if_pos hmark]
        exact Call.meets_pure ⟨rfl, rfl⟩
      · rw [dif_neg hmark, if_neg hmark]
        split
        · rename_i e hhead
          obtain ⟨fault, hs, rfl⟩ := statement_of_head_error hhead
          rw [hs]
          exact Call.meets_fail rfl
        · rename_i i left hhead
          rw [statement_of_head_item hhead]
          exact Call.meets_pure ⟨rfl, rfl⟩
        · rename_i kind parts left hhead
          have hle := head_rest_length hclose hmark hhead
          obtain ⟨brace, behind, hs, rfl⟩ := statement_of_head_header hhead
          rw [hs]
          refine (hblock brace behind (Nat.le_of_succ_le_succ hle) blocks kind parts found
            hroom).bind ?_
          intro next hnext
          exact Call.meets_pure hnext

theorem blockReads_of_items (hitems : ItemsRead rest) (brace : Token) : BlockReads brace rest := by
  intro blocks kind parts found hroom opened
  rw [block]
  by_cases hdeep : maxNesting ≤ blocks.length
  · have hopened : opened = .fault ⟨.nestingTooDeep, brace.start⟩ := if_pos hdeep
    rw [if_pos hdeep, hopened]
    exact Call.meets_fail rfl
  · have hopened : opened = .more ⟨⟨kind, parts, brace, found⟩ :: blocks, [], rest⟩ := if_neg hdeep
    have hinside : blocks.length + 1 ≤ maxNesting := Nat.lt_of_not_le hdeep
    rw [if_neg hdeep, hopened]
    refine ((hitems (⟨kind, parts, brace, found⟩ :: blocks) [] hinside).inside hinside).bind ?_
    intro next hnext
    obtain ⟨all, left, nesting, hfewer⟩ := next
    obtain ⟨hnesting, hends, hrun⟩ := hnext
    rw [Step.run, hrun]
    dsimp only at hnesting hends ⊢
    cases left with
    | nil =>
      rw [Reading.run_unclosed]
      exact Call.meets_fail rfl
    | cons close behind =>
      rcases hends with hnil | ⟨-, _, _, hcons, hclose⟩
      · cases hnil
      · cases hcons
        dsimp only
        rw [if_pos hclose, Reading.run_close hclose]
        refine Call.meets_pure ⟨?_, rfl⟩
        show nesting - 1 = blocks.length
        rw [hnesting]
        rfl

theorem items_read (ts : List Token) : ItemsRead ts := by
  -- a block is read from fewer tokens than its head, and so are the items behind the next one
  induction hn : ts.length using Nat.strongRecOn generalizing ts with
  | ind n ih =>
    subst hn
    have hnext : NextReads ts := by
      cases ts with
      | nil => exact nextReads_nil
      | cons t rest =>
        refine nextReads_cons fun brace behind hle => ?_
        exact blockReads_of_items (ih behind.length (Nat.lt_succ_of_le hle) behind rfl) brace
    intro blocks found hroom
    rw [items]
    refine (hnext blocks found hroom).bind ?_
    intro next hnext
    cases next with
    | none => exact Call.meets_pure ⟨rfl, hnext, rfl⟩
    | some next =>
      obtain ⟨i, left⟩ := next
      obtain ⟨hnesting, hrun⟩ := hnext
      have hrest := ih left.rest.length left.fewer left.rest rfl blocks (i :: found) hroom
      dsimp only at hnesting ⊢
      rw [hnesting, hrun]
      exact hrest.bind fun last hlast => Call.meets_pure hlast

end

end Descent

theorem descend_meets (t : Text) : (descend t).Meets maxNesting
    (fun items => reported (parse t) = .ok items) (fun e => reported (parse t) = .error e) := by
  unfold descend parse
  cases Token.lex t with
  | error e => exact Call.meets_fail rfl
  | ok tokens =>
    refine (Descent.items_read tokens [] [] (Nat.zero_le _)).bind ?_
    intro next hnext
    obtain ⟨found, left⟩ := next
    obtain ⟨-, hends, hrun⟩ := hnext
    have hread : read tokens = .ok found.reverse := by
      rcases hends with hnil | ⟨hblocks, -⟩
      · rw [read, Reading.start, hrun, hnil]
        exact Reading.run_eq_step_run _
      · exact absurd rfl hblocks
    refine Call.meets_pure ?_
    show reported (read tokens) = _
    rw [hread]
    rfl

/-- A recursive descent gives the items, or the error, that the reading gives. -/
theorem descend_result (t : Text) : (descend t).result = reported (parse t) := by
  have hmeets := (descend_meets t).result
  cases h : (descend t).result with
  | ok items =>
    rw [h] at hmeets
    exact hmeets.symm
  | error e =>
    rw [h] at hmeets
    exact hmeets.symm

theorem reported_ne_internal {α : Type} (r : Except SyntaxError α) (message : String) :
    reported r ≠ .error (.internal message) := by
  cases r with
  | ok =>
    intro h
    cases h
  | error =>
    intro h
    cases h

end Grammar
end LiveSheet
