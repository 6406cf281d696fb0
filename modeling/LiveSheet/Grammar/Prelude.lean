import LiveSheet.Token

/-!
# Preludes

The run of tokens at the front of a statement, up to the block, semicolon or
brace that ends it.  A look ahead finds that place first, because a colon tells a
declaration from a rule only if no block follows it.
-/

namespace LiveSheet
namespace Grammar

/-- What ends a run of tokens.  Only the mark of a block and a semicolon may
stand inside parentheses without ending the run. -/
inductive Terminator where
  | block
  | semicolon
  | closeBrace
  | endOfInput
  deriving DecidableEq, Repr

/-- The terminator that a token is when `depth` parentheses are open. -/
def Terminator.of? (depth : Nat) : TokenKind → Option Terminator
  | .openBrace => if depth = 0 then some block else none
  | .semicolon => if depth = 0 then some semicolon else none
  | .closeBrace => some closeBrace
  | _ => none

/-- How many parentheses are open after a token.  A closing parenthesis without
an opening one changes nothing. -/
def depthAfter (depth : Nat) : TokenKind → Nat
  | .openParen => depth + 1
  | .closeParen => depth - 1
  | _ => depth

/-- The span of a run of tokens after one more of them. -/
def extend (covered : Option Span) (t : Token) : Option Span :=
  some (covered.elim t.span fun s => s.cover t.span)

/-- What a look ahead finds: the terminator, how many tokens stand before it,
and how many stand before the first colon outside parentheses. -/
structure Lookahead where
  terminator : Terminator
  count : Nat
  colon : Option Nat
  deriving DecidableEq

/-- Looks ahead when `n` tokens have been passed and `depth` parentheses opened. -/
def lookaheadFrom (depth n : Nat) (colon : Option Nat) : List Token → Lookahead
  | [] => ⟨.endOfInput, n, colon⟩
  | t :: rest =>
    match Terminator.of? depth t.kind with
    | some terminator => ⟨terminator, n, colon⟩
    | none =>
      let here := if t.kind = .colon ∧ depth = 0 then colon.or (some n) else colon
      lookaheadFrom (depthAfter depth t.kind) (n + 1) here rest

/-- Looks ahead without taking anything. -/
def lookahead (ts : List Token) : Lookahead := lookaheadFrom 0 0 none ts

/-- A run of tokens up to its terminator: the comments in it, the span of all
else, and the tokens from the terminator on. -/
structure Prelude where
  comments : List Item
  covered : Option Span
  terminator : Terminator
  rest : List Token

/-- Takes the rest of a prelude.  The comments found so far are listed latest
first. -/
def preludeFrom (depth : Nat) (comments : List Item) (covered : Option Span) :
    List Token → Prelude
  | [] => ⟨comments.reverse, covered, .endOfInput, []⟩
  | t :: rest =>
    match Terminator.of? depth t.kind with
    | some terminator => ⟨comments.reverse, covered, terminator, t :: rest⟩
    | none =>
      match t.comment? with
      | some comment => preludeFrom depth (comment :: comments) covered rest
      | none => preludeFrom (depthAfter depth t.kind) comments (extend covered t) rest

/-- Takes the tokens up to the next terminator. -/
def prelude (ts : List Token) : Prelude := preludeFrom 0 [] none ts

theorem preludeFrom_rest_length_le (depth : Nat) (comments : List Item) (covered : Option Span)
    (ts : List Token) : (preludeFrom depth comments covered ts).rest.length ≤ ts.length := by
  fun_induction preludeFrom depth comments covered ts with
  | case1 => exact Nat.le_refl _
  | case2 => exact Nat.le_refl _
  | case3 _ _ _ _ _ _ _ _ ih => exact Nat.le_trans ih (Nat.le_succ _)
  | case4 _ _ _ _ _ _ _ ih => exact Nat.le_trans ih (Nat.le_succ _)

end Grammar
end LiveSheet
