import LiveSheet.ParseError
import LiveSheet.Text.Word
import LiveSheet.Token

/-!
# The lexer

Cuts a text into tokens.  What stands at the front of a text is decided by a look
at its first characters, and depends on nothing before them.
-/

namespace LiveSheet
namespace Token

/-- What stands at the front of a text.  A token takes `more` characters after
its first one, so no token is empty. -/
inductive Scan where
  | finished
  | blank
  | token (kind : TokenKind) (more : Nat)
  | fault (cause : SyntaxFault)

/-- Counts the characters up to and including the mark that closes a block
comment, on top of `n`. -/
def commentLength (n : Nat) : Text → Option Nat
  | [] => none
  | '*' :: '/' :: _ => some (n + 2)
  | _ :: rest => commentLength (n + 1) rest

/-- Counts the characters up to and including the quote that ends a string, on
top of `n`.  A backslash takes the character after it along, a line feed too; a
bare line feed may not stand in a string. -/
def quotedLength (quote : Char) (n : Nat) : Text → Option Nat
  | [] => none
  | ['\\'] => none
  | '\\' :: _ :: rest => quotedLength quote (n + 2) rest
  | c :: rest =>
    if c = quote then some (n + 1)
    else if c = '\n' then none
    else quotedLength quote (n + 1) rest

/-- Counts the characters up to and including the brace that closes an
interpolation, on top of `n`, when `depth` further braces are open inside it.
The depth has no bound.  One that is kept in 32 bits with a sign comes to the
same in every text with fewer than `2 ^ 31` opening braces, for no deeper brace
can be open there. -/
def interpolationLength (depth n : Nat) : Text → Option Nat
  | [] => none
  | c :: rest =>
    if c = '{' then interpolationLength (depth + 1) (n + 1) rest
    else if c = '}' then
      match depth with
      | 0 => some (n + 1)
      | outer + 1 => interpolationLength outer (n + 1) rest
    else interpolationLength depth (n + 1) rest

/-- A token that must be closed, or the fault of leaving it open. -/
def Scan.closed (kind : TokenKind) (cause : SyntaxFault) : Option Nat → Scan
  | some more => .token kind more
  | none => .fault cause

/-- A sigil and the word after it.  Without a word it is a token of its own. -/
def Scan.sigil (kind : TokenKind) (rest : Text) : Scan :=
  match (rest.takeWhile Text.isWordChar).length with
  | 0 => .token .other 0
  | more => .token kind more

/-- The kind of a character that is a token by itself wherever it stands. -/
def punctuation? (c : Char) : Option TokenKind :=
  if c = '{' then some .openBrace
  else if c = '}' then some .closeBrace
  else if c = '(' then some .openParen
  else if c = ')' then some .closeParen
  else if c = ':' then some .colon
  else if c = ';' then some .semicolon
  else if c = ',' then some .comma
  else none

/-- Whether a number begins with `c`, or with a point and the digit after it. -/
def startsNumber (c : Char) (next : Option Char) : Bool :=
  c.isDigit || (c == '.' && next.any Char.isDigit)

/-- Numbers run on over units and percent signs. -/
def isNumberChar (c : Char) : Bool := c.isAlphanum || c == '.' || c == '%'

/-- What stands at the front of a text. -/
def scan : Text → Scan
  | [] => .finished
  | c :: rest =>
    if Text.isBlank c then .blank
    else if c = '/' ∧ rest.head? = some '/' then
      .token .lineComment (rest.takeWhile (· != '\n')).length
    else if c = '/' ∧ rest.head? = some '*' then
      .closed .blockComment .unterminatedComment (commentLength 1 rest.tail)
    else if c = '$' then .sigil .variable rest
    else if c = '@' then .sigil .atKeyword rest
    else if c = '!' then .sigil .flag rest
    else if c = '"' ∨ c = '\'' then
      .closed .string .unterminatedString (quotedLength c 0 rest)
    else if c = '#' ∧ rest.head? = some '{' then
      .closed .interpolation .unterminatedInterpolation (interpolationLength 0 1 rest.tail)
    else
      match punctuation? c with
      | some kind => .token kind 0
      | none =>
        if startsNumber c rest.head? then
          .token .number (rest.takeWhile isNumberChar).length
        else if Text.isWordChar c then
          .token .identifier (rest.takeWhile Text.isWordChar).length
        else .token .other 0

/-- Adds the tokens of a text that stands at `offset` to those found before it,
which are listed latest first. -/
def lexFrom (offset : Nat) (found : List Token) : Text → Except SyntaxError (List Token)
  | [] => .ok found.reverse
  | c :: rest =>
    match scan (c :: rest) with
    | .finished => .ok found.reverse
    | .blank => lexFrom (offset + 1) found rest
    | .token kind more =>
      lexFrom (offset + 1 + more) (⟨kind, offset, c :: rest.take more⟩ :: found)
        (rest.drop more)
    | .fault cause => .error ⟨cause, offset⟩
termination_by t => t.length

/-- The tokens of a text, in order.  Blanks separate tokens and belong to none. -/
def lex (t : Text) : Except SyntaxError (List Token) := lexFrom 0 [] t

end Token
end LiveSheet
