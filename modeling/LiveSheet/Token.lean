import LiveSheet.Item

/-!
# Tokens

The pieces into which a text is cut before it is read.
-/

namespace LiveSheet

/-- The kinds of tokens of a style sheet. -/
inductive TokenKind where
  | lineComment
  | blockComment
  | variable
  | atKeyword
  | identifier
  | number
  | string
  | flag
  | interpolation
  | openBrace
  | closeBrace
  | openParen
  | closeParen
  | colon
  | semicolon
  | comma
  | other
  deriving DecidableEq, Repr

/-- A token carries its characters, so that nothing after the lexer has to look
at the text again. -/
structure Token where
  kind : TokenKind
  start : Nat
  lexeme : Text
  deriving DecidableEq

namespace Token

def stop (t : Token) : Nat := t.start + t.lexeme.length

def span (t : Token) : Span := ⟨t.start, t.stop, Nat.le_add_right _ _⟩

/-- The item for a comment token; no other token gives one. -/
def comment? (t : Token) : Option Item :=
  match t.kind with
  | .lineComment => some (.comment .line t.span)
  | .blockComment => some (.comment .block t.span)
  | _ => none

/-- The leaf of a kind that stands for one token. -/
def leaf (t : Token) (kind : ItemKind) : Item := .leaf kind t.span

end Token
end LiveSheet
