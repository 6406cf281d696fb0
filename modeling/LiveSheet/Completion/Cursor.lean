import LiveSheet.Completion.Declaration
import LiveSheet.Text.Word

/-!
# Cursors

The word at a position of a text, and what stands before the word: a sigil, the
keyword with which mixins are used, or anything else.
-/

namespace LiveSheet

/-- What the text before the word at the cursor asks for. -/
inductive CursorContext where
  | variable
  | mixin
  | value
  deriving DecidableEq, Repr

structure Cursor where
  word : Span
  context : CursorContext

namespace Cursor

/-- The word around a position: the word characters before it and after it. -/
def wordAt (t : Text) (position : Nat) : Span :=
  let before := ((t.take position).reverse.takeWhile Text.isWordChar).length
  let after := ((t.drop position).takeWhile Text.isWordChar).length
  ⟨position - before, position + after, by omega⟩

def useKeyword : Text := "@include".toList

/-- How far before a word the keyword is looked for. -/
def useWindow : Nat := useKeyword.length + 16

/-- Whether the text before `offset` ends with the keyword and blanks after it. -/
def followsUse (t : Text) (offset : Nat) : Bool :=
  let start := offset - useWindow
  let before := t.slice start (offset - start)
  let trimmed := before.trimEnd
  trimmed.length < before.length && useKeyword.isSuffixOf trimmed

def contextAt (t : Text) (offset : Nat) : CursorContext :=
  if 0 < offset ∧ t[offset - 1]? = some Declaration.sigil then .variable
  else if followsUse t offset then .mixin
  else .value

def read (t : Text) (position : Nat) : Cursor :=
  let word := wordAt t position
  ⟨word, contextAt t word.start⟩

end Cursor

/-- Whether a context admits declarations of a kind. -/
def CursorContext.admits : CursorContext → DeclarationKind → Bool
  | .variable, kind => kind == .variable
  | mixin, kind => kind == .mixin
  | value, kind => kind != .mixin

end LiveSheet
