import LiveSheet.Completion.Cursor

/-!
# Completions

What a tree offers for the word at a cursor.  The word is read from the text that
the editor shows, the declarations from the tree, which may lag behind it.
-/

namespace LiveSheet

/-- A proposal for the word at the cursor: what is shown, what is written over
the word, and what is known about it. -/
structure Completion where
  kind : DeclarationKind
  label : Text
  insertion : Text
  detail : Option Text
  word : Span
  deriving DecidableEq

namespace Completion

/-- The completion to a declaration.  Variables are shown with their sigil; it is
not inserted again where it already stands. -/
def ofDeclaration (c : Cursor) (d : Declaration) : Completion :=
  let label := if d.kind = .variable then Declaration.sigil :: d.name else d.name
  { kind := d.kind
    label := label
    insertion := if c.context = .variable then d.name else label
    detail := d.detail
    word := c.word }

/-- Completions are listed by label, those with one label by kind. -/
def precedes (a b : Completion) : Bool :=
  a.label < b.label || (a.label == b.label && a.kind.rank ≤ b.kind.rank)

/-- Whether a position lies in a comment.  The end of a line comment still does,
because what is typed there becomes part of it. -/
def insideComment (tree : Tree) (position : Nat) : Bool :=
  (tree.pathAt position).any fun i =>
    match i with
    | .comment style s =>
      s.start < position && (position < s.stop || (style == .line && position == s.stop))
    | _ => false

/-- The declarations that are the first of their kind and name in a list. -/
def firstOfName (seen : List (DeclarationKind × Text)) : List Declaration → List Declaration
  | [] => []
  | d :: rest =>
    if seen.contains (d.kind, d.name) then firstOfName seen rest
    else d :: firstOfName ((d.kind, d.name) :: seen) rest

/-- The declarations that a context admits at a position, those of inner blocks
first. -/
def candidates (tree : Tree) (context : CursorContext) (position : Nat) : List Declaration :=
  let visible := tree.declarations.filter fun d =>
    d.visibleAt position && context.admits d.kind
  stableSort (fun a b => a.reach ≤ b.reach) visible

/-- The completions at a position of `live`, which may be newer than the tree:
the word and its context are read from `live`, the declarations from the tree.
An inner declaration hides the outer ones of its name. -/
def derive (tree : Tree) (live : Text) (position : Nat) : List Completion :=
  match tree.snapshot? with
  | none => []
  | some s =>
    let position := min position live.length
    let cursor := Cursor.read live position
    let position := min position s.text.length
    if insideComment tree position then []
    else
      stableSort precedes
        ((firstOfName [] (candidates tree cursor.context position)).map (ofDeclaration cursor))

def sourceOf (tree : Tree) : Text := (tree.snapshot?.map Snapshot.text).getD []

end Completion
end LiveSheet
