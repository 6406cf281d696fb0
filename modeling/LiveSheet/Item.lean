import LiveSheet.Span
import LiveSheet.StableSort
import LiveSheet.Text.Basic

/-!
# Items

The trees that sheets are read into, and the walks over them.
-/

namespace LiveSheet

inductive ItemKind where
  | variableName
  | value
  | flag
  | propertyName
  | selector
  | atKeyword
  | identifier
  | arguments
  | punctuation
  | variableDeclaration
  | propertyDeclaration
  | ruleBlock
  | atRule
  | block
  | unknown
  deriving DecidableEq, Repr

def ItemKind.name : ItemKind → String
  | variableName => "VariableName"
  | value => "Value"
  | flag => "Flag"
  | propertyName => "PropertyName"
  | selector => "Selector"
  | atKeyword => "AtKeyword"
  | identifier => "Identifier"
  | arguments => "Arguments"
  | punctuation => "Punctuation"
  | variableDeclaration => "VariableDeclaration"
  | propertyDeclaration => "PropertyDeclaration"
  | ruleBlock => "RuleBlock"
  | atRule => "AtRule"
  | block => "Block"
  | unknown => "Unknown"

def ItemKind.all : List ItemKind :=
  [variableName, value, flag, propertyName, selector, atKeyword, identifier, arguments,
   punctuation, variableDeclaration, propertyDeclaration, ruleBlock, atRule, block, unknown]

def ItemKind.ofName? (name : String) : Option ItemKind :=
  all.find? fun kind => kind.name == name

/-- A comment runs to the end of its line or to a closing mark. -/
inductive CommentStyle where
  | line
  | block
  deriving DecidableEq, Repr

def CommentStyle.name : CommentStyle → String
  | line => "Line"
  | block => "Block"

/-- A piece of a style sheet: a leaf, a comment, or a node with children.
Comments have no kind, because they may stand anywhere and mean nothing. -/
inductive Item where
  | leaf (kind : ItemKind) (span : Span)
  | comment (style : CommentStyle) (span : Span)
  | node (kind : ItemKind) (span : Span) (children : List Item)

namespace Item

def span : Item → Span
  | leaf _ s => s
  | comment _ s => s
  | node _ s _ => s

def start (i : Item) : Nat := i.span.start

def stop (i : Item) : Nat := i.span.stop

def kind? : Item → Option ItemKind
  | leaf kind _ => some kind
  | comment _ _ => none
  | node kind _ _ => some kind

def isKind (i : Item) (kind : ItemKind) : Bool := i.kind? == some kind

def children : Item → List Item
  | leaf _ _ => []
  | comment _ _ => []
  | node _ _ children => children

def child? (i : Item) (kind : ItemKind) : Option Item :=
  i.children.find? fun c => c.isKind kind

/-- The text of an item, without the blanks around it. -/
def textIn (source : Text) (i : Item) : Text :=
  (source.slice i.start i.span.length).trim

/-- A node over children that were collected out of order: they are put into
the order of their starts, and the node spans them all. -/
def gather (kind : ItemKind) (children : List Item) : Item :=
  let sorted := stableSort (fun a b => a.start ≤ b.start) children
  node kind ((Span.coverAll (sorted.map span)).getD (Span.point 0)) sorted

def label : Item → String
  | leaf kind _ => kind.name
  | comment style _ => "Comment(" ++ style.name ++ ")"
  | node kind _ _ => kind.name

mutual
/-- An item and all below it, parents before children, each with its depth. -/
def walk (depth : Nat) : Item → List (Nat × Item)
  | leaf kind span => [(depth, leaf kind span)]
  | comment style span => [(depth, comment style span)]
  | node kind span children => (depth, node kind span children) :: walkAll (depth + 1) children

def walkAll (depth : Nat) : List Item → List (Nat × Item)
  | [] => []
  | i :: rest => walk depth i ++ walkAll depth rest
end

mutual
/-- The items on the way down to an offset, outermost first.  On every level the
first item that touches the offset is taken. -/
def path (offset : Nat) : Item → List Item
  | leaf kind span => [leaf kind span]
  | comment style span => [comment style span]
  | node kind span children => node kind span children :: pathIn offset children

def pathIn (offset : Nat) : List Item → List Item
  | [] => []
  | i :: rest => if i.span.touches offset then path offset i else pathIn offset rest
end

/-- The lines that show one item at a depth.  A comment is followed by its text. -/
def dumpLines (source : Text) (entry : Nat × Item) : List String :=
  let indent := String.join (List.replicate entry.1 "  ")
  let line := indent ++ entry.2.span.render ++ " - " ++ entry.2.label
  match entry.2 with
  | comment _ s => [line, indent ++ String.ofList (source.slice s.start s.length)]
  | _ => [line]

/-- The listing of a tree, one item a line, indented by depth. -/
def dump (source : Text) (items : List Item) : List String :=
  (walkAll 0 items).flatMap (dumpLines source)

theorem walk_head (depth : Nat) (i : Item) :
    ∃ below, walk depth i = (depth, i) :: below := by
  cases i with
  | leaf kind span => exact ⟨[], by simp [walk]⟩
  | comment style span => exact ⟨[], by simp [walk]⟩
  | node kind span children => exact ⟨walkAll (depth + 1) children, by simp [walk]⟩

theorem walkAll_append (depth : Nat) (a b : List Item) :
    walkAll depth (a ++ b) = walkAll depth a ++ walkAll depth b := by
  induction a with
  | nil => simp [walkAll]
  | cons i rest ih => simp [walkAll, ih]

end Item
end LiveSheet
