import LiveSheet.Completion.Declaration
import LiveSheet.Text.Position

/-!
# Outlines

The declarations, rules and at-rules of a sheet as a tree of named symbols.
-/

namespace LiveSheet

inductive SymbolKind where
  | variable
  | property
  | rule
  | mixin
  | function
  | atRule
  deriving DecidableEq, Repr

/-- The number that editors know a kind of symbol by. -/
def SymbolKind.code : SymbolKind → Nat
  | .variable => 13
  | property => 7
  | rule => 5
  | mixin => 6
  | function => 12
  | atRule => 3

/-- An entry of the outline, with the entries inside its block. -/
inductive Symbol where
  | entry (name : Text) (detail : Option Text) (kind : SymbolKind) (range nameRange : Range)
      (children : List Symbol)

namespace Symbol

def children : Symbol → List Symbol
  | entry _ _ _ _ _ children => children

/-- The child that names an item, and the kind of its symbol. -/
def naming? (source : Text) (i : Item) : Option (Item × SymbolKind) :=
  match i.kind? with
  | some .variableDeclaration => (i.child? .variableName).map fun name => (name, .variable)
  | some .propertyDeclaration => (i.child? .propertyName).map fun name => (name, .property)
  | some .ruleBlock => (i.child? .selector).map fun selector => (selector, .rule)
  | some .atRule =>
    (i.child? .atKeyword).map fun keyword =>
      let kind :=
        match Declaration.kindOfKeyword? (keyword.textIn source) with
        | some .mixin => .mixin
        | some .function => .function
        | _ => .atRule
      ((i.child? .identifier).getD keyword, kind)
  | _ => none

/-- The symbol of an item over the given symbols of its block.  An item whose
span does not lie in the text has none. -/
def ofItem? (source : Text) (i : Item) (children : List Symbol) : Option Symbol := do
  let (name, kind) ← naming? source i
  let detail := if kind = .variable then (i.child? .value).map (Item.textIn source) else none
  let range ← source.rangeOf i.span
  let nameRange ← source.rangeOf name.span
  return .entry (name.textIn source) detail kind range nameRange children

mutual
def below? (source : Text) : Item → Option Symbol
  | .leaf kind span => ofItem? source (.leaf kind span) []
  | .comment style span => ofItem? source (.comment style span) []
  | .node kind span children =>
    ofItem? source (.node kind span children) (inBlock source children)

def belowAll (source : Text) : List Item → List Symbol
  | [] => []
  | i :: rest => (below? source i).toList ++ belowAll source rest

def inBlock (source : Text) : List Item → List Symbol
  | [] => []
  | .node .block _ children :: _ => belowAll source children
  | .leaf .block _ :: _ => []
  | _ :: rest => inBlock source rest
end

mutual
/-- A symbol and all below it, parents before children, each with its depth. -/
def walk (depth : Nat) : Symbol → List (Nat × Symbol)
  | entry name detail kind range nameRange children =>
    (depth, entry name detail kind range nameRange children) :: walkAll (depth + 1) children

def walkAll (depth : Nat) : List Symbol → List (Nat × Symbol)
  | [] => []
  | s :: rest => walk depth s ++ walkAll depth rest
end

end Symbol

/-- The declarations, rules and at-rules of a tree, nested as in the sheet. -/
def Tree.outline : Tree → List Symbol
  | .empty => []
  | .parsed s items => Symbol.belowAll s.text items

end LiveSheet
