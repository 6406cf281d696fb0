import LiveSheet.Tree

/-!
# Declarations

The variables, mixins, functions and parameters that a tree declares, each with
the part of the sheet in which it is known.
-/

namespace LiveSheet

inductive DeclarationKind where
  | variable
  | mixin
  | function
  deriving DecidableEq, Repr

namespace DeclarationKind

def name : DeclarationKind → String
  | .variable => "Variable"
  | mixin => "Mixin"
  | function => "Function"

def all : List DeclarationKind := [.variable, .mixin, .function]

/-- The place of a kind among names that are alike. -/
def rank : DeclarationKind → Nat
  | .variable => 0
  | mixin => 1
  | function => 2

end DeclarationKind

/-- A declared name.  It is known from `visibleFrom` on in the block `scope`, or
everywhere if it was declared outside all blocks. -/
structure Declaration where
  kind : DeclarationKind
  name : Text
  detail : Option Text
  visibleFrom : Nat
  scope : Option Span
  deriving DecidableEq

namespace Declaration

def visibleAt (d : Declaration) (position : Nat) : Bool :=
  match d.scope with
  | none => true
  | some block => block.contains position && d.visibleFrom ≤ position

/-- The size of the whole sheet, which no block exceeds. -/
def wholeSheet : Nat := UInt64.size - 1

/-- The size of the part of the sheet in which the name is known.  Of the blocks
around a place the smaller ones lie further in. -/
def reach (d : Declaration) : Nat := d.scope.elim wholeSheet Span.length

def sigil : Char := '$'

/-- The name of a parameter: what stands before the colon of its default value,
without the sigil and without the dots of a rest parameter. -/
def parameterName? (entry : Text) : Option Text :=
  match Text.trim (entry.takeWhile (· != ':')) with
  | [] => none
  | c :: name =>
    if c = sigil then
      let name := dropDots name.reverse
      if name.isEmpty then none else some name.reverse
    else none
where
  /-- Drops the dots in front of a reversed name, three at a time. -/
  dropDots : Text → Text
    | '.' :: '.' :: '.' :: rest => dropDots rest
    | name => name

def parameterNames (arguments : Text) : List Text :=
  let inner := Text.dropEnd (· == ')') ((Text.trim arguments).dropWhile (· == '('))
  (Text.fields ',' inner).filterMap parameterName?

def ofVariable (source : Text) (scope : Option Span) (i : Item) : List Declaration :=
  match i.child? .variableName with
  | none => []
  | some name =>
    let value := (i.child? .value).map (Item.textIn source)
    [{ kind := .variable
       name := (name.textIn source).dropWhile (· == sigil)
       detail := value.filter fun v => !v.isEmpty
       visibleFrom := i.stop
       scope := scope }]

/-- The parameters of a mixin or function.  They are known in its body. -/
def ofParameters (source name : Text) (i : Item) : List Declaration :=
  match i.child? .arguments, i.child? .block with
  | some arguments, some body =>
    (parameterNames (arguments.textIn source)).map fun parameter =>
      { kind := .variable
        name := parameter
        detail := some ("parameter of ".toList ++ name)
        visibleFrom := arguments.stop
        scope := some body.span }
  | _, _ => []

/-- What the keyword of an at-rule declares, if it declares something. -/
def kindOfKeyword? (keyword : Text) : Option DeclarationKind :=
  if keyword = "@mixin".toList then some .mixin
  else if keyword = "@function".toList then some .function
  else none

/-- A declared mixin or function, with its parameters in front of it. -/
def ofAtRule (source : Text) (scope : Option Span) (i : Item) : List Declaration :=
  let kind := (i.child? .atKeyword).bind fun keyword => kindOfKeyword? (keyword.textIn source)
  match kind, i.child? .identifier with
  | some kind, some identifier =>
    let name := identifier.textIn source
    let parameters := ((i.child? .arguments).map (Item.textIn source)).getD []
    ofParameters source name i ++
      [{ kind := kind
         name := name
         detail := if parameters.isEmpty then none else some (name ++ parameters)
         visibleFrom := i.stop
         scope := scope }]
  | _, _ => []

/-- What an item declares by itself, apart from what stands below it. -/
def ofItem (source : Text) (scope : Option Span) (i : Item) : List Declaration :=
  match i.kind? with
  | some .variableDeclaration => ofVariable source scope i
  | some .atRule => ofAtRule source scope i
  | _ => []

/-- The block around the children of an item. -/
def scopeBelow (scope : Option Span) (i : Item) : Option Span :=
  if i.isKind .block then some i.span else scope

mutual
/-- All that is declared at and below an item which stands in the block `scope`. -/
def below (source : Text) (scope : Option Span) : Item → List Declaration
  | .leaf kind span => ofItem source scope (.leaf kind span)
  | .comment style span => ofItem source scope (.comment style span)
  | .node kind span children =>
    ofItem source scope (.node kind span children) ++
      belowAll source (scopeBelow scope (.node kind span children)) children

def belowAll (source : Text) (scope : Option Span) : List Item → List Declaration
  | [] => []
  | i :: rest => below source scope i ++ belowAll source scope rest
end

end Declaration

/-- All that a tree declares, in the order of the sheet. -/
def Tree.declarations : Tree → List Declaration
  | .empty => []
  | .parsed s items => Declaration.belowAll s.text none items

end LiveSheet
