import LiveSheet.Grammar.Statement
import LiveSheet.Token.Lexer

/-!
# Reading a sheet

Items are read one by one over a stack of open blocks.  A step takes at least one
token and never looks back.
-/

namespace LiveSheet
namespace Grammar

/-- How many blocks may be open at once. -/
def maxNesting : Nat := 128

/-- A block that is open: the item that it belongs to, the brace that opened
it, and the items that were complete around it, latest first. -/
structure OpenBlock where
  kind : ItemKind
  head : List Item
  brace : Token
  before : List Item

/-- The item that a block completes when `close` closes it. -/
def OpenBlock.close (b : OpenBlock) (items : List Item) (close : Token) : Item :=
  .gather b.kind (b.head ++ [.node .block (b.brace.span.cover close.span) items.reverse])

/-- A sheet that is being read: the open blocks, innermost first, the complete
items of the innermost one, latest first, and the tokens that are left.  The
blocks are a list and not the calls of a recursive function, so that reading can
stop and go on between any two items. -/
structure Reading where
  blocks : List OpenBlock
  items : List Item
  rest : List Token

namespace Reading

def start (ts : List Token) : Reading := ⟨[], [], ts⟩

/-- What one more step makes of a reading. -/
inductive Step where
  | finished (items : List Item)
  | more (next : Reading)
  | fault (error : SyntaxError)

/-- Opens a block, unless too many are open. -/
def openBlock (r : Reading) (kind : ItemKind) (head : List Item) (brace : Token)
    (rest : List Token) : Step :=
  if maxNesting ≤ r.blocks.length then .fault ⟨.nestingTooDeep, brace.start⟩
  else .more ⟨⟨kind, head, brace, r.items⟩ :: r.blocks, [], rest⟩

/-- Closes the innermost block. -/
def closeBlock (r : Reading) (close : Token) (rest : List Token) : Step :=
  match r.blocks with
  | [] => .fault ⟨.unexpectedBrace, close.start⟩
  | b :: outer => .more ⟨outer, b.close r.items close :: b.before, rest⟩

/-- The end of the tokens, which no block may reach. -/
def atEnd (r : Reading) : Step :=
  match r.blocks with
  | [] => .finished r.items.reverse
  | b :: _ => .fault ⟨.unclosedBlock, b.brace.start⟩

/-- Reads one item, or the head of one with a block, or the end of a block. -/
def step (r : Reading) : Step :=
  match r.rest with
  | [] => r.atEnd
  | t :: rest =>
    match t.comment? with
    | some comment => .more ⟨r.blocks, comment :: r.items, rest⟩
    | none =>
      if t.kind = .closeBrace then r.closeBlock t rest
      else if t.kind = .semicolon then .more ⟨r.blocks, t.leaf .punctuation :: r.items, rest⟩
      else
        match statement t rest with
        | .error e => .fault e
        | .ok (.item item rest) => .more ⟨r.blocks, item :: r.items, rest⟩
        | .ok (.header kind head brace rest) => r.openBlock kind head brace rest

/-- Every step takes a token, so a reading comes to an end. -/
theorem step_rest_length_lt {r next : Reading} (h : r.step = .more next) :
    next.rest.length < r.rest.length := by
  unfold step at h
  split at h
  · unfold atEnd at h
    split at h <;> exact nomatch h
  · rename_i t rest hrest
    rw [hrest]
    split at h
    · cases h
      exact Nat.lt_succ_self _
    · split at h
      · unfold closeBlock at h
        split at h
        · exact nomatch h
        · cases h
          exact Nat.lt_succ_self _
      · rename_i hclose
        split at h
        · cases h
          exact Nat.lt_succ_self _
        · rename_i hmark
          split at h
          · exact nomatch h
          · rename_i hs
            cases h
            exact statement_rest_length_lt hclose hmark hs
          · rename_i hs
            unfold openBlock at h
            split at h
            · exact nomatch h
            · cases h
              exact statement_rest_length_lt hclose hmark hs

/-- Reads on to the end. -/
def run (r : Reading) : Except SyntaxError (List Item) :=
  match _ : r.step with
  | .finished items => .ok items
  | .fault e => .error e
  | .more next => next.run
termination_by r.rest.length
decreasing_by exact step_rest_length_lt (by assumption)

end Reading

/-- The items of a sheet with the given tokens. -/
def read (ts : List Token) : Except SyntaxError (List Item) := (Reading.start ts).run

/-- The items of a sheet. -/
def parse (t : Text) : Except SyntaxError (List Item) := do
  let tokens ← Token.lex t
  read tokens

end Grammar
end LiveSheet
