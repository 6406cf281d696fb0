import LiveSheet.Item
import LiveSheet.Snapshot

/-!
# Trees

What is known of a text once it was parsed, and how that is printed.
-/

namespace LiveSheet

/-- A snapshot with the items that were read from it, or nothing yet.  Trees are
replaced and never changed. -/
inductive Tree where
  | empty
  | parsed (snapshot : Snapshot) (items : List Item)

namespace Tree

def snapshot? : Tree → Option Snapshot
  | empty => none
  | parsed s _ => some s

def version? (t : Tree) : Option Nat := t.snapshot?.map Snapshot.version

def items : Tree → List Item
  | empty => []
  | parsed _ items => items

def isEmpty : Tree → Bool
  | empty => true
  | parsed _ _ => false

/-- The items at an offset, outermost first. -/
def pathAt (t : Tree) (offset : Nat) : List Item := Item.pathIn offset t.items

/-- The listing of a tree with the texts of its comments. -/
def dump : Tree → List String
  | empty => []
  | parsed s items => Item.dump s.text items

/-- A tree in one line. -/
def describe (t : Tree) : String :=
  let version :=
    match t.version? with
    | some v => "Some(" ++ toString v ++ ")"
    | none => "None"
  "DocumentTree \x7b version: " ++ version ++ ", items: " ++ toString t.items.length ++ " \x7d"

end Tree
end LiveSheet
