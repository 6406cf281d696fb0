import LiveSheet.Completion.Basic

/-!
# Hover

The declaration that the word at a position names, and how it is shown.
-/

namespace LiveSheet
namespace Hover

/-- The declaration that the word at a position of `live` names. -/
def declarationAt (tree : Tree) (live : Text) (position : Nat) : Option Completion :=
  match Completion.derive tree live position with
  | [] => none
  | first :: others =>
    if first.word.isEmpty then none
    else
      let word := live.slice first.word.start first.word.length
      (first :: others).find? fun c => c.insertion == word

/-- How a declaration reads in the sheet. -/
def signature (c : Completion) : Text :=
  match c.kind, c.detail with
  | .variable, some detail => c.label ++ ": ".toList ++ detail
  | .variable, none => c.label
  | .mixin, detail => "@mixin ".toList ++ detail.getD c.label
  | .function, detail => "@function ".toList ++ detail.getD c.label

/-- What is shown about a declaration: its signature as a block of code. -/
def contents (c : Completion) : String :=
  "```scss\n" ++ String.ofList (signature c) ++ "\n```"

end Hover
end LiveSheet
