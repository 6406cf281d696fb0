import LiveSheet.Completion.Basic
import LiveSheet.Settings
import LiveSheet.Text.Position

/-!
# Offers

Completions in the form in which an editor takes them, with places in lines and
columns.
-/

namespace LiveSheet

/-- The number that editors know a kind of completion by. -/
def DeclarationKind.code : DeclarationKind → Nat
  | .variable => 6
  | mixin => 9
  | function => 3

/-- A completion as it is offered to an editor.  If the word has no range in the
text, there is only a text to insert. -/
structure Offer where
  label : Text
  kind : DeclarationKind
  detail : Option Text
  filter : Text
  insertion : Text
  range : Option Range
  deriving DecidableEq

namespace Offer

/-- The offer of a completion for the text `live`. -/
def ofCompletion (live : Text) (settings : CompletionSettings) (c : Completion) : Offer :=
  { label := c.label
    kind := c.kind
    detail := if settings.includeDescriptions then c.detail else none
    filter := c.insertion
    insertion := c.insertion
    range := live.rangeOf c.word }

/-- The offers at a place of `live`.  A place outside the text counts as its end. -/
def all (tree : Tree) (live : Text) (place : Position) (settings : CompletionSettings) :
    List Offer :=
  (Completion.derive tree live ((live.offsetOf place).getD live.length)).map
    (ofCompletion live settings)

end Offer
end LiveSheet
