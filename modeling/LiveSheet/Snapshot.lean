import LiveSheet.Text.Basic

/-!
# Snapshots

The states that a text passes through while it is edited.  A snapshot is compared
as a whole, so two are equal exactly if they are one and the same state.
-/

namespace LiveSheet

/-- Where a snapshot comes from: a certain buffer, or somewhere else. -/
inductive Origin where
  | buffer (id : Nat)
  | outside (serial : Nat)
  deriving DecidableEq, Repr

/-- A text as it was at one version.  Two snapshots are the same only if version
and origin agree as well: a text that comes back after an edit, or that someone
else made, is not the same snapshot. -/
structure Snapshot where
  version : Nat
  origin : Origin
  text : Text
  deriving DecidableEq

namespace Snapshot

def length (s : Snapshot) : Nat := s.text.length

/-- A snapshot in one line. -/
def describe (s : Snapshot) : String :=
  "Snapshot \x7b version: " ++ toString s.version ++ ", len: " ++ toString s.length ++ " \x7d"

end Snapshot
end LiveSheet
