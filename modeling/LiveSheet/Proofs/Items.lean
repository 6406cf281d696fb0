import LiveSheet.Item
import LiveSheet.Proofs.Tiling

/-!
# Items of a tree

Which items occur in an item, and what holds of all of them.  An item that is gathered
from others spans what they span, and nothing occurs in it but what occurs in them.
-/

namespace LiveSheet
namespace Item

/-- `j` is the given item or stands somewhere below it. -/
inductive Occurs (j : Item) : Item → Prop
  | here : Occurs j j
  | under {kind : ItemKind} {span : Span} {children : List Item} {c : Item} :
      c ∈ children → Occurs j c → Occurs j (.node kind span children)

mutual
/-- A walk meets only items that occur in the tree. -/
theorem occurs_of_mem_walk {depth : Nat} {e : Nat × Item} :
    ∀ {i : Item}, e ∈ walk depth i → Occurs e.2 i
  | .leaf _ _, h => by
    rw [walk, List.mem_singleton] at h
    exact h ▸ .here
  | .comment _ _, h => by
    rw [walk, List.mem_singleton] at h
    exact h ▸ .here
  | .node _ _ children, h => by
    rw [walk, List.mem_cons] at h
    rcases h with rfl | h
    · exact .here
    · obtain ⟨c, hc, hoccurs⟩ := exists_occurs_of_mem_walkAll h
      exact .under hc hoccurs

theorem exists_occurs_of_mem_walkAll {depth : Nat} {e : Nat × Item} :
    ∀ {items : List Item}, e ∈ walkAll depth items → ∃ i ∈ items, Occurs e.2 i
  | [], h => by
    rw [walkAll] at h
    exact absurd h List.not_mem_nil
  | i :: rest, h => by
    rw [walkAll, List.mem_append] at h
    rcases h with h | h
    · exact ⟨i, List.mem_cons_self, occurs_of_mem_walk h⟩
    · obtain ⟨c, hc, hoccurs⟩ := exists_occurs_of_mem_walkAll h
      exact ⟨c, List.mem_cons_of_mem _ hc, hoccurs⟩
end

mutual
/-- The way down to a place meets only items that occur in the tree. -/
theorem occurs_of_mem_path {offset : Nat} {j : Item} :
    ∀ {i : Item}, j ∈ path offset i → Occurs j i
  | .leaf _ _, h => by
    rw [path, List.mem_singleton] at h
    exact h ▸ .here
  | .comment _ _, h => by
    rw [path, List.mem_singleton] at h
    exact h ▸ .here
  | .node _ _ children, h => by
    rw [path, List.mem_cons] at h
    rcases h with rfl | h
    · exact .here
    · obtain ⟨c, hc, hoccurs⟩ := exists_occurs_of_mem_pathIn h
      exact .under hc hoccurs

theorem exists_occurs_of_mem_pathIn {offset : Nat} {j : Item} :
    ∀ {items : List Item}, j ∈ pathIn offset items → ∃ i ∈ items, Occurs j i
  | [], h => by
    rw [pathIn] at h
    exact absurd h List.not_mem_nil
  | i :: rest, h => by
    rw [pathIn] at h
    split at h
    · exact ⟨i, List.mem_cons_self, occurs_of_mem_path h⟩
    · obtain ⟨c, hc, hoccurs⟩ := exists_occurs_of_mem_pathIn h
      exact ⟨c, List.mem_cons_of_mem _ hc, hoccurs⟩
end

/-- The property holds of all that occurs in an item. -/
def Throughout (P : Item → Prop) (i : Item) : Prop := ∀ j, Occurs j i → P j

variable {P Q : Item → Prop}

theorem Throughout.imp {i : Item} (h : i.Throughout P) (himp : ∀ j, P j → Q j) :
    i.Throughout Q :=
  fun j hj => himp j (h j hj)

theorem throughout_leaf {kind : ItemKind} {span : Span} (h : P (.leaf kind span)) :
    (leaf kind span).Throughout P := by
  intro j hj
  cases hj
  exact h

theorem throughout_comment {style : CommentStyle} {span : Span} (h : P (.comment style span)) :
    (comment style span).Throughout P := by
  intro j hj
  cases hj
  exact h

theorem throughout_node {kind : ItemKind} {span : Span} {children : List Item}
    (h : P (.node kind span children)) (hbelow : ∀ c ∈ children, c.Throughout P) :
    (node kind span children).Throughout P := by
  intro j hj
  cases hj with
  | here => exact h
  | under hc hj => exact hbelow _ hc j hj

theorem gather_span {kind : ItemKind} {children : List Item} {s : Span}
    (h : Span.coverAll (children.map span) = some s) : (gather kind children).span = s := by
  have hperm := (stableSort_perm (fun a b : Item => a.start ≤ b.start) children).map span
  show (Span.coverAll ((stableSort _ children).map span)).getD (Span.point 0) = s
  rw [Span.coverAll_perm hperm, h]
  rfl

theorem coverAll_gather (kind : ItemKind) {children : List Item} (h : children ≠ []) :
    Span.coverAll (children.map span) = some (gather kind children).span := by
  obtain ⟨s, hs⟩ := Span.exists_coverAll fun hnil => h (List.map_eq_nil_iff.1 hnil)
  rw [gather_span hs, hs]

theorem throughout_gather {kind : ItemKind} {children : List Item}
    (h : P (gather kind children)) (hbelow : ∀ c ∈ children, c.Throughout P) :
    (gather kind children).Throughout P :=
  throughout_node h fun c hc => hbelow c ((mem_stableSort _ children c).1 hc)

end Item
end LiveSheet
