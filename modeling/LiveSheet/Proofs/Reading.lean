import LiveSheet.Grammar.Reading
import LiveSheet.Proofs.Statements

/-!
# Steps of a reading

Everything that a step can do to a reading, said once.
-/

namespace LiveSheet

/-! ## Results -/

theorem exists_ok {ε α : Type} {r : Except ε α} {p : α → Bool} (h : r.toOption.any p = true) :
    ∃ a, r = .ok a ∧ p a = true := by
  cases r with
  | error e => cases h
  | ok a => exact ⟨a, rfl, h⟩

def failure? {ε α : Type} : Except ε α → Option ε
  | .ok _ => none
  | .error e => some e

theorem eq_error_of_failure? {ε α : Type} {r : Except ε α} {e : ε} (h : failure? r = some e) :
    r = .error e := by
  cases r with
  | ok _ => cases h
  | error e' => rw [Option.some.inj h]

namespace Grammar
namespace Reading

/-! ## Steps -/

/-- The three ways in which a reading goes on: it reads an item, opens the block of an
item whose head it has read, or closes the innermost block. -/
inductive Next (r : Reading) : Reading → Prop
  | item {i : Item} {rest : List Token} :
      MadeOf r.rest [i] rest → r.Next ⟨r.blocks, i :: r.items, rest⟩
  | opened {kind : ItemKind} {head : List Item} {brace : Token} {rest : List Token} :
      r.blocks.length < maxNesting → kind ≠ .block → brace.kind = .openBrace →
      MadeOf r.rest head (brace :: rest) →
      r.Next ⟨⟨kind, head, brace, r.items⟩ :: r.blocks, [], rest⟩
  | closed {b : OpenBlock} {outer : List OpenBlock} {close : Token} {rest : List Token} :
      r.blocks = b :: outer → close.kind = .closeBrace → r.rest = close :: rest →
      r.Next ⟨outer, b.close r.items close :: b.before, rest⟩

variable {r next : Reading}

/-- The same three ways, with the forms of what is read. -/
inductive Advances (r : Reading) : Reading → Prop
  | item {run rest : List Token} {i : Item} :
      r.rest = run ++ rest → ItemForm run i → r.Advances ⟨r.blocks, i :: r.items, rest⟩
  | opened {kind : ItemKind} {run rest : List Token} {head : List Item} {brace : Token} :
      r.blocks.length < maxNesting → r.rest = run ++ brace :: rest → HeadForm kind run head →
      brace.kind = .openBrace →
      r.Advances ⟨⟨kind, head, brace, r.items⟩ :: r.blocks, [], rest⟩
  | closed {b : OpenBlock} {outer : List OpenBlock} {close : Token} {rest : List Token} :
      r.blocks = b :: outer → close.kind = .closeBrace → r.rest = close :: rest →
      r.Advances ⟨outer, b.close r.items close :: b.before, rest⟩

theorem advances_of_step (h : r.step = .more next) : r.Advances next := by
  unfold step at h
  split at h
  · unfold atEnd at h
    split at h <;> exact nomatch h
  · rename_i t rest hrest
    split at h
    · rename_i comment hcomment
      cases h
      exact .item hrest (.comment hcomment)
    · rename_i hcomment
      by_cases hclose : t.kind = .closeBrace
      · rw [if_pos hclose, closeBlock] at h
        split at h
        · exact nomatch h
        · rename_i b outer hblocks
          cases h
          exact .closed hblocks hclose hrest
      · rw [if_neg hclose] at h
        by_cases hmark : t.kind = .semicolon
        · rw [if_pos hmark] at h
          cases h
          exact .item hrest (.mark hmark)
        · rw [if_neg hmark] at h
          cases hstatement : statement t rest with
          | error e => rw [hstatement] at h; exact nomatch h
          | ok s =>
            have hformed := statement_formed hcomment hclose hmark hstatement
            rw [← hrest] at hformed
            rw [hstatement] at h
            cases s with
            | item i rest =>
              cases h
              obtain ⟨run, hrun, hform⟩ := hformed
              exact .item hrun hform
            | header kind head brace rest =>
              obtain ⟨run, hrun, hhead, hbrace⟩ := hformed
              dsimp only [openBlock] at h
              split at h
              · exact nomatch h
              · rename_i hroom
                cases h
                exact .opened (Nat.lt_of_not_le hroom) hrun hhead hbrace

theorem next_of_step (h : r.step = .more next) : r.Next next := by
  cases advances_of_step h with
  | item hrest hform => exact .item (hrest ▸ madeOf_compositional.item hform _)
  | @opened kind head brace rest run hroom hrest hhead hbrace =>
    have hkind : kind ≠ .block := by
      rintro rfl
      exact absurd hhead.kind_mem (by decide)
    exact .opened hroom hkind hbrace (hrest ▸ madeOf_compositional.head hhead _)
  | closed hblocks hclose hrest => exact .closed hblocks hclose hrest

theorem finished_of_step {items : List Item} (h : r.step = .finished items) :
    r = ⟨[], items.reverse, []⟩ := by
  unfold step at h
  split at h
  · rename_i hrest
    unfold atEnd at h
    split at h
    · rename_i hblocks
      cases h
      obtain ⟨blocks, items, rest⟩ := r
      cases hblocks
      cases hrest
      rw [List.reverse_reverse]
    · exact nomatch h
  · split at h
    · exact nomatch h
    · unfold closeBlock openBlock at h
      grind

/-- The tokens that are done make the complete items.  What stands around the innermost block is
described in the same way, followed by the head of the block and its brace. -/
inductive Stacked : List Token → List OpenBlock → List Item → Prop
  | top {done : List Token} {items : List Item} :
      SheetForm done items.reverse → Stacked done [] items
  | block {done run inner : List Token} {b : OpenBlock} {outer : List OpenBlock}
      {items : List Item} :
      Stacked done outer b.before → HeadForm b.kind run b.head → b.brace.kind = .openBrace →
      SheetForm inner items.reverse →
      Stacked (done ++ (run ++ b.brace :: inner)) (b :: outer) items

variable {tokens done taken : List Token} {blocks : List OpenBlock} {items : List Item} {i : Item}

theorem Stacked.push (h : Stacked done blocks items)
    (hpush : ∀ {tokens items}, SheetForm tokens items →
      SheetForm (tokens ++ taken) (items ++ [i])) :
    Stacked (done ++ taken) blocks (i :: items) := by
  cases h with
  | top hform =>
    refine .top ?_
    rw [List.reverse_cons]
    exact hpush hform
  | block houter hhead hbrace hinner =>
    rw [List.append_assoc, List.append_assoc, List.cons_append]
    refine .block houter hhead hbrace ?_
    rw [List.reverse_cons]
    exact hpush hinner

/-- The tokens in front of those that are left make what was read. -/
def Sound (tokens : List Token) (r : Reading) : Prop :=
  ∃ done, tokens = done ++ r.rest ∧ Stacked done r.blocks r.items

theorem Sound.step (h : r.Sound tokens) (hstep : r.step = .more next) : next.Sound tokens := by
  obtain ⟨done, hdone, hstacked⟩ := h
  cases advances_of_step hstep with
  | @item run rest i hrest hform =>
    refine ⟨done ++ run, by rw [hdone, hrest, List.append_assoc], hstacked.push fun hsheet => ?_⟩
    exact hsheet.item hform
  | @opened kind run rest head brace _ hrest hhead hbrace =>
    refine ⟨_, ?_, .block (b := ⟨kind, head, brace, r.items⟩) hstacked hhead hbrace .nil⟩
    rw [hdone, hrest, List.append_assoc, List.append_assoc]
    rfl
  | @closed b outer close rest hblocks hclose hrest =>
    rw [hblocks] at hstacked
    rw [hrest] at hdone
    cases hstacked with
    | @block done run inner _ _ _ houter hhead hbrace hinner =>
      refine ⟨done ++ (run ++ b.brace :: (inner ++ [close])), ?_, houter.push fun hsheet => ?_⟩
      · rw [hdone]
        simp
      · exact hsheet.block hhead hbrace hclose hinner

theorem Sound.run (h : r.Sound tokens) (hrun : r.run = .ok items) : SheetForm tokens items := by
  fun_induction Reading.run r with
  | case1 r items' hstep =>
    cases hrun
    have hr := finished_of_step hstep
    subst hr
    obtain ⟨done, hdone, hstacked⟩ := h
    cases hstacked with
    | top hform =>
      rw [List.append_nil] at hdone
      rw [List.reverse_reverse] at hform
      exact hdone ▸ hform
  | case2 r e hstep => cases hrun
  | case3 r next hstep ih => exact ih (h.step hstep) hrun

end Reading

/-- The tokens of a sheet make its items. -/
theorem sheetForm_of_parse {t : Text} {tokens : List Token} {items : List Item}
    (h : parse t = .ok items) (hlex : Token.lex t = .ok tokens) : SheetForm tokens items := by
  unfold parse at h
  rw [hlex] at h
  have hstart : (Reading.start tokens).Sound tokens := ⟨[], rfl, .top .nil⟩
  exact hstart.run h

theorem exists_lex_of_parse {t : Text} {items : List Item} (h : parse t = .ok items) :
    ∃ tokens, Token.lex t = .ok tokens := by
  cases hlex : Token.lex t with
  | error e =>
    unfold parse at h
    rw [hlex] at h
    exact nomatch h
  | ok tokens => exact ⟨tokens, rfl⟩

end Grammar
end LiveSheet
