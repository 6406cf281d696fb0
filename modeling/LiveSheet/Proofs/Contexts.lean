import LiveSheet.Proofs.Offers
import LiveSheet.Proofs.Spelling

/-!
# Contexts

What stands in front of the word at a cursor decides which kinds of names are offered for it.
The keyword with which mixins are used is looked for behind a limited run of blanks.
-/

namespace LiveSheet

namespace Text

/-- The window in front of an offset ends what stands in front of it. -/
theorem slice_window_suffix (t : Text) (offset width : Nat) :
    t.slice (offset - width) (offset - (offset - width)) <:+ t.take offset := by
  rw [slice, ← List.drop_take]
  exact List.drop_suffix _ _

end Text

namespace Cursor

/-- The keyword with which mixins are used stands in front of the offset, with a gap of blanks
between the two.  The gap is not empty and no longer than the window leaves room for. -/
def UseBefore (t : Text) (offset : Nat) : Prop :=
  ∃ gap : Text, gap ≠ [] ∧ gap.length ≤ 16 ∧ (∀ c ∈ gap, Text.isBlank c = true) ∧
    useKeyword ++ gap <:+ t.take offset

/-- A sigil stands directly in front of the offset. -/
def SigilBefore (t : Text) (offset : Nat) : Prop :=
  0 < offset ∧ t[offset - 1]? = some Declaration.sigil

variable {t : Text} {offset : Nat}

theorem followsUse_iff (h : offset ≤ t.length) :
    followsUse t offset = true ↔ UseBefore t offset := by
  have hwindow := t.slice_window_suffix offset useWindow
  have hlength : (t.slice (offset - useWindow) (offset - (offset - useWindow))).length =
      min useWindow offset := by
    rw [Text.slice, List.length_take, List.length_drop]
    omega
  simp only [followsUse, Bool.and_eq_true, decide_eq_true_eq, List.isSuffixOf_iff_suffix]
  generalize t.slice (offset - useWindow) (offset - (offset - useWindow)) = before at *
  constructor
  · rintro ⟨hshorter, front, hkeyword⟩
    obtain ⟨gap, hbefore, hblank⟩ := before.exists_append_trimEnd
    have hparts := congrArg List.length hbefore
    have hends : useKeyword ++ gap <:+ before :=
      ⟨front, by rw [← List.append_assoc, hkeyword, ← hbefore]⟩
    have hfits := hends.length_le
    rw [List.length_append] at hparts hfits
    have hroom : useWindow = useKeyword.length + 16 := rfl
    refine ⟨gap, ?_, by omega, hblank, hends.trans hwindow⟩
    rintro rfl
    simp only [List.length_nil] at hparts
    omega
  · rintro ⟨gap, hne, hfits, hblank, hends⟩
    have hroom : (useKeyword ++ gap).length ≤ before.length := by
      have hreaches := hends.length_le
      have hwidth : useWindow = useKeyword.length + 16 := rfl
      rw [List.length_take] at hreaches
      rw [List.length_append] at hreaches ⊢
      omega
    obtain ⟨front, rfl⟩ := List.suffix_of_suffix_length_le hends hwindow hroom
    have htrim : Text.trimEnd (front ++ (useKeyword ++ gap)) = front ++ useKeyword := by
      have hlast : useKeyword = "@includ".toList ++ ['e'] := rfl
      rw [hlast, ← List.append_assoc, ← List.append_assoc]
      exact Text.trimEnd_append_blanks (by decide) hblank
    rw [htrim]
    refine ⟨?_, List.suffix_append _ _⟩
    have hpos := List.length_pos_iff.2 hne
    simp only [List.length_append]
    omega

theorem contextAt_of_sigil (h : SigilBefore t offset) : contextAt t offset = .variable :=
  contextAt_eq_variable_iff.2 h

theorem contextAt_of_use (hlength : offset ≤ t.length) (hsigil : ¬SigilBefore t offset)
    (huse : UseBefore t offset) : contextAt t offset = .mixin := by
  unfold SigilBefore at hsigil
  rw [contextAt, if_neg hsigil, if_pos ((followsUse_iff hlength).2 huse)]

theorem contextAt_of_neither (hlength : offset ≤ t.length) (hsigil : ¬SigilBefore t offset)
    (huse : ¬UseBefore t offset) : contextAt t offset = .value := by
  unfold SigilBefore at hsigil
  rw [contextAt, if_neg hsigil, if_neg fun h => huse ((followsUse_iff hlength).1 h)]

end Cursor

namespace Completion

/-- The context of the cursor.  All completions are for the word around the place.  Behind a
sigil they are variables, which are inserted without the sigil that they are shown with.
Behind the keyword with which mixins are used, and one to sixteen blanks of any kind, they
are mixins.  Anywhere else none is a mixin, and variables are inserted as they are shown. -/
theorem derive_context (tree : Tree) (live : Text) (position : Nat) :
    let place := min position live.length
    let word := Cursor.wordAt live place
    let offered := derive tree live position
    live.WordAround place word ∧ (∀ c ∈ offered, c.word = word) ∧
      (Cursor.SigilBefore live word.start →
        ∀ c ∈ offered, c.kind = .variable ∧ c.label = Declaration.sigil :: c.insertion) ∧
      (¬Cursor.SigilBefore live word.start → Cursor.UseBefore live word.start →
        ∀ c ∈ offered, c.kind = .mixin) ∧
      (¬Cursor.SigilBefore live word.start → ¬Cursor.UseBefore live word.start →
        ∀ c ∈ offered, c.kind ≠ .mixin ∧ (c.kind = .variable → c.insertion = c.label)) := by
  intro place word offered
  have hword : live.WordAround place word := Text.wordAround_wordAt (Nat.min_le_right _ _)
  have hlength : word.start ≤ live.length :=
    Nat.le_trans hword.start_le (Nat.min_le_right _ _)
  have hoffered : ∀ c ∈ offered, ∃ d : Declaration,
      (Cursor.contextAt live word.start).admits d.kind = true ∧
        c = ofDeclaration (Cursor.read live place) d := by
    intro c hc
    obtain ⟨d, -, hadmits, rfl⟩ := exists_of_mem_derive hc
    exact ⟨d, hadmits, rfl⟩
  refine ⟨hword, fun c hc => ?_, fun hsigil c hc => ?_, fun hsigil huse c hc => ?_,
    fun hsigil huse c hc => ?_⟩
  all_goals obtain ⟨d, hadmits, rfl⟩ := hoffered c hc
  · rfl
  · have hcontext := Cursor.contextAt_of_sigil hsigil
    rw [hcontext] at hadmits
    have hkind : d.kind = .variable := eq_of_beq hadmits
    have hread : (Cursor.read live place).context = .variable := hcontext
    refine ⟨hkind, ?_⟩
    simp only [ofDeclaration, hkind, hread, if_true]
  · rw [Cursor.contextAt_of_use hlength hsigil huse] at hadmits
    exact eq_of_beq hadmits
  · have hcontext := Cursor.contextAt_of_neither hlength hsigil huse
    rw [hcontext] at hadmits
    have hread : (Cursor.read live place).context ≠ .variable := by
      rw [show (Cursor.read live place).context = .value from hcontext]
      decide
    refine ⟨bne_iff_ne.1 hadmits, fun _ => ?_⟩
    simp only [ofDeclaration, if_neg hread]

/-- A use of a mixin, up to the keyword. -/
def useSheet : Text := "$a: 1; @mixin m \x7b\x7d @include".toList

/-- Sixteen blanks of several kinds. -/
def wideGap : Text :=
  "\t\n\r\x0b\x0c\u0085\u00a0\u1680\u2000\u200a\u2028\u2029\u202f\u205f\u3000 ".toList

theorem derive_context_wideGap :
    ∃ items, Grammar.parse (useSheet ++ wideGap) = .ok items ∧
      ¬Cursor.SigilBefore (useSheet ++ wideGap) 43 ∧ Cursor.UseBefore (useSheet ++ wideGap) 43 ∧
      let offered := derive (.parsed ⟨1, .buffer 0, useSheet ++ wideGap⟩ items)
        (useSheet ++ wideGap) 43
      offered.map (fun c => (c.label, c.word)) = [("m".toList, Span.point 43)] ∧
        ∀ c ∈ offered, c.kind = .mixin := by
  have hsigil : ¬Cursor.SigilBefore (useSheet ++ wideGap) 43 := by
    unfold Cursor.SigilBefore
    decide +kernel
  have hblank : wideGap.all Text.isBlank = true := by decide
  have huse : Cursor.UseBefore (useSheet ++ wideGap) 43 :=
    ⟨wideGap, by decide, by decide, List.all_eq_true.1 hblank, by decide⟩
  obtain ⟨items, hparse, hread⟩ := exists_ok (r := Grammar.parse (useSheet ++ wideGap))
    (p := fun items => (derive (.parsed ⟨1, .buffer 0, useSheet ++ wideGap⟩ items)
        (useSheet ++ wideGap) 43).map (fun c => (c.label, c.word)) ==
      [("m".toList, Span.point 43)]) (by decide +kernel)
  obtain ⟨-, -, -, hmixins, -⟩ :=
    derive_context (.parsed ⟨1, .buffer 0, useSheet ++ wideGap⟩ items) (useSheet ++ wideGap) 43
  exact ⟨items, hparse, hsigil, huse, beq_iff_eq.1 hread, hmixins hsigil huse⟩

/-- One more blank, and the keyword is out of the window: a variable is offered. -/
theorem derive_beyond_window :
    ∃ items, Grammar.parse (useSheet ++ List.replicate 17 ' ') = .ok items ∧
      let live := useSheet ++ List.replicate 17 ' '
      (Cursor.wordAt live 44).start = 44 ∧ ¬Cursor.SigilBefore live 44 ∧
        Cursor.useKeyword ++ List.replicate 17 ' ' <:+ live.take 44 ∧
        ∃ c ∈ derive (.parsed ⟨1, .buffer 0, live⟩ items) live 44, c.kind = .variable := by
  obtain ⟨items, hparse, hread⟩ := exists_ok
    (r := Grammar.parse (useSheet ++ List.replicate 17 ' '))
    (p := fun items => (derive (.parsed ⟨1, .buffer 0, useSheet ++ List.replicate 17 ' '⟩ items)
        (useSheet ++ List.replicate 17 ' ') 44).any fun c => c.kind == .variable)
    (by decide +kernel)
  obtain ⟨c, hc, hkind⟩ := List.any_eq_true.1 hread
  refine ⟨items, hparse, by decide +kernel, ?_, by decide, c, hc, beq_iff_eq.1 hkind⟩
  unfold Cursor.SigilBefore
  decide +kernel

end Completion
end LiveSheet
