import LiveSheet.Hover
import LiveSheet.Proofs.Contexts

/-!
# Hover

The word at a cursor names a declaration if one of its name is known there and is of the kind
that the text in front of the word asks for.  Of several such declarations the innermost one
is shown.
-/

namespace LiveSheet

namespace Cursor

/-- The kind of declaration that a word at the offset names: a variable behind a sigil, a mixin
behind the keyword with which mixins are used, and else a function. -/
def Names (t : Text) (offset : Nat) : DeclarationKind → Prop
  | .variable => SigilBefore t offset
  | .mixin => ¬SigilBefore t offset ∧ UseBefore t offset
  | .function => ¬SigilBefore t offset ∧ ¬UseBefore t offset

variable {t : Text} {offset : Nat} {kind : DeclarationKind}

theorem exists_names (t : Text) (offset : Nat) : ∃ kind, Names t offset kind := by
  by_cases hsigil : SigilBefore t offset
  · exact ⟨.variable, hsigil⟩
  · by_cases huse : UseBefore t offset
    · exact ⟨.mixin, hsigil, huse⟩
    · exact ⟨.function, hsigil, huse⟩

/-- Where a word names declarations of a kind, the kind is admitted. -/
theorem admits_of_names (hlength : offset ≤ t.length) (h : Names t offset kind) :
    (contextAt t offset).admits kind = true := by
  match kind, h with
  | .variable, h => rw [contextAt_of_sigil h]; rfl
  | .mixin, h => rw [contextAt_of_use hlength h.1 h.2]; rfl
  | .function, h => rw [contextAt_of_neither hlength h.1 h.2]; rfl

end Cursor

/-- What is inserted for a declaration is the word itself exactly if the word names it.  In a value
a variable is inserted with its sigil, which is in no word. -/
theorem Completion.insertion_eq_iff {t word : Text} {cursor : Cursor} {kind : DeclarationKind}
    {d : Declaration} (hcursor : cursor.context = Cursor.contextAt t cursor.word.start)
    (hlength : cursor.word.start ≤ t.length) (h : Cursor.Names t cursor.word.start kind)
    (hadmits : cursor.context.admits d.kind = true)
    (hword : word.head? ≠ some Declaration.sigil) :
    (ofDeclaration cursor d).insertion = word ↔ d.kind = kind ∧ d.name = word := by
  match kind, h with
  | .variable, h =>
    rw [Cursor.contextAt_of_sigil h] at hcursor
    rw [hcursor] at hadmits
    have hkind : d.kind = .variable := eq_of_beq hadmits
    simp [ofDeclaration, hcursor, hkind]
  | .mixin, h =>
    rw [Cursor.contextAt_of_use hlength h.1 h.2] at hcursor
    rw [hcursor] at hadmits
    have hkind : d.kind = .mixin := eq_of_beq hadmits
    simp [ofDeclaration, hcursor, hkind]
  | .function, h =>
    rw [Cursor.contextAt_of_neither hlength h.1 h.2] at hcursor
    rw [hcursor] at hadmits
    have hkind : d.kind ≠ .mixin := bne_iff_ne.1 hadmits
    by_cases hvariable : d.kind = .variable
    · simp only [ofDeclaration, hcursor, hvariable, if_true, reduceCtorEq, if_false, false_and,
        iff_false]
      intro hinsertion
      rw [← hinsertion] at hword
      exact hword rfl
    · have hfunction : d.kind = .function := by
        revert hkind hvariable
        cases d.kind <;> decide
      simp [ofDeclaration, hcursor, hfunction]

namespace Text

theorem head?_slice {t : Text} {start length : Nat} (h : 0 < length) :
    (t.slice start length).head? = t[start]? := by
  rw [slice, List.head?_eq_getElem?, List.getElem?_take_of_lt h, List.getElem?_drop, Nat.add_zero]

theorem WordAround.head?_ne_sigil {t : Text} {place : Nat} {word : Span}
    (h : t.WordAround place word) (hne : word.start < word.stop) :
    (t.slice word.start word.length).head? ≠ some Declaration.sigil := by
  have hlength : 0 < word.length := Nat.sub_pos_of_lt hne
  rw [head?_slice hlength]
  intro hsigil
  have hchar := h.within word.start _ (Nat.le_refl _) hne hsigil
  exact absurd hchar (by decide +kernel)

end Text

namespace Hover

variable {tree : Tree} {live : Text} {position : Nat} {c : Completion}

theorem word_of_mem_derive (h : c ∈ Completion.derive tree live position) :
    c.word = Cursor.wordAt live (min position live.length) := by
  obtain ⟨d, -, -, rfl⟩ := Completion.exists_of_mem_derive h
  rfl

/-- The completion that is shown is the first one that inserts the word itself. -/
theorem declarationAt_eq_some_iff :
    let word := Cursor.wordAt live (min position live.length)
    declarationAt tree live position = some c ↔ word.start < word.stop ∧
      (Completion.derive tree live position).find? (fun c =>
        c.insertion == live.slice word.start word.length) = some c := by
  intro word
  have hends := word.start_le_stop
  unfold declarationAt
  cases hderive : Completion.derive tree live position with
  | nil => simp
  | cons first others =>
    have hmem : first ∈ Completion.derive tree live position := by
      rw [hderive]
      exact List.mem_cons_self
    have hfirst : first.word = word := word_of_mem_derive hmem
    simp only [hfirst]
    by_cases hempty : word.isEmpty = true
    · have heq : word.start = word.stop := eq_of_beq hempty
      rw [if_pos hempty]
      constructor
      · intro hnone
        cases hnone
      · intro hlt
        exact absurd heq (Nat.ne_of_lt hlt.1)
    · have hne : word.start ≠ word.stop := fun heq => hempty (beq_iff_eq.2 heq)
      rw [if_neg hempty, and_iff_right (Nat.lt_of_le_of_ne hends hne)]

/-- What an admitted declaration inserts is the word at the place exactly if the word names it. -/
theorem insertion_eq_word_iff {place : Nat} {kind : DeclarationKind} {d : Declaration}
    (hplace : place ≤ live.length) :
    let cursor := Cursor.read live place
    let name := live.slice cursor.word.start cursor.word.length
    cursor.word.start < cursor.word.stop → Cursor.Names live cursor.word.start kind →
      cursor.context.admits d.kind = true →
        ((Completion.ofDeclaration cursor d).insertion = name ↔ d.kind = kind ∧ d.name = name) := by
  intro cursor name hne hnames hadmits
  have hword : live.WordAround place cursor.word := Text.wordAround_wordAt hplace
  have hlength : cursor.word.start ≤ live.length := Nat.le_trans hword.start_le hplace
  exact Completion.insertion_eq_iff rfl hlength hnames hadmits (hword.head?_ne_sigil hne)

/-- What is offered and inserts the word at the cursor is the innermost declaration that the word
names. -/
theorem exists_prevails_of_insertion {s : Snapshot} {items : List Item} {kind : DeclarationKind}
    (hrow : Item.Row s.text 0 s.text.length items)
    (hsize : s.text.length < Declaration.wholeSheet)
    (h : c ∈ Completion.derive (.parsed s items) live position) :
    let place := min position live.length
    let cursor := Cursor.read live place
    let name := live.slice cursor.word.start cursor.word.length
    cursor.word.start < cursor.word.stop → Cursor.Names live cursor.word.start kind →
      c.insertion = name →
        ∃ d ∈ (Tree.parsed s items).declarations,
          d.Prevails (Tree.parsed s items).declarations cursor.context (min place s.text.length) ∧
            d.kind = kind ∧ d.name = name ∧ c = Completion.ofDeclaration cursor d := by
  intro place cursor name hne hnames hinsertion
  obtain ⟨d, hd, hprevails, rfl⟩ := Completion.exists_prevails_of_mem_derive hrow hsize h
  have hadmits : cursor.context.admits d.kind = true := hprevails.known.2
  obtain ⟨hkind, hname⟩ :=
    (insertion_eq_word_iff (Nat.min_le_right _ _) hne hnames hadmits).1 hinsertion
  exact ⟨d, hd, hprevails, hkind, hname, rfl⟩

/-- Outside of comments a declaration of the name is enough for a completion that inserts the
word. -/
theorem exists_insertion_of_visible {s : Snapshot} {items : List Item} {d : Declaration}
    (hd : d ∈ (Tree.parsed s items).declarations) :
    let place := min position live.length
    let seen := min place s.text.length
    let cursor := Cursor.read live place
    let name := live.slice cursor.word.start cursor.word.length
    ¬(Tree.parsed s items).Remarked seen → cursor.word.start < cursor.word.stop →
      Cursor.Names live cursor.word.start d.kind → d.Visible seen → d.name = name →
        ∃ c ∈ Completion.derive (.parsed s items) live position, c.insertion = name := by
  intro place seen cursor name hremarked hne hnames hvisible hname
  have hinside : Completion.insideComment (.parsed s items) seen = false :=
    Bool.eq_false_iff.2 fun h => hremarked (Completion.insideComment_iff_remarked.1 h)
  have hlength : cursor.word.start ≤ live.length :=
    Nat.le_trans (Text.wordAround_wordAt (Nat.min_le_right _ _)).start_le (Nat.min_le_right _ _)
  have hadmits : cursor.context.admits d.kind = true := Cursor.admits_of_names hlength hnames
  obtain ⟨e, hkey, hmem⟩ := Completion.exists_mem_derive_of_known hinside hd ⟨hvisible, hadmits⟩
  obtain ⟨hekind, hename⟩ := Prod.mk.inj hkey
  have headmits : cursor.context.admits e.kind = true := by
    rw [hekind]
    exact hadmits
  exact ⟨_, hmem, (insertion_eq_word_iff (Nat.min_le_right _ _) hne hnames headmits).2
    ⟨hekind, hename.trans hname⟩⟩

/-- The word at a cursor names a declaration exactly if the cursor is in no comment, the word is not
empty, and a declaration of its name is known there that is of the kind for which the text in
front of the word asks.  What is shown then is the innermost declaration of that kind and
name, for the word at the cursor; no other completion inserts the word itself.  A sheet that
fits into memory is shorter than `wholeSheet`. -/
theorem declarationAt_named {s : Snapshot} {items : List Item}
    (hparse : Grammar.parse s.text = .ok items) (hsize : s.text.length < Declaration.wholeSheet)
    (live : Text) (position : Nat) :
    let tree := Tree.parsed s items
    let place := min position live.length
    let seen := min place s.text.length
    let cursor := Cursor.read live place
    let name := live.slice cursor.word.start cursor.word.length
    live.WordAround place cursor.word ∧ ∃ kind, Cursor.Names live cursor.word.start kind ∧
      ((declarationAt tree live position).isSome ↔
        ¬tree.Remarked seen ∧ cursor.word.start < cursor.word.stop ∧
          ∃ d ∈ tree.declarations, d.Visible seen ∧ d.kind = kind ∧ d.name = name) ∧
      ∀ c, declarationAt tree live position = some c →
        c.word = cursor.word ∧
          (∃ d, d.Prevails tree.declarations cursor.context seen ∧ d.kind = kind ∧
            d.name = name ∧ c = Completion.ofDeclaration cursor d) ∧
          c ∈ Completion.derive tree live position ∧
          ∀ other ∈ Completion.derive tree live position, other.insertion = name → other = c := by
  intro tree place seen cursor name
  obtain ⟨hrow, -⟩ := Grammar.row_of_parse hparse
  obtain ⟨kind, hnames⟩ := Cursor.exists_names live cursor.word.start
  have hshown : ∀ c, declarationAt tree live position = some c →
      cursor.word.start < cursor.word.stop ∧ c ∈ Completion.derive tree live position ∧
        c.insertion = name := by
    intro c hc
    obtain ⟨hne, hfind⟩ := declarationAt_eq_some_iff.1 hc
    have hfound := List.find?_some hfind
    exact ⟨hne, List.mem_of_find?_eq_some hfind, beq_iff_eq.1 hfound⟩
  refine ⟨Text.wordAround_wordAt (Nat.min_le_right _ _), kind, hnames, ⟨?_, ?_⟩, ?_⟩
  · intro hsome
    obtain ⟨c, hc⟩ := Option.isSome_iff_exists.1 hsome
    obtain ⟨hne, hmem, hinsertion⟩ := hshown c hc
    obtain ⟨d, hd, hprevails, hkind, hname, -⟩ :=
      exists_prevails_of_insertion hrow hsize hmem hne hnames hinsertion
    refine ⟨?_, hne, d, hd, hprevails.known.1, hkind, hname⟩
    intro hremarked
    rw [Completion.derive_of_insideComment
      (Completion.insideComment_iff_remarked.2 hremarked)] at hmem
    exact List.not_mem_nil hmem
  · intro h
    obtain ⟨hremarked, hne, d, hd, hvisible, rfl, hname⟩ := h
    obtain ⟨c, hmem, hinsertion⟩ :=
      exists_insertion_of_visible hd hremarked hne hnames hvisible hname
    have hfound : ((Completion.derive tree live position).find? fun c =>
        c.insertion == name).isSome :=
      List.find?_isSome.2 ⟨c, hmem, beq_iff_eq.2 hinsertion⟩
    obtain ⟨c, hc⟩ := Option.isSome_iff_exists.1 hfound
    exact Option.isSome_iff_exists.2 ⟨c, declarationAt_eq_some_iff.2 ⟨hne, hc⟩⟩
  · intro c hc
    obtain ⟨hne, hmem, hinsertion⟩ := hshown c hc
    obtain ⟨d, -, hprevails, hkind, hname, hcd⟩ :=
      exists_prevails_of_insertion hrow hsize hmem hne hnames hinsertion
    refine ⟨word_of_mem_derive hmem, ⟨d, hprevails, hkind, hname, hcd⟩, hmem, ?_⟩
    intro other hother hinsertion
    obtain ⟨e, -, -, hekind, hename, hoe⟩ :=
      exists_prevails_of_insertion hrow hsize hother hne hnames hinsertion
    apply Completion.eq_of_label hother hmem
    · rw [hoe, hcd]
      exact hekind.trans hkind.symm
    · rw [hoe, hcd]
      show e.kind.label e.name = d.kind.label d.name
      rw [hekind, hename, hkind, hname]

/-- A variable that is declared again in a block, and a function of its name. -/
def renamed : Text := "$a: 1; @function a() \x7b\x7d x \x7b $a: 2; y: 3 \x7d".toList

/-- The same sheet while a value is typed in the block. -/
def renamedLive : Text := "$a: 1; @function a() \x7b\x7d x \x7b $a: 2; y: $a".toList

theorem declarationAt_named_inBlock :
    ∃ items, Grammar.parse renamed = .ok items ∧ renamed.length < Declaration.wholeSheet ∧
      let tree := Tree.parsed ⟨1, .buffer 0, renamed⟩ items
      let cursor := Cursor.read renamedLive 40
      ¬tree.Remarked 40 ∧ Cursor.Names renamedLive cursor.word.start .variable ∧
        ∃ c, declarationAt tree renamedLive 40 = some c ∧ c.word = ⟨39, 40, by decide⟩ ∧
          c.detail = some "2".toList ∧
          (∃ d, d.Prevails tree.declarations cursor.context 40 ∧ d.kind = .variable ∧
            d.name = "a".toList ∧ c = Completion.ofDeclaration cursor d) ∧
          ∀ other ∈ Completion.derive tree renamedLive 40,
            other.insertion = "a".toList → other = c := by
  have hsize : renamed.length < Declaration.wholeSheet := by decide +kernel
  have hword : (Cursor.read renamedLive 40).word = ⟨39, 40, by decide⟩ := by decide +kernel
  have hsigil : Cursor.SigilBefore renamedLive 39 := by
    unfold Cursor.SigilBefore
    decide +kernel
  obtain ⟨items, hparse, hread⟩ := exists_ok (r := Grammar.parse renamed)
    (p := fun items => (declarationAt (.parsed ⟨1, .buffer 0, renamed⟩ items) renamedLive 40).any
      fun c => c.detail == some "2".toList) (by decide +kernel)
  obtain ⟨-, kind, hnames, hiff, hshown⟩ :=
    declarationAt_named (s := ⟨1, .buffer 0, renamed⟩) hparse hsize renamedLive 40
  have hnames : Cursor.Names renamedLive (Cursor.read renamedLive 40).word.start kind := hnames
  have hkind : kind = .variable := by
    rw [hword] at hnames
    match kind, hnames with
    | .variable, _ => rfl
    | .mixin, hnames => exact absurd hsigil hnames.1
    | .function, hnames => exact absurd hsigil hnames.1
  subst hkind
  cases hc : declarationAt (.parsed ⟨1, .buffer 0, renamed⟩ items) renamedLive 40 with
  | none =>
    rw [hc] at hread
    cases hread
  | some c =>
    rw [hc] at hread
    obtain ⟨hcword, ⟨d, hprevails, hkind, hname, hcd⟩, -, honly⟩ := hshown c hc
    obtain ⟨hremarked, -⟩ := hiff.1 (Option.isSome_iff_exists.2 ⟨c, hc⟩)
    exact ⟨items, hparse, hsize, hremarked, hnames, c, hc, hcword.trans hword, beq_iff_eq.1 hread,
      ⟨d, hprevails, hkind, hname, hcd⟩, honly⟩

end Hover
end LiveSheet
