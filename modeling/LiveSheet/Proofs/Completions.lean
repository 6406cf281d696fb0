import LiveSheet.Completion.Basic
import LiveSheet.Grammar.Reading
import LiveSheet.Proofs.Scopes
import LiveSheet.Proofs.Sorting
import Mathlib.Data.Char
import Mathlib.Data.List.Lex

/-!
# Completions

A sheet offers each name that is known at a place once, as the innermost declaration of the
name describes it, and lists the names in strict order.
-/

namespace LiveSheet

namespace DeclarationKind

/-- What is shown of a name: variables are shown with their sigil. -/
def label (kind : DeclarationKind) (name : Text) : Text :=
  if kind = .variable then Declaration.sigil :: name else name

theorem label_injective {kind : DeclarationKind} {name other : Text}
    (h : kind.label name = kind.label other) : name = other := by
  unfold label at h
  split at h
  · exact (List.cons.inj h).2
  · exact h

theorem rank_injective {kind other : DeclarationKind} (h : kind.rank = other.rank) :
    kind = other := by
  revert h
  cases kind <;> cases other <;> decide

end DeclarationKind

namespace Declaration

/-- What a declaration declares, wherever it stands. -/
def key (d : Declaration) : DeclarationKind × Text := (d.kind, d.name)

/-- The declaration is known at the place and of a kind that the context asks for. -/
def Known (context : CursorContext) (place : Nat) (d : Declaration) : Prop :=
  d.Visible place ∧ context.admits d.kind = true

/-- Of all declarations of its name that are known at the place, this one stands in the
innermost block, and it is the first of them there. -/
structure Prevails (declarations : List Declaration) (context : CursorContext) (place : Nat)
    (d : Declaration) : Prop where
  known : d.Known context place
  innermost : ∀ e ∈ declarations, e.Known context place → e.key = d.key → InScope e.scope d.scope
  first : ∃ before after, declarations = before ++ d :: after ∧
    ∀ e ∈ before, e.Known context place → e.key = d.key → e.scope ≠ d.scope

end Declaration

namespace Completion

variable {d e : Declaration} {l : List Declaration} {seen : List (DeclarationKind × Text)}

/-! ## The first of each name -/

theorem mem_firstOfName_iff :
    d ∈ firstOfName seen l ↔ d.key ∉ seen ∧ l.find? (fun e => e.key == d.key) = some d := by
  induction l generalizing seen with
  | nil => simp [firstOfName]
  | cons e rest ih =>
    rw [firstOfName, List.find?_cons]
    by_cases hseen : seen.contains (e.kind, e.name) = true
    · rw [if_pos hseen, ih]
      refine and_congr_right fun hd => ?_
      have hne : (e.key == d.key) = false := by
        refine beq_eq_false_iff_ne.2 fun heq => hd ?_
        rw [← heq]
        exact List.contains_iff_mem.1 hseen
      rw [hne]
    · rw [if_neg hseen, List.mem_cons, ih]
      have he : e.key ∉ seen := fun hmem => hseen (List.contains_iff_mem.2 hmem)
      by_cases heq : e.key = d.key
      · rw [beq_iff_eq.2 heq]
        constructor
        · rintro (rfl | ⟨hd, -⟩)
          · exact ⟨he, rfl⟩
          · exact absurd (List.mem_cons.2 (.inl heq.symm)) hd
        · rintro ⟨-, hd⟩
          exact .inl (Option.some.inj hd).symm
      · rw [beq_eq_false_iff_ne.2 heq]
        constructor
        · rintro (rfl | ⟨hd, hfind⟩)
          · exact absurd rfl heq
          · exact ⟨fun hmem => hd (List.mem_cons_of_mem _ hmem), hfind⟩
        · rintro ⟨hd, hfind⟩
          refine .inr ⟨fun hmem => ?_, hfind⟩
          rcases List.mem_cons.1 hmem with hkey | hmem
          · exact heq hkey.symm
          · exact hd hmem

theorem firstOfName_pairwise : (firstOfName seen l).Pairwise fun a b => a.key ≠ b.key := by
  induction l generalizing seen with
  | nil => exact List.Pairwise.nil
  | cons e rest ih =>
    rw [firstOfName]
    split
    · exact ih
    · refine List.pairwise_cons.2 ⟨fun d hd heq => ?_, ih⟩
      exact (mem_firstOfName_iff.1 hd).1 (List.mem_cons.2 (.inl heq.symm))

/-! ## Candidates -/

variable {tree : Tree} {context : CursorContext} {place : Nat}

theorem reach_total (a b : Declaration) :
    decide (a.reach ≤ b.reach) = true ∨ decide (b.reach ≤ a.reach) = true := by
  simp only [decide_eq_true_eq]
  exact Nat.le_total _ _

theorem reach_trans (a b c : Declaration) (hab : decide (a.reach ≤ b.reach) = true)
    (hbc : decide (b.reach ≤ c.reach) = true) : decide (a.reach ≤ c.reach) = true := by
  simp only [decide_eq_true_eq] at *
  exact Nat.le_trans hab hbc

theorem mem_candidates_iff :
    d ∈ candidates tree context place ↔ d ∈ tree.declarations ∧ d.Known context place := by
  unfold candidates Declaration.Known
  rw [mem_stableSort, List.mem_filter, Bool.and_eq_true, Declaration.visibleAt_iff]

/-- The first candidate of a name reaches least, and those before it in the sheet reach
further. -/
theorem find?_candidates (h : (candidates tree context place).find? (·.key == d.key) = some d) :
    d.Known context place ∧ ∃ before after, tree.declarations = before ++ d :: after ∧
      (∀ e ∈ before, e.Known context place → e.key = d.key → d.reach < e.reach) ∧
      ∀ e ∈ after, e.Known context place → e.key = d.key → d.reach ≤ e.reach := by
  have hknown := (mem_candidates_iff.1 (List.mem_of_find?_eq_some h)).2
  obtain ⟨before, after, hsplit, -, hbefore, hafter⟩ := find?_stableSort reach_total reach_trans h
  have hmem : ∀ e : Declaration, e.Known context place →
      (e.visibleAt place && context.admits e.kind) = true := by
    rintro e ⟨hvisible, hadmits⟩
    rw [Declaration.visibleAt_iff.2 hvisible, hadmits]
    rfl
  obtain ⟨front, tail, hfront, rfl, htail⟩ := List.filter_eq_append_iff.1 hsplit
  obtain ⟨between, rest, rfl, hbetween, -, rfl⟩ := List.filter_eq_cons_iff.1 htail
  refine ⟨hknown, front ++ between, rest, by rw [hfront, List.append_assoc], ?_, ?_⟩
  · intro e he hknown hkey
    rcases List.mem_append.1 he with he | he
    · have hless := hbefore e (List.mem_filter.2 ⟨he, hmem e hknown⟩) (beq_iff_eq.2 hkey)
      exact Nat.lt_of_not_le (of_decide_eq_false hless)
    · exact absurd (hmem e hknown) (hbetween e he)
  · intro e he hknown hkey
    exact of_decide_eq_true (hafter e (List.mem_filter.2 ⟨he, hmem e hknown⟩) (beq_iff_eq.2 hkey))

theorem prevails_of_find? {s : Snapshot} {items : List Item}
    (hrow : Item.Row s.text 0 s.text.length items)
    (hsize : s.text.length < Declaration.wholeSheet)
    (h : (candidates (.parsed s items) context place).find? (·.key == d.key) = some d) :
    d.Prevails (Tree.parsed s items).declarations context place := by
  obtain ⟨hknown, before, after, hsplit, hbefore, hafter⟩ := find?_candidates h
  have hd : d ∈ (Tree.parsed s items).declarations := by
    rw [hsplit]
    exact List.mem_append_right _ List.mem_cons_self
  refine ⟨hknown, fun e he heknown hkey => ?_, before, after, hsplit, fun e he heknown hkey heq => ?_⟩
  · have hle : d.reach ≤ e.reach := by
      rw [hsplit] at he
      rcases List.mem_append.1 he with he | he
      · exact Nat.le_of_lt (hbefore e he heknown hkey)
      · rcases List.mem_cons.1 he with rfl | he
        · exact Nat.le_refl _
        · exact hafter e he heknown hkey
    exact Declaration.inScope_of_reach_le hrow hsize hd he hknown.1 heknown.1 hle
  · have hlt := hbefore e he heknown hkey
    rw [Declaration.reach, Declaration.reach, heq] at hlt
    exact Nat.lt_irrefl _ hlt

/-! ## Order -/

/-- By label, and those with one label by kind. -/
def Before (a b : Completion) : Prop :=
  a.label < b.label ∨ a.label = b.label ∧ a.kind.rank < b.kind.rank

theorem precedes_iff {a b : Completion} :
    precedes a b = true ↔ a.label < b.label ∨ a.label = b.label ∧ a.kind.rank ≤ b.kind.rank := by
  simp only [precedes, Bool.or_eq_true, Bool.and_eq_true, decide_eq_true_eq, beq_iff_eq]

theorem precedes_total (a b : Completion) : precedes a b = true ∨ precedes b a = true := by
  rw [precedes_iff, precedes_iff]
  rcases lt_trichotomy a.label b.label with hlt | heq | hgt
  · exact .inl (.inl hlt)
  · rcases Nat.le_total a.kind.rank b.kind.rank with hle | hle
    · exact .inl (.inr ⟨heq, hle⟩)
    · exact .inr (.inr ⟨heq.symm, hle⟩)
  · exact .inr (.inl hgt)

theorem precedes_trans (a b c : Completion) (hab : precedes a b = true)
    (hbc : precedes b c = true) : precedes a c = true := by
  rw [precedes_iff] at *
  rcases hab with hab | ⟨hab, hrank⟩
  · rcases hbc with hbc | ⟨hbc, -⟩
    · exact .inl (lt_trans hab hbc)
    · exact .inl (hbc ▸ hab)
  · rw [hab]
    rcases hbc with hbc | ⟨hbc, hrank'⟩
    · exact .inl hbc
    · exact .inr ⟨hbc, Nat.le_trans hrank hrank'⟩

theorem before_of_precedes {a b : Completion} (h : precedes a b = true)
    (hne : ¬(a.kind = b.kind ∧ a.label = b.label)) : a.Before b := by
  rcases precedes_iff.1 h with hlt | ⟨hlabel, hrank⟩
  · exact .inl hlt
  · refine .inr ⟨hlabel, Nat.lt_of_le_of_ne hrank fun heq => hne ⟨?_, hlabel⟩⟩
    exact DeclarationKind.rank_injective heq

end Completion

/-- The place lies in a comment of the text.  The end of a line comment still does. -/
def Text.CommentAt (t : Text) (place : Nat) : Prop :=
  ∃ tokens, Token.lex t = .ok tokens ∧ ∃ tok ∈ tokens, ∃ style span,
    tok.comment? = some (.comment style span) ∧ span.start < place ∧
      (place < span.stop ∨ style = .line ∧ place = span.stop)

/-- The way down to the place meets a comment in which the place lies.  The end of a line comment
still does. -/
def Tree.Remarked (tree : Tree) (place : Nat) : Prop :=
  ∃ style span, Item.comment style span ∈ tree.pathAt place ∧ span.start < place ∧
    (place < span.stop ∨ style = .line ∧ place = span.stop)

namespace Completion

variable {s : Snapshot} {items : List Item}

theorem insideComment_iff_remarked {tree : Tree} {place : Nat} :
    insideComment tree place = true ↔ tree.Remarked place := by
  unfold insideComment Tree.Remarked
  rw [List.any_eq_true]
  constructor
  · intro h
    obtain ⟨i, hi, hinside⟩ := h
    cases i with
    | leaf kind span => cases hinside
    | comment style span => exact ⟨style, span, hi, by simpa using hinside⟩
    | node kind span children => cases hinside
  · intro h
    obtain ⟨style, span, hmem, hinside⟩ := h
    exact ⟨.comment style span, hmem, by simpa using hinside⟩

/-- Only a comment of the text keeps completions away. -/
theorem commentAt_of_insideComment {place : Nat} {tokens : List Token}
    (hlex : Token.lex s.text = .ok tokens) (hshaped : ∀ i ∈ items, i.Shaped tokens)
    (h : insideComment (.parsed s items) place = true) : s.text.CommentAt place := by
  obtain ⟨style, span, hmem, hinside⟩ := insideComment_iff_remarked.1 h
  obtain ⟨c, hc, hoccurs⟩ := Item.exists_occurs_of_mem_pathIn hmem
  obtain ⟨tok, htok, hcomment⟩ := (hshaped c hc).comments _ hoccurs rfl
  exact ⟨tokens, hlex, tok, htok, style, span, hcomment, hinside⟩

theorem derive_of_insideComment {live : Text} {position : Nat}
    (h : insideComment (.parsed s items) (min (min position live.length) s.text.length) = true) :
    derive (.parsed s items) live position = [] := by
  unfold derive
  exact if_pos h

theorem mem_derive_iff {live : Text} {position : Nat} {c : Completion}
    (h : insideComment (.parsed s items) (min (min position live.length) s.text.length) = false) :
    let cursor := Cursor.read live (min position live.length)
    let place := min (min position live.length) s.text.length
    c ∈ derive (.parsed s items) live position ↔
      ∃ d, (candidates (.parsed s items) cursor.context place).find? (·.key == d.key) = some d ∧
        c = ofDeclaration cursor d := by
  intro cursor place
  have hderive : derive (.parsed s items) live position = stableSort precedes
      ((firstOfName [] (candidates (.parsed s items) cursor.context place)).map
        (ofDeclaration cursor)) := by
    simp only [derive, Tree.snapshot?, h, Bool.false_eq_true, if_false]
    rfl
  rw [hderive, mem_stableSort, List.mem_map]
  constructor
  · rintro ⟨d, hd, rfl⟩
    exact ⟨d, (mem_firstOfName_iff.1 hd).2, rfl⟩
  · rintro ⟨d, hd, rfl⟩
    exact ⟨d, mem_firstOfName_iff.2 ⟨List.not_mem_nil, hd⟩, rfl⟩

/-- Whatever is offered is declared somewhere in the sheet, and is of a kind that the text in
front of the word asks for. -/
theorem exists_of_mem_derive {tree : Tree} {live : Text} {position : Nat} {c : Completion}
    (h : c ∈ derive tree live position) :
    let cursor := Cursor.read live (min position live.length)
    ∃ d ∈ tree.declarations, cursor.context.admits d.kind = true ∧ c = ofDeclaration cursor d := by
  unfold derive at h
  split at h
  · exact absurd h List.not_mem_nil
  · dsimp only at h
    split at h
    · exact absurd h List.not_mem_nil
    · rw [mem_stableSort] at h
      obtain ⟨d, hd, rfl⟩ := List.mem_map.1 h
      have hcandidate := List.mem_of_find?_eq_some (mem_firstOfName_iff.1 hd).2
      obtain ⟨hdeclared, hknown⟩ := mem_candidates_iff.1 hcandidate
      exact ⟨d, hdeclared, hknown.2, rfl⟩

/-- Whatever is offered is the innermost declaration of its name. -/
theorem exists_prevails_of_mem_derive (hrow : Item.Row s.text 0 s.text.length items)
    (hsize : s.text.length < Declaration.wholeSheet) {live : Text} {position : Nat}
    {c : Completion} (h : c ∈ derive (.parsed s items) live position) :
    let cursor := Cursor.read live (min position live.length)
    let place := min (min position live.length) s.text.length
    ∃ d ∈ (Tree.parsed s items).declarations,
      d.Prevails (Tree.parsed s items).declarations cursor.context place ∧
        c = ofDeclaration cursor d := by
  intro cursor place
  have hinside : insideComment (.parsed s items) place = false := by
    rw [Bool.eq_false_iff]
    intro hinside
    rw [derive_of_insideComment hinside] at h
    exact List.not_mem_nil h
  obtain ⟨d, hfind, rfl⟩ := (mem_derive_iff hinside).1 h
  have hcandidate := mem_candidates_iff.1 (List.mem_of_find?_eq_some hfind)
  exact ⟨d, hcandidate.1, prevails_of_find? hrow hsize hfind, rfl⟩

/-- A name that is known at the place is offered, as its first candidate describes it. -/
theorem exists_mem_derive_of_known {live : Text} {position : Nat} {d : Declaration}
    (h : insideComment (.parsed s items) (min (min position live.length) s.text.length) = false)
    (hd : d ∈ (Tree.parsed s items).declarations) :
    let cursor := Cursor.read live (min position live.length)
    let place := min (min position live.length) s.text.length
    d.Known cursor.context place →
      ∃ e, e.key = d.key ∧ ofDeclaration cursor e ∈ derive (.parsed s items) live position := by
  intro cursor place hknown
  have hcandidate : d ∈ candidates (.parsed s items) cursor.context place :=
    mem_candidates_iff.2 ⟨hd, hknown⟩
  obtain ⟨e, hfind⟩ : ∃ e, (candidates (.parsed s items) cursor.context place).find?
      (·.key == d.key) = some e := by
    refine Option.isSome_iff_exists.1 (List.find?_isSome.2 ⟨d, hcandidate, ?_⟩)
    exact beq_self_eq_true _
  have hfound := List.find?_some hfind
  have hkey : e.key = d.key := beq_iff_eq.1 hfound
  rw [← hkey] at hfind
  exact ⟨e, hkey, (mem_derive_iff h).2 ⟨e, hfind, rfl⟩⟩

/-- Completions come in strict order, so none comes twice. -/
theorem derive_pairwise (tree : Tree) (live : Text) (position : Nat) :
    (derive tree live position).Pairwise Before := by
  unfold derive
  split
  · exact List.Pairwise.nil
  · dsimp only
    split
    · exact List.Pairwise.nil
    · have hdistinct : ∀ (cursor : Cursor) (l : List Declaration),
          ((firstOfName [] l).map (ofDeclaration cursor)).Pairwise
            fun a b => ¬(a.kind = b.kind ∧ a.label = b.label) := by
        intro cursor l
        refine List.pairwise_map.2 (firstOfName_pairwise.imp fun {a b} hkey heq => ?_)
        have hkind : a.kind = b.kind := heq.1
        have hlabel : a.kind.label a.name = b.kind.label b.name := heq.2
        rw [hkind] at hlabel
        exact hkey (Prod.ext hkind (DeclarationKind.label_injective hlabel))
      have hsorted := stableSort_pairwise precedes_total precedes_trans
      have hperm := stableSort_perm precedes
      refine (hsorted _).imp₂ (fun a b hle hne => before_of_precedes hle hne)
        ((hperm _).symm.pairwise (hdistinct _ _) fun {a b} hne heq => ?_)
      exact hne ⟨heq.1.symm, heq.2.symm⟩

theorem eq_of_label {tree : Tree} {live : Text} {position : Nat} {a b : Completion}
    (ha : a ∈ derive tree live position) (hb : b ∈ derive tree live position)
    (hkind : a.kind = b.kind) (hlabel : a.label = b.label) : a = b := by
  rcases eq_or_rel_of_pairwise (derive_pairwise tree live position) ha hb with
    heq | (hlt | ⟨-, hlt⟩) | (hlt | ⟨-, hlt⟩)
  · exact heq
  · exact absurd (hlabel ▸ hlt) (lt_irrefl _)
  · exact absurd (hkind ▸ hlt) (Nat.lt_irrefl _)
  · exact absurd (hlabel ▸ hlt) (lt_irrefl _)
  · exact absurd (hkind ▸ hlt) (Nat.lt_irrefl _)

/-- Scoping.  Outside the comments of a sheet, each name that is known at a place and that the
context asks for is offered once, as its innermost declaration describes it, and nothing
else is offered.  The completions stand in strict order.  A sheet that fits into memory is
shorter than `wholeSheet`. -/
theorem derive_scoping {s : Snapshot} {items : List Item}
    (hparse : Grammar.parse s.text = .ok items) (hsize : s.text.length < Declaration.wholeSheet)
    (live : Text) (position : Nat)
    (hcomment : ¬s.text.CommentAt (min (min position live.length) s.text.length)) :
    let declarations := (Tree.parsed s items).declarations
    let cursor := Cursor.read live (min position live.length)
    let place := min (min position live.length) s.text.length
    let offered := derive (.parsed s items) live position
    (∃ placed, Declaration.Listing none items (Item.walkAll 0 items) placed ∧
        declarations = placed.flatMap (fun e => Declaration.ofItem s.text e.2 e.1) ∧
        ∀ e ∈ placed, ∀ d ∈ Declaration.ofItem s.text e.2 e.1, d.PlacedBy s.text e.2 e.1) ∧
      (∀ d ∈ declarations, d.Known cursor.context place →
        ∃! c, c ∈ offered ∧ c.kind = d.kind ∧ c.label = d.kind.label d.name) ∧
      (∀ c ∈ offered, ∃ d, d.Prevails declarations cursor.context place ∧
        c = ofDeclaration cursor d) ∧
      offered.Pairwise Before := by
  intro declarations cursor place offered
  obtain ⟨hrow, tokens, hlex, hshaped⟩ := Grammar.row_of_parse hparse
  have hinside : insideComment (.parsed s items) place = false :=
    Bool.eq_false_iff.2 fun h => hcomment (commentAt_of_insideComment hlex hshaped h)
  refine ⟨?_, fun d hd hknown => ?_, fun c hc => ?_, derive_pairwise _ _ _⟩
  · obtain ⟨placed, hlisting, hbelow⟩ := Declaration.belowAll_listing s.text 0 none items
    exact ⟨placed, hlisting, hbelow, fun _ _ _ hd => Declaration.placedBy_of_ofItem hd⟩
  · obtain ⟨e, hkey, hoffered⟩ := exists_mem_derive_of_known hinside hd hknown
    obtain ⟨hkind, hname⟩ := Prod.mk.inj hkey
    have hlabel : (ofDeclaration cursor e).label = d.kind.label d.name := by
      show e.kind.label e.name = _
      rw [hkind, hname]
    refine ⟨ofDeclaration cursor e, ⟨hoffered, hkind, hlabel⟩, ?_⟩
    rintro c ⟨hc, hckind, hclabel⟩
    exact eq_of_label hc hoffered (hckind.trans hkind.symm) (hclabel.trans hlabel.symm)
  · obtain ⟨d, -, hprevails, rfl⟩ := exists_prevails_of_mem_derive hrow hsize hc
    exact ⟨d, hprevails, rfl⟩

/-- A variable, a parameter and two variables of one name, each further inside. -/
def shadowed : Text :=
  "$a: 1; @mixin m($a, $c: 2) \x7b $b: 2; x \x7b $a: 3; $a: 4; y: z \x7d \x7d // $d".toList

/-- The same sheet while a value is typed in its inner block. -/
def shadowedLive : Text :=
  "$a: 1; @mixin m($a, $c: 2) \x7b $b: 2; x \x7b $a: 3; $a: 4; y: $".toList

theorem derive_scoping_shadowed :
    ∃ items, Grammar.parse shadowed = .ok items ∧ shadowed.length < Declaration.wholeSheet ∧
      ¬shadowed.CommentAt 58 ∧
      let tree := Tree.parsed ⟨3, .buffer 0, shadowed⟩ items
      let offered := derive tree shadowedLive 60
      offered.map (fun c => (c.label, c.insertion, c.detail)) =
          [("$a".toList, "a".toList, some "3".toList), ("$b".toList, "b".toList, some "2".toList),
            ("$c".toList, "c".toList, some "parameter of m".toList)] ∧
        offered.Pairwise Before ∧
        ∃ c ∈ offered, ∃ d, d.Prevails tree.declarations .variable 58 ∧ c.detail = some "3".toList ∧
          c = ofDeclaration (Cursor.read shadowedLive 58) d := by
  have hread : (match Grammar.parse shadowed with
      | .ok items =>
        (derive (.parsed ⟨3, .buffer 0, shadowed⟩ items) shadowedLive 60).map
            (fun c => (c.label, c.insertion, c.detail)) ==
          [("$a".toList, "a".toList, some "3".toList), ("$b".toList, "b".toList, some "2".toList),
            ("$c".toList, "c".toList, some "parameter of m".toList)]
      | .error _ => false) = true := by decide +kernel
  have hlex : (match Token.lex shadowed with
      | .ok tokens => tokens.all fun tok => tok.comment?.all fun i => 58 ≤ i.start
      | .error _ => false) = true := by decide +kernel
  have hcomment : ¬shadowed.CommentAt 58 := by
    rintro ⟨tokens, htokens, tok, htok, style, span, hcomment, hstart, -⟩
    rw [htokens] at hlex
    have hbehind := List.all_eq_true.1 hlex tok htok
    rw [hcomment, Option.all_some, decide_eq_true_eq] at hbehind
    exact Nat.not_lt.2 hbehind hstart
  cases hparse : Grammar.parse shadowed with
  | error e =>
    rw [hparse] at hread
    exact nomatch hread
  | ok items =>
    rw [hparse] at hread
    have hoffered := eq_of_beq hread
    have hsize : shadowed.length < Declaration.wholeSheet := by decide +kernel
    obtain ⟨-, -, hprevails, hordered⟩ := derive_scoping (s := ⟨3, .buffer 0, shadowed⟩) hparse
      hsize shadowedLive 60 hcomment
    refine ⟨items, rfl, hsize, hcomment, hoffered, hordered, ?_⟩
    have hmem := List.mem_cons_self (a := ("$a".toList, "a".toList, some "3".toList))
      (l := [("$b".toList, "b".toList, some "2".toList),
        ("$c".toList, "c".toList, some "parameter of m".toList)])
    rw [← hoffered] at hmem
    obtain ⟨c, hc, hfields⟩ := List.mem_map.1 hmem
    obtain ⟨d, hd, hcd⟩ := hprevails c hc
    exact ⟨c, hc, d, hd, (Prod.mk.inj (Prod.mk.inj hfields).2).2, hcd⟩

end Completion
end LiveSheet
