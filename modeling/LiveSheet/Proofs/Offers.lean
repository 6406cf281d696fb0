import LiveSheet.Proofs.Client
import LiveSheet.Proofs.Completions
import LiveSheet.Proofs.Words

/-!
# Offers

When an editor takes an offer, it writes the text of the offer over the word at the cursor.
Then the label of the offer stands where the word stood, together with a sigil that was
typed in front of the word, however much the tree lags behind the text.
-/

namespace LiveSheet

namespace Cursor

theorem contextAt_eq_variable_iff {t : Text} {offset : Nat} :
    contextAt t offset = .variable ↔
      0 < offset ∧ t[offset - 1]? = some Declaration.sigil := by
  unfold contextAt
  constructor
  · intro h
    by_contra hnot
    rw [if_neg hnot] at h
    split at h <;> exact nomatch h
  · intro h
    rw [if_pos h]

end Cursor

/-- Where a name begins whose word begins at the offset.  A sigil in front of the word is part
of the name. -/
def Text.nameStart (t : Text) (offset : Nat) : Nat :=
  if 0 < offset ∧ t[offset - 1]? = some Declaration.sigil then offset - 1 else offset

theorem Text.nameStart_le (t : Text) (offset : Nat) : t.nameStart offset ≤ offset := by
  unfold nameStart
  split
  · exact Nat.sub_le offset 1
  · exact Nat.le_refl offset

theorem Text.slice_take_append {t : Text} {start : Nat} (h : start ≤ t.length) (l rest : Text) :
    Text.slice (t.take start ++ l ++ rest) start l.length = l := by
  rw [Text.slice, List.append_assoc, List.drop_left' (List.length_take_of_le h)]
  exact List.take_left

/-- An editor can name the range of a word at a place that it shows.  The range lies on the line
of the place and holds the place, and what is written over it stands for the word. -/
theorem Text.WordAround.apply_range {t : Text} {p : Position} {word : Span}
    (hword : t.WordAround (t.place p) word) (h : t.Shows p) (hlength : t.length < Position.limit)
    (text : Text) :
    ∃ first last, t.rangeOf word = some ⟨⟨p.line, first⟩, ⟨p.line, last⟩⟩ ∧
      first ≤ p.column ∧ p.column ≤ last ∧
      ContentChange.apply t (.range ⟨p.line, first⟩ ⟨p.line, last⟩ text) =
        t.take word.start ++ text ++ t.drop word.stop := by
  obtain ⟨first, last, hrange, hfirst, hlast, hshows, hshows', hstart, hstop⟩ :=
    hword.exists_range h hlength
  have hfits : ContentChange.Fits t (.range ⟨p.line, first⟩ ⟨p.line, last⟩ text) :=
    ⟨.inr ⟨rfl, Nat.le_trans hfirst hlast⟩, hshows.holds, hshows'.holds⟩
  refine ⟨first, last, hrange, hfirst, hlast, ?_⟩
  rw [ContentChange.apply_eq_made hfits, ContentChange.made, hstart, hstop]

namespace Completion

/-- What is inserted at the word makes the label, with the sigil that stands before it. -/
theorem take_append_insertion {t : Text} {cursor : Cursor} {d : Declaration}
    (hcursor : cursor.context = Cursor.contextAt t cursor.word.start)
    (hadmits : cursor.context.admits d.kind = true) :
    t.take cursor.word.start ++ (ofDeclaration cursor d).insertion =
      t.take (t.nameStart cursor.word.start) ++ (ofDeclaration cursor d).label := by
  by_cases hsigil : 0 < cursor.word.start ∧ t[cursor.word.start - 1]? = some Declaration.sigil
  · have hcontext : cursor.context = .variable :=
      hcursor.trans (Cursor.contextAt_eq_variable_iff.2 hsigil)
    have hkind : d.kind = .variable := by
      rw [hcontext] at hadmits
      exact eq_of_beq hadmits
    have htake : t.take cursor.word.start =
        t.take (cursor.word.start - 1) ++ [Declaration.sigil] := by
      conv_lhs => rw [← Nat.sub_add_cancel hsigil.1, List.take_add_one, hsigil.2]
      rfl
    simp only [ofDeclaration, hcontext, hkind, if_true, Text.nameStart, if_pos hsigil, htake,
      List.append_assoc, List.singleton_append]
  · have hcontext : cursor.context ≠ .variable := fun h =>
      hsigil (Cursor.contextAt_eq_variable_iff.1 (hcursor.symm.trans h))
    simp only [ofDeclaration, if_neg hcontext, Text.nameStart, if_neg hsigil]

end Completion

namespace Offer

/-- Taking an offer writes its label.  At a place that the editor shows in a text of fewer than
`2 ^ 32` characters, each offer has a range, which lies on the line of the place and holds the
place.  When the editor replaces the range by the text of the offer, that text stands for the
word at the place, and the label stands where the name began: a sigil in front of the word is
neither doubled nor lost. -/
theorem commit_writes_label (tree : Tree) (live : Text) (place : Position)
    (settings : CompletionSettings) (hplace : live.Shows place)
    (hlength : live.length < Position.limit) :
    let offset := live.place place
    let word := Cursor.wordAt live offset
    live.offsetOf place = some offset ∧ live.WordAround offset word ∧
      ∀ offer ∈ all tree live place settings, ∃ first last,
        offer.range = some ⟨⟨place.line, first⟩, ⟨place.line, last⟩⟩ ∧
        first ≤ place.column ∧ place.column ≤ last ∧
        let written := ContentChange.apply live
          (.range ⟨place.line, first⟩ ⟨place.line, last⟩ offer.insertion)
        written = live.take word.start ++ offer.insertion ++ live.drop word.stop ∧
        written = live.take (live.nameStart word.start) ++ offer.label ++ live.drop word.stop ∧
        written.slice (live.nameStart word.start) offer.label.length = offer.label := by
  intro offset word
  have hoffset : live.offsetOf place = some offset := Text.offsetOf_eq_place hplace.holds
  have hle : offset ≤ live.length := Text.place_le_length hplace.holds
  have hword : live.WordAround offset word := Text.wordAround_wordAt hle
  refine ⟨hoffset, hword, fun offer hoffer => ?_⟩
  rw [all, hoffset, Option.getD_some] at hoffer
  obtain ⟨c, hc, rfl⟩ := List.mem_map.1 hoffer
  obtain ⟨d, -, hadmits, rfl⟩ := Completion.exists_of_mem_derive hc
  rw [Nat.min_eq_left hle] at hadmits ⊢
  obtain ⟨first, last, hrange, hfirst, hlast, hwritten⟩ := hword.apply_range hplace hlength
    (Completion.ofDeclaration (Cursor.read live offset) d).insertion
  have hlabel := hwritten.trans (congrArg (· ++ live.drop word.stop)
    (Completion.take_append_insertion (t := live) rfl hadmits))
  refine ⟨first, last, hrange, hfirst, hlast, hwritten, hlabel, ?_⟩
  have hstart : live.nameStart word.start ≤ live.length :=
    Nat.le_trans (live.nameStart_le _) (Nat.le_trans hword.start_le hle)
  exact (congrArg (Text.slice · _ _) hlabel).trans (Text.slice_take_append hstart _ _)

/-- A sheet as it was parsed. -/
def laggingSheet : Text := "$primary: red;\r\n.a \x7b color:  \x7d".toList

/-- The same sheet with a sigil and the beginning of a name, typed after the parse. -/
def laggingLive : Text := "$primary: red;\r\n.a \x7b color: $pr \x7d".toList

theorem commit_writes_label_lagging :
    ∃ items, Grammar.parse laggingSheet = .ok items ∧ laggingLive.Shows ⟨1, 14⟩ ∧
      let offered := all (.parsed ⟨1, .buffer 0, laggingSheet⟩ items) laggingLive ⟨1, 14⟩ .standard
      offered.map (fun o => (o.label, o.insertion)) = [("$primary".toList, "primary".toList)] ∧
      ∀ offer ∈ offered, ∃ first last,
        offer.range = some ⟨⟨1, first⟩, ⟨1, last⟩⟩ ∧ first ≤ 14 ∧ 14 ≤ last ∧
        ContentChange.apply laggingLive (.range ⟨1, first⟩ ⟨1, last⟩ offer.insertion) =
          "$primary: red;\r\n.a \x7b color: $primary \x7d".toList := by
  have hread : (Grammar.parse laggingSheet).toOption.map (fun items =>
      (all (.parsed ⟨1, .buffer 0, laggingSheet⟩ items) laggingLive ⟨1, 14⟩ .standard).map
        fun o => (o.label, o.insertion)) =
      some [("$primary".toList, "primary".toList)] := by decide +kernel
  have hshows : laggingLive.Shows ⟨1, 14⟩ := by decide +kernel
  cases hparse : Grammar.parse laggingSheet with
  | error e =>
    rw [hparse] at hread
    exact nomatch hread
  | ok items =>
    rw [hparse] at hread
    have hoffered :
        (all (.parsed ⟨1, .buffer 0, laggingSheet⟩ items) laggingLive ⟨1, 14⟩ .standard).map
          (fun o => (o.label, o.insertion)) = [("$primary".toList, "primary".toList)] :=
      Option.some.inj hread
    obtain ⟨-, -, hcommit⟩ := commit_writes_label (.parsed ⟨1, .buffer 0, laggingSheet⟩ items)
      laggingLive ⟨1, 14⟩ .standard hshows (by decide +kernel)
    refine ⟨items, rfl, hshows, hoffered, fun offer hoffer => ?_⟩
    obtain ⟨first, last, hrange, hfirst, hlast, hwritten, -, -⟩ := hcommit offer hoffer
    refine ⟨first, last, hrange, hfirst, hlast, hwritten.trans ?_⟩
    have hmem := List.mem_map_of_mem (f := fun o => (o.label, o.insertion)) hoffer
    rw [hoffered, List.mem_singleton] at hmem
    rw [(Prod.mk.inj hmem).2]
    decide +kernel

end Offer
end LiveSheet
