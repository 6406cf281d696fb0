import LiveSheet.Proofs.Pairing
import LiveSheet.Proofs.Places

/-!
# Changes that overrun the text

An edit of a buffer that reaches beyond the end of the text is cut off there.  A range from a
client that ends on no line of the text is cut off at its start instead: such a change removes
nothing.  The two come to the same only at the end of the text.
-/

namespace LiveSheet

namespace Buffer

/-- An edit that reaches to the end of the text or beyond it removes all behind its start. -/
theorem applyEdit_past_end {b : Buffer} {e : TextEdit} (h : b.live.text.length ≤ e.stop) :
    (b.applyEdit e).live.text = b.live.text.take e.start ++ e.insertion := by
  have hstop : b.live.text.length ≤ max e.start e.stop := Nat.le_trans h (Nat.le_max_right _ _)
  rw [applyEdit, edit_text, TextEdit.apply, Text.splice, List.drop_eq_nil_of_le hstop,
    List.append_nil]

end Buffer

namespace ContentChange

/-- A range that begins in the text and ends outside of it counts as empty. -/
theorem apply_of_not_holds {t : Text} {start stop : Position} (text : Text)
    (hstart : t.Holds start) (hstop : ¬t.Holds stop) :
    (range start stop text).apply t =
      t.take (t.place start) ++ text ++ t.drop (t.place start) := by
  have hnone : t.offsetOf stop = none := by
    rw [← Option.not_isSome_iff_eq_none, Text.offsetOf_isSome_iff]
    exact hstop
  simp only [apply, Text.offsetOf_eq_place hstart, hnone, Option.getD_some, Option.getD_none,
    Nat.lt_irrefl, if_false]
  rfl

end ContentChange

theorem Text.not_holds_of_length_le {t : Text} {p : Position} (h : t.lines.length ≤ p.line) :
    ¬t.Holds p := by
  intro hholds
  exact Nat.not_lt.2 h hholds.1

namespace Server

/-- A change of an open document that begins in the text and ends behind its last line writes its
text where it begins and removes nothing.  An edit of a buffer from the same place to any offset
beyond the end removes all behind that place, so the two texts are the same exactly if the
place is the end of the text. -/
theorem didChange_past_end (settings : Settings) (events : List Event) {uri : String}
    {live : Snapshot} (hopen : (after settings events).liveSnapshot? uri = some live)
    {earlier : List ContentChange} {t : Text} (ht : earlier.foldl ContentChange.apply live.text = t)
    {start stop : Position} (hstart : t.Holds start) (hstop : t.lines.length ≤ stop.line)
    (text : Text) :
    let changed := (after settings events).didChange uri (earlier ++ [.range start stop text])
    let offset := t.place start
    ∃ next, changed.liveSnapshot? uri = some next ∧ next.version = live.version + 1 ∧
      next.text = t.take offset ++ text ++ t.drop offset ∧
      ∀ (b : Buffer) (reach : Nat), b.live.text = t → t.length ≤ reach →
        (b.applyEdit ⟨offset, reach, text⟩).live.text = t.take offset ++ text ∧
          (next.text = (b.applyEdit ⟨offset, reach, text⟩).live.text ↔ offset = t.length) := by
  intro changed offset
  have htouches := (didChange_touches (after_orderly settings events) uri
    (earlier ++ [.range start stop text])).here
  have hshown : (after settings events).shown uri = some live.shown := by
    show ((after settings events).liveSnapshot? uri).map Snapshot.shown = _
    rw [hopen]
    rfl
  rw [hshown, Option.map_some] at htouches
  obtain ⟨next, hnext, hfields⟩ := Option.map_eq_some_iff.1 htouches
  have htext : next.text = t.take offset ++ text ++ t.drop offset := by
    have happly := ContentChange.apply_of_not_holds text hstart (Text.not_holds_of_length_le hstop)
    have hlast : next.text =
        (earlier ++ [ContentChange.range start stop text]).foldl ContentChange.apply live.text :=
      congrArg Shown.text hfields
    rw [hlast, List.foldl_append, ht]
    exact happly
  refine ⟨next, hnext, congrArg Shown.version hfields, htext, ?_⟩
  intro b reach hb hreach
  have hcut : (b.applyEdit ⟨offset, reach, text⟩).live.text = t.take offset ++ text := by
    rw [Buffer.applyEdit_past_end (by rw [hb]; exact hreach), hb]
  refine ⟨hcut, ?_⟩
  have hoffset : offset ≤ t.length := Text.place_le_length hstart
  rw [htext, hcut, List.append_right_eq_self, List.drop_eq_nil_iff]
  exact ⟨fun hle => Nat.le_antisymm hoffset hle, fun heq => Nat.le_of_eq heq.symm⟩

/-- A document of two lines. -/
def twoLines : Text := ['x', '\n', 'y']

/-- The changes up to the last one make a text of one line, at whose end the last one begins. -/
theorem didChange_past_end_oneLine :
    let s := after .standard [.notified (.opened "a" twoLines)]
    let changes : List ContentChange := [.range ⟨0, 1⟩ ⟨1, 1⟩ []]
    s.liveSnapshot? "a" = some ⟨0, .buffer 0, twoLines⟩ ∧
      changes.foldl ContentChange.apply twoLines = ['x'] ∧
      Text.Holds ['x'] ⟨0, 1⟩ ∧ Text.lines ['x'] = [['x']] ∧
      ∃ next, (s.didChange "a" (changes ++ [.range ⟨0, 1⟩ ⟨1, 0⟩ ['z']])).liveSnapshot? "a" =
          some next ∧
        next.version = 1 ∧ next.text = ['x', 'z'] ∧
        next.text = ((Buffer.create 0 0 none ['x']).applyEdit ⟨1, 9, ['z']⟩).live.text := by
  intro s changes
  have hopen : s.liveSnapshot? "a" = some ⟨0, .buffer 0, twoLines⟩ := by rfl
  have hearlier : changes.foldl ContentChange.apply twoLines = ['x'] := by decide +kernel
  have hstart : Text.Holds ['x'] ⟨0, 1⟩ := by decide +kernel
  have hlines : Text.lines ['x'] = [['x']] := by decide +kernel
  have hstop : (Text.lines ['x']).length ≤ (⟨1, 0⟩ : Position).line := by
    rw [hlines]
    decide
  obtain ⟨next, hnext, hversion, htext, hedit⟩ :=
    didChange_past_end .standard _ hopen hearlier hstart hstop ['z']
  refine ⟨hopen, hearlier, hstart, hlines, next, hnext, hversion, htext, ?_⟩
  exact ((hedit (Buffer.create 0 0 none ['x']) 9 rfl (by decide)).2).2 rfl

/-- A change from the first line of a document to a line behind its last one leaves all that it was
to remove. -/
theorem didChange_keeps_rest :
    let s := after .standard [.notified (.opened "a" twoLines)]
    s.liveSnapshot? "a" = some ⟨0, .buffer 0, twoLines⟩ ∧ twoLines.Holds ⟨0, 1⟩ ∧
      twoLines.lines.length ≤ 9 ∧
      (s.didChange "a" [.range ⟨0, 1⟩ ⟨9, 0⟩ ['z']]).liveSnapshot? "a" =
        some ⟨1, .buffer 0, ['x', 'z', '\n', 'y']⟩ ∧
      ((Buffer.create 0 0 none twoLines).applyEdit ⟨1, 9, ['z']⟩).live.text = ['x', 'z'] := by
  refine ⟨rfl, by decide +kernel, by decide +kernel, rfl, by decide⟩

end Server
end LiveSheet
