import LiveSheet.Proofs.Layout
import LiveSheet.Proofs.Reading

/-!
# Coverage

Nothing of a sheet is lost or read twice.  The invariant looks at a reading as one row of
spans: the complete items around each open block, the head and the brace of that block,
the complete items inside it, and the tokens that are left.  This row tiles the text
at the start, and each step only joins neighbours in it.
-/

namespace LiveSheet

/-- A block stands from brace to brace, and its children tile what lies between. -/
structure Item.Braced (t : Text) (i : Item) : Prop where
  opened : t[i.start]? = some '\x7b'
  closed : t[i.stop - 1]? = some '\x7d'
  tiling : t.Tiling (i.start + 1) (i.stop - 1) (i.children.map Item.span)

def Item.SoundIn (t : Text) (i : Item) : Prop := i.kind? = some .block → i.Braced t

theorem Item.throughout_soundIn {i : Item} {ts : List Token} (t : Text)
    (h : i.Throughout (Plain ts)) : i.Throughout (SoundIn t) :=
  h.imp fun _ hplain hblock => absurd hblock hplain.not_block

/-- The block between two braces, if its children tile what lies between them. -/
theorem Item.braced_of_tokens {t : Text} {brace close : Token} {children : List Item}
    (hbrace : brace.StandsIn t) (hopen : brace.lexeme = ['\x7b'])
    (hstands : close.StandsIn t) (hclose : close.lexeme = ['\x7d'])
    (hinner : t.Tiling brace.stop close.start (children.map Item.span)) :
    (Item.node .block (brace.span.cover close.span) children).Braced t := by
  obtain ⟨hbstop, hbchar⟩ := hbrace.getElem? hopen
  obtain ⟨hcstop, hcchar⟩ := hstands.getElem? hclose
  have hbounds := hinner.bounds
  have hstart : min brace.start close.start = brace.start := Nat.min_eq_left (by omega)
  have hstop : max brace.stop close.stop = close.stop := Nat.max_eq_right (by omega)
  refine ⟨?_, ?_, ?_⟩
  · show t[min brace.start close.start]? = _
    rw [hstart]
    exact hbchar
  · show t[max brace.stop close.stop - 1]? = _
    rw [hstop, hcstop]
    exact hcchar
  · show t.Tiling (min brace.start close.start + 1) (max brace.stop close.stop - 1) _
    rw [hstart, hstop, ← hbstop, hcstop]
    exact hinner

namespace Grammar

def OpenBlock.spans (b : OpenBlock) : List Span :=
  b.before.reverse.map Item.span ++
    ((Span.coverAll (b.head.map Item.span)).toList ++ [b.brace.span])

theorem OpenBlock.coverAll_close (b : OpenBlock) (items : List Item) (close : Token) :
    Span.coverAll ((b.head ++
      [Item.node .block (b.brace.span.cover close.span) items.reverse]).map Item.span) =
      some (b.close items close).span :=
  Item.coverAll_gather b.kind (List.append_ne_nil_of_right_ne_nil _ (List.cons_ne_nil _ _))

theorem OpenBlock.close_span (b : OpenBlock) (items : List Item) (close : Token) :
    some (b.close items close).span =
      (Span.coverAll (b.head.map Item.span)).merge Span.cover
        (some (b.brace.span.cover close.span)) := by
  rw [← coverAll_close, List.map_append, Span.coverAll_append]
  rfl

/-- What is known of an open block: how it was opened, and that the items around it are
sound. -/
structure OpenBlock.SoundIn (t : Text) (b : OpenBlock) : Prop where
  kind : b.kind ≠ .block
  stands : b.brace.StandsIn t
  lexeme : b.brace.lexeme = ['\x7b']
  head : ∀ i ∈ b.head, i.Throughout (Item.SoundIn t)
  before : ∀ i ∈ b.before, i.Throughout (Item.SoundIn t)

theorem OpenBlock.SoundIn.close {t : Text} {b : OpenBlock} {items : List Item} {close : Token}
    (h : b.SoundIn t) (hitems : ∀ i ∈ items, i.Throughout (Item.SoundIn t))
    (hstands : close.StandsIn t) (hclose : close.lexeme = ['\x7d'])
    (hinner : t.Tiling b.brace.stop close.start (items.reverse.map Item.span)) :
    (b.close items close).Throughout (Item.SoundIn t) := by
  have hblock : (Item.node .block (b.brace.span.cover close.span) items.reverse).Throughout
      (Item.SoundIn t) :=
    Item.throughout_node
      (fun _ => Item.braced_of_tokens h.stands h.lexeme hstands hclose hinner)
      fun c hc => hitems c (List.mem_reverse.1 hc)
  refine Item.throughout_gather (fun hkind => absurd (Option.some.inj hkind) h.kind) ?_
  intro c hc
  rcases List.mem_append.1 hc with hc | hc
  · exact h.head c hc
  · rw [List.mem_singleton.1 hc]
    exact hblock

namespace Reading

/-- What a reading has before it and behind it, from left to right. -/
def spans (r : Reading) : List Span :=
  r.blocks.reverse.flatMap OpenBlock.spans ++
    (r.items.reverse.map Item.span ++ r.rest.map Token.span)

structure Covers (t : Text) (r : Reading) : Prop where
  tiling : t.Tiling 0 t.length r.spans
  tokens : ∀ tok ∈ r.rest, tok.StandsIn t ∧ tok.BraceKind
  blocks : ∀ b ∈ r.blocks, b.SoundIn t
  items : ∀ i ∈ r.items, i.Throughout (Item.SoundIn t)

variable {t : Text} {r next : Reading} {item : Item} {rest : List Token}

theorem start_covers {tokens : List Token} (h : Token.lex t = .ok tokens) :
    (start tokens).Covers t := by
  obtain ⟨htiling, hall⟩ := Token.lex_tiling h
  exact ⟨htiling, hall, List.forall_mem_nil _, List.forall_mem_nil _⟩

theorem Covers.push (h : r.Covers t) (hmade : MadeOf r.rest [item] rest) :
    Covers t ⟨r.blocks, item :: r.items, rest⟩ := by
  obtain ⟨⟨run, hrun, hcover, -⟩, hplain⟩ := hmade
  refine ⟨?_, fun tok htok => h.tokens tok ?_, h.blocks, ?_⟩
  · have htiling := h.tiling
    rw [spans, hrun, List.map_append, ← List.append_assoc] at htiling
    have hjoined := htiling.join_within hcover
    rw [spans, List.reverse_cons, List.map_append, List.append_assoc, ← List.append_assoc]
    exact hjoined
  · rw [hrun]
    exact List.mem_append_right _ htok
  · exact List.forall_mem_cons.2 ⟨Item.throughout_soundIn t
      (hplain item (List.mem_singleton_self _)), h.items⟩

theorem Covers.opened {kind : ItemKind} {head : List Item} {brace : Token} (h : r.Covers t)
    (hkind : kind ≠ .block) (hbrace : brace.kind = .openBrace)
    (hmade : MadeOf r.rest head (brace :: rest)) :
    Covers t ⟨⟨kind, head, brace, r.items⟩ :: r.blocks, [], rest⟩ := by
  obtain ⟨⟨run, hrun, hcover, -⟩, hplain⟩ := hmade
  have hmem : ∀ tok ∈ brace :: rest, tok ∈ r.rest := by
    intro tok htok
    rw [hrun]
    exact List.mem_append_right _ htok
  obtain ⟨hstands, hlexeme⟩ := h.tokens brace (hmem brace List.mem_cons_self)
  refine ⟨?_, fun tok htok => h.tokens tok (hmem tok (List.mem_cons_of_mem _ htok)),
    List.forall_mem_cons.2 ⟨⟨hkind, hstands, hlexeme.1 hbrace, fun i hi => ?_, h.items⟩, h.blocks⟩,
    List.forall_mem_nil _⟩
  · have htiling := h.tiling
    rw [spans, hrun, List.map_append, ← List.append_assoc] at htiling
    have hjoined := htiling.join_within hcover
    simpa [spans, OpenBlock.spans, List.append_assoc] using hjoined
  · exact Item.throughout_soundIn t (hplain i hi)

theorem Covers.closed {b : OpenBlock} {outer : List OpenBlock} {close : Token}
    (h : r.Covers t) (hblocks : r.blocks = b :: outer) (hclose : close.kind = .closeBrace)
    (hrest : r.rest = close :: rest) :
    Covers t ⟨outer, b.close r.items close :: b.before, rest⟩ := by
  obtain ⟨htiling, htokens, hsound, hitems⟩ := h
  rw [hblocks] at hsound
  rw [hrest] at htokens
  obtain ⟨hb, hsound⟩ := List.forall_mem_cons.1 hsound
  obtain ⟨⟨hstands, hlexeme⟩, htokens⟩ := List.forall_mem_cons.1 htokens
  -- the row, parted where the head of the block begins
  have hrow : t.Tiling 0 t.length
      ((outer.reverse.flatMap OpenBlock.spans ++ b.before.reverse.map Item.span) ++
        ((Span.coverAll (b.head.map Item.span)).toList ++ b.brace.span ::
          (r.items.reverse.map Item.span ++ close.span :: rest.map Token.span))) := by
    simpa [spans, OpenBlock.spans, hblocks, hrest, List.append_assoc] using htiling
  obtain ⟨hinner, hjoined⟩ := hrow.join_around
  rw [← OpenBlock.close_span] at hjoined
  refine ⟨?_, htokens, hsound, List.forall_mem_cons.2 ⟨?_, hb.before⟩⟩
  · simpa [spans, List.append_assoc] using hjoined
  · exact hb.close hitems hstands (hlexeme.2 hclose) hinner

theorem Covers.step (h : r.Covers t) (hstep : r.step = .more next) : next.Covers t := by
  cases next_of_step hstep with
  | item hmade => exact h.push hmade
  | opened _ hkind hbrace hmade => exact h.opened hkind hbrace hmade
  | closed hblocks hclose hrest => exact h.closed hblocks hclose hrest

theorem Covers.run {items : List Item} (h : r.Covers t) (hrun : r.run = .ok items) :
    t.Tiling 0 t.length (items.map Item.span) ∧ ∀ i ∈ items, i.Throughout (Item.SoundIn t) := by
  fun_induction Reading.run r with
  | case1 r items' hstep =>
    cases hrun
    have hr := finished_of_step hstep
    subst hr
    have htiling := h.tiling
    rw [spans, List.reverse_reverse] at htiling
    refine ⟨by simpa using htiling, fun i hi => h.items i (List.mem_reverse.2 hi)⟩
  | case2 r e hstep => cases hrun
  | case3 r next hstep ih => exact ih (h.step hstep) hrun

end Reading

/-- Coverage.  The items of a sheet tile its text.  Every block in the tree stands from brace
to brace, and its children tile what lies between its braces. -/
theorem parse_tiling (t : Text) (items : List Item) (h : parse t = .ok items) :
    t.Tiling 0 t.length (items.map Item.span) ∧
      ∀ e ∈ Item.walkAll 0 items, e.2.kind? = some .block → e.2.Braced t := by
  unfold parse at h
  cases htokens : Token.lex t with
  | error e => rw [htokens] at h; exact nomatch h
  | ok tokens =>
    rw [htokens] at h
    obtain ⟨htiling, hsound⟩ := (Reading.start_covers htokens).run h
    refine ⟨htiling, fun e he => ?_⟩
    obtain ⟨i, hi, hoccurs⟩ := Item.exists_occurs_of_mem_walkAll he
    exact hsound i hi e.2 hoccurs

/-- A rule inside a rule, with comments around the inner one. -/
def nested : Text := "a \x7b /*x*/ b\x7bc: d\x7d //y\n\x7d ;".toList

theorem parse_tiling_nested :
    ∃ items, parse nested = .ok items ∧ nested.Tiling 0 25 (items.map Item.span) ∧
      ∃ e ∈ Item.walkAll 0 items, e.2.start = 11 ∧ e.2.stop = 17 ∧ e.2.Braced nested := by
  have hread : (match parse nested with
      | .ok items => (Item.walkAll 0 items).any fun e =>
          e.2.start == 11 && e.2.stop == 17 && e.2.kind? == some .block
      | .error _ => false) = true := by decide +kernel
  cases hparse : parse nested with
  | error e =>
    rw [hparse] at hread
    exact nomatch hread
  | ok items =>
    rw [hparse] at hread
    obtain ⟨htiling, hblocks⟩ := parse_tiling nested items hparse
    obtain ⟨e, he, hends⟩ := List.any_eq_true.1 hread
    simp only [Bool.and_eq_true, beq_iff_eq] at hends
    exact ⟨items, rfl, htiling, e, he, hends.1.1, hends.1.2, hblocks e he hends.2⟩

end Grammar
end LiveSheet
