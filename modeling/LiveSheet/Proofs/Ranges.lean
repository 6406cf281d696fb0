import LiveSheet.Proofs.Blanking
import LiveSheet.Proofs.Outline

/-!
# Ranges in outlines

Editors refuse an outline in which a symbol has no name, is selected outside of its range, or
holds or overlaps what it should not.  The ranges of symbols lie as the spans of their items do,
because places ascend with offsets, as far as they fit into 32 bits.
-/

namespace LiveSheet

namespace Position

variable {p q : Position}

theorem Before.upTo (h : p.Before q) : p.UpTo q := by
  unfold Before at h
  unfold UpTo
  omega

theorem upTo_refl (p : Position) : p.UpTo p := .inr ⟨rfl, Nat.le_refl _⟩

end Position

namespace Range

/-- The first range lies in the second one. -/
structure Within (inner outer : Range) : Prop where
  start : outer.start.UpTo inner.start
  stop : inner.stop.UpTo outer.stop

/-- The first range begins in front of the second one and is over when that begins. -/
structure Precedes (a b : Range) : Prop where
  start : a.start.Before b.start
  stop : a.stop.UpTo b.start

end Range

namespace Text

variable {t : Text} {s u : Span} {r q : Range}

section

variable (hlength : t.length < Position.limit)
include hlength

theorem before_of_lt {offset other : Nat} {p p' : Position} (hp : t.positionOf offset = some p)
    (hp' : t.positionOf other = some p') (h : offset < other) : p.Before p' := by
  obtain ⟨-, rfl⟩ := (positionOf_eq_some_iff hlength).1 hp
  obtain ⟨hproper, rfl⟩ := (positionOf_eq_some_iff hlength).1 hp'
  exact before_of_place_lt hproper.holds h

theorem upTo_of_le {offset other : Nat} {p p' : Position} (hp : t.positionOf offset = some p)
    (hp' : t.positionOf other = some p') (h : offset ≤ other) : p.UpTo p' := by
  rcases Nat.eq_or_lt_of_le h with rfl | hlt
  · rw [hp] at hp'
    cases hp'
    exact p.upTo_refl
  · exact (before_of_lt hlength hp hp' hlt).upTo

theorem rangeOf_within (hr : t.rangeOf s = some r) (hq : t.rangeOf u = some q)
    (h : s.Within u) : r.Within q := by
  obtain ⟨hrstart, hrstop⟩ := rangeOf_eq_some_iff.1 hr
  obtain ⟨hqstart, hqstop⟩ := rangeOf_eq_some_iff.1 hq
  exact ⟨upTo_of_le hlength hqstart hrstart h.1, upTo_of_le hlength hrstop hqstop h.2⟩

theorem rangeOf_precedes (hr : t.rangeOf s = some r) (hq : t.rangeOf u = some q)
    (hne : s.start < s.stop) (h : s.stop ≤ u.start) : r.Precedes q := by
  obtain ⟨hrstart, hrstop⟩ := rangeOf_eq_some_iff.1 hr
  obtain ⟨hqstart, -⟩ := rangeOf_eq_some_iff.1 hq
  exact ⟨before_of_lt hlength hrstart hqstart (Nat.lt_of_lt_of_le hne h),
    upTo_of_le hlength hrstop hqstart h⟩

end

/-- Editors are told the offsets themselves as columns of a text that is one line. -/
theorem positionOf_of_no_break {offset : Nat}
    (h : ∀ c ∈ t, isLineBreak c = false) (hle : offset ≤ t.length) :
    t.positionOf offset = some ⟨0, offset % Position.limit⟩ := by
  have hlines : t.lines = [t] := lines_of_no_break h
  have hproper : t.Proper ⟨0, offset⟩ := by
    unfold Proper
    rw [hlines]
    exact ⟨Nat.one_pos, .inr ⟨rfl, hle⟩⟩
  have hplace : t.place ⟨0, offset⟩ = offset := Nat.zero_add offset
  have hlocation := locationOf_place hproper
  rw [hplace] at hlocation
  rw [positionOf, hlocation]
  rfl

/-- A text that begins with something is not trimmed away. -/
theorem trim_ne_nil {c : Char} {rest : Text} (h : isBlank c = false) : trim (c :: rest) ≠ [] := by
  rw [trim, List.dropWhile_cons_of_neg (Bool.eq_false_iff.1 h)]
  obtain ⟨gap, htext, hblank⟩ := exists_append_trimEnd (c :: rest)
  intro hnil
  rw [hnil, List.nil_append] at htext
  have hc := hblank c (htext ▸ List.mem_cons_self)
  exact Bool.false_ne_true (h.symm.trans hc)

end Text

namespace Item

/-- The first item is not empty, and the second one stands behind it. -/
def Precedes (a b : Item) : Prop := a.start < a.stop ∧ a.stop ≤ b.start

/-- The item shows some text, and its parts lie in it.  If it is a block, they lie one behind the
other. -/
structure Laid (source : Text) (i : Item) : Prop where
  text : i.textIn source ≠ []
  arranged : i.Arranged
  stacked : i.IsBlock → i.children.Pairwise Precedes

variable {source : Text} {tokens : List Token} {i : Item}

theorem precedes_of_tiling {lo hi : Nat} {items : List Item}
    (h : source.Tiling lo hi (items.map span)) : items.Pairwise Precedes :=
  (List.pairwise_map.1 h.ordered).imp_of_mem fun ha _ hle =>
    ⟨(h.inside _ (List.mem_map_of_mem ha)).2.1, hle⟩

/-- What begins with a token shows at least the first character of it. -/
theorem textIn_ne_nil (hlex : Token.lex source = .ok tokens) (hends : i.span.Ends tokens)
    (hne : i.start < i.stop) : i.textIn source ≠ [] := by
  obtain ⟨⟨tok, htok, hstart⟩, -⟩ := hends
  obtain ⟨c, rest, more, hdrop, hscan, -⟩ := Token.lex_found hlex tok htok
  have hfirst : source.drop i.start = c :: rest := by
    rw [← hdrop, hstart]
    rfl
  have hlength : i.span.length = i.span.length - 1 + 1 := by
    have hpos : i.span.start < i.span.stop := hne
    rw [Span.length]
    omega
  rw [textIn, Text.slice, hfirst, hlength, List.take_succ_cons]
  exact Text.trim_ne_nil (Token.scan_not_blank hscan)

end Item

namespace Symbol

def name : Symbol → Text
  | entry name _ _ _ _ _ => name

def range : Symbol → Range
  | entry _ _ _ range _ _ => range

def nameRange : Symbol → Range
  | entry _ _ _ _ nameRange _ => nameRange

/-- What editors ask of a symbol and of those right below it. -/
structure Valid (s : Symbol) : Prop where
  name : s.name ≠ []
  nameRange : s.nameRange.Within s.range
  within : ∀ c ∈ s.children, c.range.Within s.range
  ordered : s.children.Pairwise fun a b => a.range.Precedes b.range

variable {source : Text} {i : Item} {items : List Item} {s : Symbol} {below : List Symbol}

/-- What the symbol of an item shows of it. -/
theorem shows_of_ofItem? (h : ofItem? source i below = some s) :
    source.rangeOf i.span = some s.range ∧ ∃ name, Item.Occurs name i ∧
      s.name = name.textIn source ∧ source.rangeOf name.span = some s.nameRange := by
  unfold ofItem? at h
  simp only [Option.bind_eq_bind, Option.bind_eq_some_iff] at h
  obtain ⟨⟨name, shown⟩, hname, range, hrange, nameRange, hnameRange, hs⟩ := h
  cases hs
  exact ⟨hrange, name, occurs_of_naming? hname, rfl, hnameRange⟩

theorem rangeOf_of_below? (h : below? source i = some s) :
    source.rangeOf i.span = some s.range := by
  rw [below?_eq] at h
  exact (shows_of_ofItem? h).1

theorem belowAll_eq_filterMap (source : Text) (items : List Item) :
    belowAll source items = items.filterMap (below? source) := by
  induction items with
  | nil => rw [belowAll, List.filterMap_nil]
  | cons i rest ih =>
    rw [belowAll, ih, List.filterMap_cons]
    cases below? source i <;> rfl

/-- In a block are the symbols of its items. -/
theorem inBlock_eq (source : Text) (items : List Item) :
    inBlock source items = [] ∨ ∃ span children, .node .block span children ∈ items ∧
      inBlock source items = belowAll source children := by
  induction items with
  | nil => exact .inl (by rw [inBlock])
  | cons i rest ih =>
    rw [inBlock.eq_def]
    split
    · exact .inl rfl
    · rename_i span children rest' hitems
      exact .inr ⟨span, children, hitems ▸ List.mem_cons_self, rfl⟩
    · exact .inl rfl
    · rename_i hitems
      cases hitems
      refine ih.imp_right ?_
      rintro ⟨span, children, hmem, hsymbols⟩
      exact ⟨span, children, List.mem_cons_of_mem _ hmem, hsymbols⟩

theorem belowAll_precedes (hlength : source.length < Position.limit)
    (h : items.Pairwise Item.Precedes) :
    (belowAll source items).Pairwise fun a b => a.range.Precedes b.range := by
  rw [belowAll_eq_filterMap, List.pairwise_filterMap]
  refine h.imp ?_
  rintro a b ⟨hne, hle⟩ s hs u hu
  exact Text.rangeOf_precedes hlength (rangeOf_of_below? hs) (rangeOf_of_below? hu) hne hle

/-- The symbol shows an item that is laid out properly, with all that occurs in it. -/
def Shows (source : Text) (s : Symbol) (i : Item) : Prop :=
  i.Throughout (Item.Laid source) ∧ below? source i = some s

/-- Below a symbol are the symbols of the items in one block. -/
theorem Shows.children (h : Shows source s i) :
    s.children = [] ∨ ∃ span children, Item.Occurs (.node .block span children) i ∧
      s.children = belowAll source children := by
  have hmade := h.2
  rw [below?_eq] at hmade
  rw [children_of_ofItem? hmade]
  refine (inBlock_eq source i.children).imp_right ?_
  rintro ⟨span, children, hmem, hsymbols⟩
  refine ⟨span, children, ?_, hsymbols⟩
  cases i with
  | node => exact .under hmem .here
  | leaf => exact absurd hmem List.not_mem_nil
  | comment => exact absurd hmem List.not_mem_nil

theorem Shows.exists_of_mem (h : Shows source s i) : ∀ u ∈ s.children, ∃ j,
    Item.Occurs j i ∧ Shows source u j := by
  intro u hu
  rcases h.children with hnone | ⟨span, children, hblock, hsymbols⟩
  · rw [hnone] at hu
    exact absurd hu List.not_mem_nil
  · rw [hsymbols, belowAll_eq_filterMap] at hu
    obtain ⟨c, hc, hbelow⟩ := List.mem_filterMap.1 hu
    have hoccurs : Item.Occurs c i := (Item.Occurs.under hc .here).trans hblock
    exact ⟨c, hoccurs, fun k hk => h.1 k (hk.trans hoccurs), hbelow⟩

theorem Shows.valid (h : Shows source s i) (hlength : source.length < Position.limit) :
    s.Valid := by
  have harranged : i.Throughout Item.Arranged := h.1.imp fun _ hj => hj.arranged
  have hmade := h.2
  rw [below?_eq] at hmade
  obtain ⟨hrange, name, hoccurs, hname, hnameRange⟩ := shows_of_ofItem? hmade
  refine ⟨?_, Text.rangeOf_within hlength hnameRange hrange (hoccurs.within harranged),
    fun u hu => ?_, ?_⟩
  · rw [hname]
    exact (h.1 name hoccurs).text
  · obtain ⟨j, hj, hshows⟩ := h.exists_of_mem u hu
    exact Text.rangeOf_within hlength (rangeOf_of_below? hshows.2) hrange (hj.within harranged)
  · rcases h.children with hnone | ⟨span, children, hblock, hsymbols⟩
    · rw [hnone]
      exact List.Pairwise.nil
    · rw [hsymbols]
      exact belowAll_precedes hlength ((h.1 _ hblock).stacked rfl)

mutual
theorem valid_of_mem_walk (hlength : source.length < Position.limit) {depth : Nat}
    {e : Nat × Symbol} :
    ∀ {s : Symbol} {i : Item}, Shows source s i → e ∈ walk depth s → e.2.Valid
  | .entry name detail kind range nameRange children, i, h, he => by
    rw [walk, List.mem_cons] at he
    rcases he with rfl | he
    · exact h.valid hlength
    · refine valid_of_mem_walkAll hlength (fun u hu => ?_) he
      obtain ⟨j, -, hshows⟩ := h.exists_of_mem u hu
      exact ⟨j, hshows⟩

theorem valid_of_mem_walkAll (hlength : source.length < Position.limit) {depth : Nat}
    {e : Nat × Symbol} :
    ∀ {symbols : List Symbol}, (∀ s ∈ symbols, ∃ i, Shows source s i) →
      e ∈ walkAll depth symbols → e.2.Valid
  | [], _, he => by
    rw [walkAll] at he
    exact absurd he List.not_mem_nil
  | s :: rest, h, he => by
    obtain ⟨⟨i, hshows⟩, hrest⟩ := List.forall_mem_cons.1 h
    rw [walkAll, List.mem_append] at he
    rcases he with he | he
    · exact valid_of_mem_walk hlength hshows he
    · exact valid_of_mem_walkAll hlength hrest he
end

end Symbol

namespace Grammar

variable {t : Text} {items : List Item}

theorem laid_of_parse (h : parse t = .ok items) :
    ∀ i ∈ items, i.Throughout (Item.Laid t) := by
  obtain ⟨tokens, hlex, hspread⟩ := spread_of_parse h
  obtain ⟨-, hwoven⟩ := woven_of_parse h hlex
  obtain ⟨hrow, -⟩ := row_of_parse h
  intro i hi j hj
  refine ⟨?_, arranged_of_parse h i hi j hj, fun hblock => ?_⟩
  · exact Item.textIn_ne_nil hlex (hwoven i hi j hj).ends (hspread.nonempty i hi j hj)
  · exact Item.precedes_of_tiling (hrow.sound i hi j hj hblock).tiling

end Grammar

/-- The outline of a sheet of fewer than `2 ^ 32` characters is as editors want it.  The symbols
on one level stand one behind the other, and each symbol has a name, is selected inside of its
range and holds the symbols below it. -/
theorem Tree.outline_valid {s : Snapshot} {items : List Item}
    (h : Grammar.parse s.text = .ok items) (hlength : s.text.length < Position.limit) :
    let outline := (Tree.parsed s items).outline
    outline.Pairwise (fun a b => a.range.Precedes b.range) ∧
      ∀ e ∈ Symbol.walkAll 0 outline, e.2.Valid := by
  intro outline
  have hlaid := Grammar.laid_of_parse h
  obtain ⟨hrow, -⟩ := Grammar.row_of_parse h
  have hshows : ∀ u ∈ outline, ∃ i, Symbol.Shows s.text u i := by
    intro u hu
    have hu : u ∈ Symbol.belowAll s.text items := hu
    rw [Symbol.belowAll_eq_filterMap] at hu
    obtain ⟨i, hi, hbelow⟩ := List.mem_filterMap.1 hu
    exact ⟨i, hlaid i hi, hbelow⟩
  exact ⟨Symbol.belowAll_precedes hlength (Item.precedes_of_tiling hrow.tiling),
    fun _ he => Symbol.valid_of_mem_walkAll hlength hshows he⟩

/-- A rule over three lines that end in different breaks, and a declaration behind it. -/
def overLines : Text := "a \x7b\r\n$b: 1;\u2028\x7d c: d;".toList

theorem Tree.outline_valid_overLines :
    ∃ items, Grammar.parse overLines = .ok items ∧
      let outline := (Tree.parsed ⟨1, .buffer 0, overLines⟩ items).outline
      (Symbol.walkAll 0 outline).map (fun e => (e.1, e.2.name, e.2.range, e.2.nameRange)) =
          [(0, "a".toList, ⟨⟨0, 0⟩, ⟨2, 1⟩⟩, ⟨⟨0, 0⟩, ⟨0, 1⟩⟩),
            (1, "$b".toList, ⟨⟨1, 0⟩, ⟨1, 6⟩⟩, ⟨⟨1, 0⟩, ⟨1, 2⟩⟩),
            (0, "c".toList, ⟨⟨2, 2⟩, ⟨2, 7⟩⟩, ⟨⟨2, 2⟩, ⟨2, 3⟩⟩)] ∧
        outline.Pairwise (fun a b => a.range.Precedes b.range) ∧
        ∀ e ∈ Symbol.walkAll 0 outline, e.2.Valid := by
  obtain ⟨items, hparse, hread⟩ := exists_ok (r := Grammar.parse overLines)
    (p := fun items =>
      (Symbol.walkAll 0 (Tree.parsed ⟨1, .buffer 0, overLines⟩ items).outline).map
          (fun e => (e.1, e.2.name, e.2.range, e.2.nameRange)) ==
        [(0, "a".toList, ⟨⟨0, 0⟩, ⟨2, 1⟩⟩, ⟨⟨0, 0⟩, ⟨0, 1⟩⟩),
          (1, "$b".toList, ⟨⟨1, 0⟩, ⟨1, 6⟩⟩, ⟨⟨1, 0⟩, ⟨1, 2⟩⟩),
          (0, "c".toList, ⟨⟨2, 2⟩, ⟨2, 7⟩⟩, ⟨⟨2, 2⟩, ⟨2, 3⟩⟩)]) (by decide +kernel)
  exact ⟨items, hparse, beq_iff_eq.1 hread,
    Tree.outline_valid (s := ⟨1, .buffer 0, overLines⟩) hparse (by decide +kernel)⟩

/-! ## Sheets that are too wide -/

/-- A declaration without a value whose mark stands `n` blanks behind its colon. -/
def spacedOut (n : Nat) : Text := '$' :: 'a' :: ':' :: (List.replicate n ' ' ++ [';'])

namespace spacedOut

/-- The name, the colon and the mark behind the blanks. -/
def tokens (n : Nat) : List Token :=
  [⟨.variable, 0, ['$', 'a']⟩, ⟨.colon, 2, [':']⟩, ⟨.semicolon, n + 3, [';']⟩]

/-- The item that the tokens make. -/
def item (n : Nat) : Item :=
  .node .variableDeclaration ⟨0, n + 4, Nat.zero_le _⟩
    [.leaf .variableName ⟨0, 2, Nat.zero_le _⟩, .leaf .punctuation ⟨2, 3, Nat.le_succ _⟩,
      .leaf .punctuation ⟨n + 3, n + 4, Nat.le_succ _⟩]

/-- The symbol of the item.  The column at which it ends has lost all but 32 bits. -/
def symbol (n : Nat) : Symbol :=
  .entry ['$', 'a'] none .variable ⟨⟨0, 0⟩, ⟨0, (n + 4) % Position.limit⟩⟩ ⟨⟨0, 0⟩, ⟨0, 2⟩⟩ []

theorem length_eq (n : Nat) : (spacedOut n).length = n + 4 := by
  simp [spacedOut]

theorem no_break (n : Nat) : ∀ c ∈ spacedOut n, Text.isLineBreak c = false := by
  intro c hc
  simp only [spacedOut, List.mem_cons, List.mem_append, List.mem_replicate, List.not_mem_nil,
    or_false] at hc
  rcases hc with rfl | rfl | rfl | ⟨-, rfl⟩ | rfl <;> decide

theorem lex_eq (n : Nat) : Token.lex (spacedOut n) = .ok (tokens n) := by
  have hblank : ∀ c ∈ List.replicate n ' ', Text.isBlank c = true := by
    intro c hc
    rw [List.eq_of_mem_replicate hc]
    decide
  have hname : ∀ rest, Token.scan ('$' :: 'a' :: ':' :: rest) = .token .variable 1 := fun _ => rfl
  have hcolon : ∀ rest, Token.scan (':' :: rest) = .token .colon 0 := fun _ => rfl
  have hmark : Token.scan [';'] = .token .semicolon 0 := rfl
  rw [Token.lex, spacedOut, Token.lexFrom, hname]
  show Token.lexFrom 2 [_] (':' :: _) = _
  rw [Token.lexFrom, hcolon]
  show Token.lexFrom 3 [_, _] (List.replicate n ' ' ++ [';']) = _
  rw [Token.lexFrom_blanks hblank, List.length_replicate, Nat.add_comm, Token.lexFrom, hmark]
  show Token.lexFrom _ [_, _, _] [] = _
  rw [Token.lexFrom]
  rfl

theorem gather_eq (n : Nat) : Item.gather .variableDeclaration (item n).children = item n := by
  have hmark : 2 ≤ n + 3 := by omega
  have hstop : 3 ≤ n + 4 := by omega
  simp [item, Item.gather, Item.children, stableSort, insertSorted, Item.start, Item.span,
    Span.coverAll, Span.cover, hmark, hstop]

open Grammar in
theorem parse_eq (n : Nat) : parse (spacedOut n) = .ok [item n] := by
  have hfirst : (Reading.start (tokens n)).step =
      .more ⟨[], [.gather .variableDeclaration (item n).children], []⟩ := rfl
  rw [parse, lex_eq]
  show (Reading.start (tokens n)).run = _
  rw [Reading.run_eq, hfirst, gather_eq]
  show Reading.run ⟨[], [item n], []⟩ = _
  rw [Reading.run_eq]
  rfl

theorem outline_eq (n : Nat) : Symbol.belowAll (spacedOut n) [item n] = [symbol n] := by
  have hrange : ∀ span : Span, span.stop ≤ n + 4 → (spacedOut n).rangeOf span =
      some ⟨⟨0, span.start % Position.limit⟩, ⟨0, span.stop % Position.limit⟩⟩ := by
    intro span hstop
    rw [← length_eq] at hstop
    have hstart := Nat.le_trans span.start_le_stop hstop
    exact Text.rangeOf_eq_some_iff.2 ⟨Text.positionOf_of_no_break (no_break n) hstart,
      Text.positionOf_of_no_break (no_break n) hstop⟩
  have hname : (spacedOut n).rangeOf ⟨0, 2, Nat.zero_le _⟩ = some ⟨⟨0, 0⟩, ⟨0, 2⟩⟩ :=
    hrange _ (Nat.le_add_left 2 (n + 2))
  have hitem : (spacedOut n).rangeOf (item n).span =
      some ⟨⟨0, 0⟩, ⟨0, (n + 4) % Position.limit⟩⟩ := hrange _ (Nat.le_refl _)
  have hnaming : Symbol.naming? (spacedOut n) (item n) =
      some (.leaf .variableName ⟨0, 2, Nat.zero_le _⟩, .variable) := rfl
  have hsymbol : Symbol.ofItem? (spacedOut n) (item n) [] = some (symbol n) := by
    rw [Symbol.ofItem?, hnaming]
    simp only [Option.bind_eq_bind, Option.bind_some, hitem]
    exact congrArg (Option.bind · _) hname
  rw [Symbol.belowAll_singleton, Symbol.below?_eq]
  exact congrArg Option.toList hsymbol

end spacedOut

/-- The bound on the length is the best one.  A sheet of `2 ^ 32` characters may have a symbol that
ends at a column with more than 32 bits, and editors are told that it ends where it begins, in
front of the end of its name. -/
theorem Tree.outline_too_wide :
    let wide := spacedOut (Position.limit - 4)
    wide.length = Position.limit ∧ ∃ items, Grammar.parse wide = .ok items ∧
      let s : Symbol := .entry "$a".toList none .variable ⟨⟨0, 0⟩, ⟨0, 0⟩⟩ ⟨⟨0, 0⟩, ⟨0, 2⟩⟩ []
      (Tree.parsed ⟨1, .buffer 0, wide⟩ items).outline = [s] ∧ ¬s.nameRange.Within s.range := by
  intro wide
  have hlength : Position.limit - 4 + 4 = Position.limit := Nat.sub_add_cancel (by decide)
  refine ⟨(spacedOut.length_eq _).trans hlength, _, spacedOut.parse_eq _, ?_, ?_⟩
  · have houtline := spacedOut.outline_eq (Position.limit - 4)
    rw [spacedOut.symbol, hlength, Nat.mod_self] at houtline
    exact houtline
  · intro h
    exact absurd h.stop (by decide)

end LiveSheet
