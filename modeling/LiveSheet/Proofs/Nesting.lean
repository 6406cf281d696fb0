import LiveSheet.Proofs.Coverage
import LiveSheet.Proofs.Sorting

/-!
# Nested blocks

An item holds at most one block by itself, all others stand inside that one.  So of two
blocks around one place, one lies strictly inside the other, and the length of a block
tells how far inside it lies.
-/

namespace LiveSheet

namespace Span

/-- One span lies in another and touches neither end of it. -/
def Inside (s u : Span) : Prop := u.start < s.start ∧ s.stop < u.stop

end Span

namespace Item

def IsBlock (i : Item) : Prop := i.kind? = some .block

/-- The item holds no block, or it holds one beside parts without blocks, and the same is
true of all that stands in that one. -/
inductive Formed : Item → Prop
  | blockless {i : Item} : i.Throughout (¬ ·.IsBlock) → Formed i
  | owner {kind : ItemKind} {span inner : Span} {children below : List Item} :
      kind ≠ .block → inner.Within span → .node .block inner below ∈ children →
      (∀ c ∈ children, c = .node .block inner below ∨ c.Throughout (¬ ·.IsBlock)) →
      (∀ c ∈ below, Formed c) → Formed (.node kind span children)

variable {t : Text} {i a b : Item} {items : List Item}

/-- A block in an item that owns one is that block or stands in it. -/
theorem Occurs.of_owner {kind : ItemKind} {span inner : Span} {children below : List Item}
    (hkind : kind ≠ .block)
    (hchildren : ∀ c ∈ children, c = .node .block inner below ∨ c.Throughout (¬ ·.IsBlock))
    (h : Occurs a (.node kind span children)) (ha : a.IsBlock) :
    a = .node .block inner below ∨ ∃ c ∈ below, Occurs a c := by
  cases h with
  | here => exact absurd (Option.some.inj ha) hkind
  | @under _ _ _ c hc h =>
    rcases hchildren c hc with rfl | hno
    · cases h with
      | here => exact .inl rfl
      | under hc h => exact .inr ⟨_, hc, h⟩
    · exact absurd ha (hno a h)

theorem Throughout.of_mem {P : Item → Prop} {kind : ItemKind} {span : Span} {children : List Item}
    (h : (node kind span children).Throughout P) {c : Item} (hc : c ∈ children) :
    c.Throughout P :=
  fun j hj => h j (.under hc hj)

/-- The items lie in a stretch of the text one behind the other, and the blocks in them are
as they should be. -/
structure Row (t : Text) (lo hi : Nat) (items : List Item) : Prop where
  tiling : t.Tiling lo hi (items.map span)
  formed : ∀ i ∈ items, i.Formed
  sound : ∀ i ∈ items, i.Throughout (SoundIn t)

theorem Row.of_block {inner : Span} {below : List Item}
    (hsound : (node .block inner below).Throughout (SoundIn t)) (hbelow : ∀ c ∈ below, c.Formed) :
    Row t (inner.start + 1) (inner.stop - 1) below :=
  ⟨(hsound _ .here rfl).tiling, hbelow, fun _ hc => hsound.of_mem hc⟩

theorem Row.bounds {lo hi : Nat} (h : Row t lo hi items) (hmem : i ∈ items) :
    lo ≤ i.start ∧ i.start < i.stop ∧ i.stop ≤ hi :=
  h.tiling.inside i.span (List.mem_map_of_mem hmem)

/-- Two items of a row that hold one place are the same. -/
theorem Row.eq_of_contains {lo hi p : Nat} {j : Item} (h : Row t lo hi items) (hmem : i ∈ items)
    (hj : j ∈ items) (hip : i.span.contains p = true) (hjp : j.span.contains p = true) :
    i = j := by
  have hordered : items.Pairwise fun c d => c.span.stop ≤ d.span.start :=
    List.pairwise_map.1 h.tiling.ordered
  rw [Span.contains_iff] at hip hjp
  rcases eq_or_rel_of_pairwise hordered hmem hj with heq | hlt | hlt
  · exact heq
  · omega
  · omega

theorem Formed.block_within (h : i.Formed) (hsound : i.Throughout (SoundIn t)) (ha : Occurs a i)
    (hblock : a.IsBlock) : a.span.Within i.span := by
  induction h with
  | blockless hno => exact absurd hblock (hno a ha)
  | @owner kind span inner children below hkind hwithin hmem hchildren hbelow ih =>
    obtain rfl | ⟨c, hc, ha⟩ := ha.of_owner hkind hchildren hblock
    · exact hwithin
    · have hrow := Row.of_block (hsound.of_mem hmem) hbelow
      obtain ⟨hlo, -, hhi⟩ := hrow.bounds hc
      obtain ⟨hstart, hstop⟩ := ih c hc (hrow.sound c hc) ha
      obtain ⟨hfirst, hlast⟩ := hwithin
      have hless : c.start = c.span.start ∧ c.stop = c.span.stop := ⟨rfl, rfl⟩
      show span.start ≤ a.span.start ∧ a.span.stop ≤ span.stop
      omega

theorem Row.block_bounds {lo hi : Nat} (h : Row t lo hi items) (hmem : i ∈ items)
    (ha : Occurs a i) (hblock : a.IsBlock) : lo ≤ a.span.start ∧ a.span.stop ≤ hi := by
  obtain ⟨hlo, -, hhi⟩ := h.bounds hmem
  obtain ⟨hstart, hstop⟩ := (h.formed i hmem).block_within (h.sound i hmem) ha hblock
  exact ⟨Nat.le_trans hlo hstart, Nat.le_trans hstop hhi⟩

/-- One of the spans is the other one or lies strictly inside it. -/
def Nested (a b : Item) : Prop :=
  a.span = b.span ∨ a.span.Inside b.span ∨ b.span.Inside a.span

theorem Row.inside_block {inner : Span} {below : List Item} {c : Item}
    (h : Row t (inner.start + 1) (inner.stop - 1) below) (hc : c ∈ below)
    (ha : Occurs a c) (hblock : a.IsBlock) : a.span.Inside inner := by
  obtain ⟨hlo, hhi⟩ := h.block_bounds hc ha hblock
  obtain ⟨-, hne, hend⟩ := h.bounds hc
  have hlast : a.span.stop < inner.stop := by omega
  exact ⟨hlo, hlast⟩

/-- Two blocks of a row that hold one place stand in one of its items. -/
theorem Row.eq_of_blocks {lo hi p : Nat} {c d : Item} (h : Row t lo hi items) (hc : c ∈ items)
    (hd : d ∈ items) (ha : Occurs a c) (hb : Occurs b d) (hablock : a.IsBlock)
    (hbblock : b.IsBlock) (hap : a.span.contains p = true) (hbp : b.span.contains p = true) :
    c = d := by
  have haround : ∀ {c a : Item}, c ∈ items → Occurs a c → a.IsBlock →
      a.span.contains p = true → c.span.contains p = true := by
    intro c a hc ha hablock hap
    obtain ⟨hstart, hstop⟩ := (h.formed c hc).block_within (h.sound c hc) ha hablock
    rw [Span.contains_iff] at hap ⊢
    omega
  exact h.eq_of_contains hc hd (haround hc ha hablock hap) (haround hd hb hbblock hbp)

/-- Two blocks of one item around one place are nested. -/
theorem Formed.nested {p : Nat} (h : i.Formed) (hsound : i.Throughout (SoundIn t))
    (ha : Occurs a i) (hb : Occurs b i) (hablock : a.IsBlock) (hbblock : b.IsBlock)
    (hap : a.span.contains p = true) (hbp : b.span.contains p = true) : Nested a b := by
  induction h with
  | blockless hno => exact absurd hablock (hno a ha)
  | @owner kind span inner children below hkind hwithin hmem hchildren hbelow ih =>
    have hrow := Row.of_block (hsound.of_mem hmem) hbelow
    obtain rfl | ⟨c, hc, ha⟩ := ha.of_owner hkind hchildren hablock
    · obtain rfl | ⟨d, hd, hb⟩ := hb.of_owner hkind hchildren hbblock
      · exact .inl rfl
      · exact .inr (.inr (hrow.inside_block hd hb hbblock))
    · obtain rfl | ⟨d, hd, hb⟩ := hb.of_owner hkind hchildren hbblock
      · exact .inr (.inl (hrow.inside_block hc ha hablock))
      · obtain rfl := hrow.eq_of_blocks hc hd ha hb hablock hbblock hap hbp
        exact ih c hc (hrow.sound c hc) ha hb

theorem Row.nested {lo hi p : Nat} {c d : Item} (h : Row t lo hi items) (hc : c ∈ items)
    (hd : d ∈ items) (ha : Occurs a c) (hb : Occurs b d) (hablock : a.IsBlock)
    (hbblock : b.IsBlock) (hap : a.span.contains p = true) (hbp : b.span.contains p = true) :
    Nested a b := by
  obtain rfl := h.eq_of_blocks hc hd ha hb hablock hbblock hap hbp
  exact (h.formed c hc).nested (h.sound c hc) ha hb hablock hbblock hap hbp

/-- The blocks of the item are nested, and all comments in it are tokens. -/
structure Shaped (tokens : List Token) (i : Item) : Prop where
  formed : i.Formed
  comments : i.Throughout fun j => j.kind? = none → ∃ tok ∈ tokens, tok.comment? = some j

theorem shaped_of_plain {tokens : List Token} (h : i.Throughout (Plain tokens)) :
    i.Shaped tokens :=
  ⟨.blockless (h.imp fun _ hplain => hplain.not_block), h.imp fun _ hplain => hplain.comment⟩

end Item

namespace Grammar

structure OpenBlock.Shaped (tokens : List Token) (b : OpenBlock) : Prop where
  kind : b.kind ≠ .block
  head : ∀ i ∈ b.head, i.Throughout (Item.Plain tokens)
  before : ∀ i ∈ b.before, i.Shaped tokens

theorem OpenBlock.Shaped.close {tokens : List Token} {b : OpenBlock} {items : List Item}
    (h : b.Shaped tokens) (hitems : ∀ i ∈ items, i.Shaped tokens) (close : Token) :
    (b.close items close).Shaped tokens := by
  let block := Item.node .block (b.brace.span.cover close.span) items.reverse
  have hmem : ∀ c, c ∈ stableSort (fun a b : Item => a.start ≤ b.start) (b.head ++ [block]) ↔
      c ∈ b.head ∨ c = block := by
    intro c
    rw [mem_stableSort, List.mem_append, List.mem_singleton]
  have hwithin : block.span.Within (b.close items close).span :=
    Span.within_coverAll (b.coverAll_close items close) (List.mem_map_of_mem
      (List.mem_append_right _ (List.mem_singleton_self block)))
  constructor
  · refine .owner h.kind hwithin ((hmem _).2 (.inr rfl)) (fun c hc => ?_) fun c hc => ?_
    · rcases (hmem c).1 hc with hc | rfl
      · exact .inr ((h.head c hc).imp fun _ hplain => hplain.not_block)
      · exact .inl rfl
    · exact (hitems c (List.mem_reverse.1 hc)).formed
  · refine Item.throughout_gather (fun hnone => nomatch hnone) fun c hc => ?_
    rcases List.mem_append.1 hc with hc | hc
    · exact (h.head c hc).imp fun _ hplain => hplain.comment
    · rw [List.mem_singleton.1 hc]
      refine Item.throughout_node (fun hnone => nomatch hnone) fun d hd => ?_
      exact (hitems d (List.mem_reverse.1 hd)).comments

namespace Reading

structure Shaped (tokens : List Token) (r : Reading) : Prop where
  rest : r.rest <:+ tokens
  items : ∀ i ∈ r.items, i.Shaped tokens
  blocks : ∀ b ∈ r.blocks, b.Shaped tokens

variable {tokens : List Token} {r next : Reading}

theorem Shaped.step (h : r.Shaped tokens) (hstep : r.step = .more next) : next.Shaped tokens := by
  obtain ⟨hrest, hitems, hblocks⟩ := h
  cases next_of_step hstep with
  | @item i rest hmade =>
    obtain ⟨⟨run, hrun, -⟩, hplain⟩ := hmade
    have hi := (hplain i (List.mem_singleton_self i)).imp fun _ hplain => hplain.mono hrest.isInfix
    rw [hrun] at hrest
    exact ⟨(List.suffix_append run rest).trans hrest,
      List.forall_mem_cons.2 ⟨Item.shaped_of_plain hi, hitems⟩, hblocks⟩
  | @opened kind head brace rest _ hkind _ hmade =>
    obtain ⟨⟨run, hrun, -⟩, hplain⟩ := hmade
    refine ⟨?_, List.forall_mem_nil _,
      List.forall_mem_cons.2 ⟨⟨hkind, fun i hi => ?_, hitems⟩, hblocks⟩⟩
    · rw [hrun] at hrest
      exact ((List.suffix_cons brace rest).trans (List.suffix_append run _)).trans hrest
    · exact (hplain i hi).imp fun _ hplain => hplain.mono hrest.isInfix
  | @closed b outer close rest hopen _ hclose =>
    rw [hopen] at hblocks
    obtain ⟨hb, houter⟩ := List.forall_mem_cons.1 hblocks
    rw [hclose] at hrest
    exact ⟨(List.suffix_cons close rest).trans hrest,
      List.forall_mem_cons.2 ⟨hb.close hitems close, hb.before⟩, houter⟩

theorem Shaped.run {items : List Item} (h : r.Shaped tokens) (hrun : r.run = .ok items) :
    ∀ i ∈ items, i.Shaped tokens := by
  fun_induction Reading.run r with
  | case1 r items' hstep =>
    cases hrun
    have hr := finished_of_step hstep
    subst hr
    exact fun i hi => h.items i (List.mem_reverse.2 hi)
  | case2 r e hstep => cases hrun
  | case3 r next hstep ih => exact ih (h.step hstep) hrun

end Reading

/-- The items of a sheet are a row over its text, and all comments in them are tokens of
it. -/
theorem row_of_parse {t : Text} {items : List Item} (h : parse t = .ok items) :
    Item.Row t 0 t.length items ∧ ∃ tokens, Token.lex t = .ok tokens ∧
      ∀ i ∈ items, i.Shaped tokens := by
  unfold parse at h
  cases htokens : Token.lex t with
  | error e => rw [htokens] at h; exact nomatch h
  | ok tokens =>
    rw [htokens] at h
    obtain ⟨htiling, hsound⟩ := (Reading.start_covers htokens).run h
    have hstart : (Reading.start tokens).Shaped tokens :=
      ⟨List.suffix_rfl, List.forall_mem_nil _, List.forall_mem_nil _⟩
    have hshaped := hstart.run h
    exact ⟨⟨htiling, fun i hi => (hshaped i hi).formed, hsound⟩, tokens, rfl, hshaped⟩

end Grammar
end LiveSheet
