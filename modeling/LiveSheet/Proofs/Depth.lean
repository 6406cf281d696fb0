import LiveSheet.Proofs.Declarations
import LiveSheet.Proofs.Descent

/-!
# Depth

How deep the items of a sheet are.  A block takes two levels, itself and the item that it belongs
to, and a reading opens no more than `maxNesting` of them inside each other.  The more blocks are
open around an item when it is complete, the fewer can be inside each other in it.
-/

namespace LiveSheet
namespace Item

variable {i : Item} {items head children : List Item} {kind : ItemKind} {span : Span} {room : Nat}

theorem mem_nestedAll_iff (around items : List Item) (e : List Item × Item) :
    e ∈ nestedAll around items ↔ ∃ i ∈ items, e ∈ i.nested around := by
  induction items with
  | nil => simp [nestedAll]
  | cons i rest ih => simp [nestedAll, ih]

theorem mem_nested_iff (around : List Item) (i : Item) (e : List Item × Item) :
    e ∈ i.nested around ↔ e = (around, i) ∨ ∃ c ∈ i.children, e ∈ c.nested (i :: around) := by
  rw [nested_eq, List.mem_cons, mem_nestedAll_iff]

/-- No way down through the item passes more than `room` blocks.  Each of them takes two levels,
and one more level may be below the last of them. -/
def Shallow (room : Nat) (i : Item) : Prop :=
  ∀ around, ∀ e ∈ i.nested around,
    blocksAround (e.2 :: e.1) ≤ blocksAround around + room ∧
      e.1.length ≤ around.length + 2 * room + 1

theorem Bare.shallow (h : i.Bare) (room : Nat) : i.Shallow room := by
  intro around e he
  rw [h.nested, List.mem_singleton] at he
  subst he
  show blocksAround (i :: around) ≤ _ ∧ around.length ≤ _
  rw [blocksAround_cons_of_not h.block]
  omega

theorem shallow_of_bare (hkind : i.isKind .block = false) (h : ∀ c ∈ i.children, c.Bare)
    (room : Nat) : i.Shallow room := by
  intro around e he
  rcases (mem_nested_iff around i e).1 he with rfl | ⟨c, hc, hbelow⟩
  · show blocksAround (i :: around) ≤ _ ∧ around.length ≤ _
    rw [blocksAround_cons_of_not hkind]
    omega
  · rw [(h c hc).nested, List.mem_singleton] at hbelow
    subst hbelow
    show blocksAround (c :: i :: around) ≤ _ ∧ (i :: around).length ≤ _
    rw [blocksAround_cons_of_not (h c hc).block, blocksAround_cons_of_not hkind, List.length_cons]
    omega

/-- A block needs room for itself around what it holds. -/
theorem nested_of_block (h : ∀ c ∈ children, c.Shallow room) {around : List Item}
    {e : List Item × Item} (he : e ∈ (node .block span children).nested around) :
    blocksAround (e.2 :: e.1) ≤ blocksAround around + (room + 1) ∧
      e.1.length ≤ around.length + 1 + 2 * room + 1 := by
  rcases (mem_nested_iff around _ e).1 he with rfl | ⟨c, hc, hbelow⟩
  · show blocksAround (node .block span children :: around) ≤ _ ∧ around.length ≤ _
    rw [blocksAround_cons_block]
    omega
  · obtain ⟨hblocks, hdepth⟩ := h c hc _ e hbelow
    rw [blocksAround_cons_block] at hblocks
    rw [List.length_cons] at hdepth
    omega

theorem shallow_of_block (hkind : i.isKind .block = false)
    (h : ∀ c ∈ i.children, c.Bare ∨
      ∃ span children, c = node .block span children ∧ ∀ inner ∈ children, inner.Shallow room) :
    i.Shallow (room + 1) := by
  intro around e he
  rcases (mem_nested_iff around i e).1 he with rfl | ⟨c, hc, hbelow⟩
  · show blocksAround (i :: around) ≤ _ ∧ around.length ≤ _
    rw [blocksAround_cons_of_not hkind]
    omega
  · have hbounds : blocksAround (e.2 :: e.1) ≤ blocksAround (i :: around) + (room + 1) ∧
        e.1.length ≤ (i :: around).length + 1 + 2 * room + 1 := by
      rcases h c hc with hbare | ⟨span, children, rfl, hinner⟩
      · rw [hbare.nested, List.mem_singleton] at hbelow
        subst hbelow
        show blocksAround (c :: i :: around) ≤ _ ∧ (i :: around).length ≤ _
        rw [blocksAround_cons_of_not hbare.block]
        omega
      · exact nested_of_block hinner hbelow
    rw [blocksAround_cons_of_not hkind, List.length_cons] at hbounds
    omega

theorem isKind_gather_block (h : kind ≠ .block) (parts : List Item) :
    (gather kind parts).isKind .block = false :=
  beq_eq_false_iff_ne.2 fun hsome => h (Option.some.inj hsome)

end Item

namespace Grammar

variable {ts : List Token} {i : Item} {kind : ItemKind} {parts : List Item}

theorem NamedBy.ne_block (h : NamedBy kind parts) : kind ≠ .block := by
  intro hkind
  obtain ⟨part, hpart, -⟩ := h
  rw [hkind] at hpart
  exact nomatch hpart

theorem HeadForm.ne_block (h : HeadForm kind ts parts) : kind ≠ .block := by
  cases h with
  | atRule => decide
  | rule => decide

/-- An item without a block is shallow in any room. -/
theorem ItemForm.shallow (h : ItemForm ts i) (room : Nat) : i.Shallow room := by
  rcases h.bare_or with hbare | ⟨kind, parts, rfl, hparts, hnamed⟩
  · exact hbare.shallow room
  · have hkind : kind ≠ .block := by
      rcases hnamed with hnamed | rfl
      · exact hnamed.ne_block
      · decide
    refine Item.shallow_of_bare (Item.isKind_gather_block hkind parts) (fun c hc => ?_) room
    exact hparts c ((mem_stableSort _ _ _).1 hc)

namespace Reading

/-- What was read is as shallow as the open blocks around it demand. -/
inductive Within : List OpenBlock → List Item → Prop
  | top {items : List Item} : (∀ i ∈ items, i.Shallow maxNesting) → Within [] items
  | block {b : OpenBlock} {outer : List OpenBlock} {items : List Item} :
      Within outer b.before → outer.length < maxNesting →
      b.kind ≠ .block → (∀ c ∈ b.head, c.Bare) →
      (∀ i ∈ items, i.Shallow (maxNesting - (outer.length + 1))) → Within (b :: outer) items

variable {r next : Reading} {blocks : List OpenBlock} {items : List Item}

theorem Within.push (h : Within blocks items) (hi : i.Shallow (maxNesting - blocks.length)) :
    Within blocks (i :: items) := by
  cases h with
  | top hitems => exact .top (List.forall_mem_cons.2 ⟨hi, hitems⟩)
  | block houter hroom hkind hhead hitems =>
    exact .block houter hroom hkind hhead (List.forall_mem_cons.2 ⟨hi, hitems⟩)

/-- Every step leaves room for the blocks that are still open. -/
theorem Within.step (h : Within r.blocks r.items) (hstep : r.step = .more next) :
    Within next.blocks next.items := by
  cases advances_of_step hstep with
  | item _ hform => exact h.push (hform.shallow _)
  | opened hroom _ hhead _ =>
    exact .block h hroom hhead.ne_block hhead.bare (List.forall_mem_nil _)
  | @closed b outer close rest hblocks _ _ =>
    rw [hblocks] at h
    cases h with
    | block houter hroom hkind hhead hitems =>
      -- the item with the block needs the room of one block more than what the block holds
      refine houter.push ?_
      have hsucc : maxNesting - outer.length = maxNesting - (outer.length + 1) + 1 := by omega
      rw [hsucc]
      refine Item.shallow_of_block (Item.isKind_gather_block hkind _) ?_
      intro c hc
      rcases List.mem_append.1 ((mem_stableSort _ _ _).1 hc) with hparts | hblock
      · exact .inl (hhead c hparts)
      · refine .inr ⟨_, _, List.mem_singleton.1 hblock, fun inner hinner => ?_⟩
        exact hitems inner (List.mem_reverse.1 hinner)

theorem Within.run (h : Within r.blocks r.items) (hrun : r.run = .ok items) :
    ∀ i ∈ items, i.Shallow maxNesting := by
  fun_induction Reading.run r with
  | case1 r items' hstep =>
    cases hrun
    have hr := finished_of_step hstep
    subst hr
    cases h with
    | top hitems =>
      intro i hi
      exact hitems i (List.mem_reverse.2 hi)
  | case2 r e hstep => cases hrun
  | case3 r next hstep ih => exact ih (h.step hstep) hrun

theorem length_blocks_step (h : r.blocks.length ≤ maxNesting) (hstep : r.step = .more next) :
    next.blocks.length ≤ maxNesting := by
  cases advances_of_step hstep with
  | item => exact h
  | opened hroom => exact hroom
  | closed hblocks =>
    rw [hblocks] at h
    exact Nat.le_of_succ_le h

theorem Reaches.length_blocks (h : r.Reaches next) (hr : r.blocks.length ≤ maxNesting) :
    next.blocks.length ≤ maxNesting := by
  induction h with
  | here => exact hr
  | step hstep _ ih => exact ih (length_blocks_step hr hstep)

end Reading

theorem shallow_of_parse {t : Text} {items : List Item} (h : parse t = .ok items) :
    ∀ i ∈ items, i.Shallow maxNesting := by
  obtain ⟨tokens, hlex⟩ := exists_lex_of_parse h
  unfold parse at h
  rw [hlex] at h
  exact (Reading.Within.top (List.forall_mem_nil _)).run (r := .start tokens) h

/-- No way down from the top of a sheet passes through more than `maxNesting` blocks, and no item
is deeper than two levels for each of them and one more.  No reading of any tokens ever has more
than `maxNesting` blocks open.  A recursive descent comes to the same items, or to the same error,
and at no moment of it the items of more than `maxNesting` blocks are being read. -/
theorem parse_shallow (t : Text) :
    (∀ items, parse t = .ok items →
      (∀ e ∈ Item.nestedAll [] items, Item.blocksAround (e.2 :: e.1) ≤ maxNesting) ∧
      (Item.nestedAll [] items).map (fun e => (e.1.length, e.2)) = Item.walkAll 0 items ∧
      ∀ e ∈ Item.walkAll 0 items, e.1 ≤ 2 * maxNesting + 1) ∧
    (∀ tokens r, (Reading.start tokens).Reaches r → r.blocks.length ≤ maxNesting) ∧
    (descend t).result = reported (parse t) ∧
    (descend t).deepest ≤ maxNesting := by
  refine ⟨?_, fun tokens r hr => hr.length_blocks (Nat.zero_le _), descend_result t,
    (descend_meets t).deepest⟩
  intro items h
  have hwalk := Item.nestedAll_walk [] items
  have hshallow : ∀ e ∈ Item.nestedAll [] items,
      Item.blocksAround (e.2 :: e.1) ≤ maxNesting ∧ e.1.length ≤ 2 * maxNesting + 1 := by
    intro e he
    obtain ⟨i, hi, hbelow⟩ := (Item.mem_nestedAll_iff [] items e).1 he
    obtain ⟨hblocks, hdepth⟩ := shallow_of_parse h i hi [] e hbelow
    have hnone : Item.blocksAround [] = 0 := rfl
    rw [List.length_nil] at hdepth
    omega
  refine ⟨fun e he => (hshallow e he).1, hwalk, ?_⟩
  intro e he
  rw [show Item.walkAll 0 items = _ from hwalk.symm] at he
  obtain ⟨e', he', rfl⟩ := List.mem_map.1 he
  exact (hshallow e' he').2

def twoBlocks : Text := "a\x7bb\x7bc:(\x7b;d\x7d\x7d".toList

/-- In two blocks, a declaration has its parts two levels below each block and one more. -/
theorem parse_shallow_declaration :
    (∃ items, parse twoBlocks = .ok items ∧
      (Item.nestedAll [] items).any (fun e => Item.blocksAround (e.2 :: e.1) == 2) = true ∧
      (Item.walkAll 0 items).any (fun e => e.1 == 5) = true ∧
      (∀ e ∈ Item.nestedAll [] items, Item.blocksAround (e.2 :: e.1) ≤ maxNesting) ∧
      ∀ e ∈ Item.walkAll 0 items, e.1 ≤ 2 * maxNesting + 1) ∧
    ∃ tokens r, (Reading.start tokens).Reaches r ∧ 0 < r.blocks.length ∧
      r.blocks.length ≤ maxNesting := by
  obtain ⟨hshallow, hopen, -, -⟩ := parse_shallow twoBlocks
  constructor
  · obtain ⟨items, hparse, hdeep⟩ := exists_ok (r := parse twoBlocks)
      (p := fun items =>
        (Item.nestedAll [] items).any (fun e => Item.blocksAround (e.2 :: e.1) == 2) &&
          (Item.walkAll 0 items).any (fun e => e.1 == 5)) (by decide +kernel)
    obtain ⟨htwo, hfive⟩ := Bool.and_eq_true_iff.1 hdeep
    obtain ⟨hblocks, -, hdepth⟩ := hshallow items hparse
    exact ⟨items, hparse, htwo, hfive, hblocks, hdepth⟩
  · have hreach : (Reading.start [⟨.openBrace, 0, ['\x7b']⟩]).Reaches
        ⟨[⟨.ruleBlock, [], ⟨.openBrace, 0, ['\x7b']⟩, []⟩], [], []⟩ := .step rfl (.here _)
    exact ⟨_, _, hreach, Nat.zero_lt_one, hopen _ _ hreach⟩

end Grammar
end LiveSheet
