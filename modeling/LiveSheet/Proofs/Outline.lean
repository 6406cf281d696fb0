import LiveSheet.Outline
import LiveSheet.Proofs.Places
import LiveSheet.Proofs.Siblings

/-!
# Outlines

The outline of a sheet lists its declarations, its at-rules and its rules in the order of the
walk, each as deep as blocks stand around it.  Only a rule without a selector is left out, with
all that it holds.
-/

namespace LiveSheet

namespace Item

/-- The items that an outline lists. -/
def isListed (i : Item) : Bool :=
  match i.kind? with
  | some .variableDeclaration | some .propertyDeclaration | some .atRule => true
  | some .ruleBlock => (i.child? .selector).isSome
  | _ => false

/-- A rule without a selector. -/
def isNameless (i : Item) : Bool := i.isKind .ruleBlock && (i.child? .selector).isNone

mutual
/-- An item and all below it, parents before children, each behind the items around it, of which
the innermost comes first. -/
def nested (around : List Item) : Item → List (List Item × Item)
  | leaf kind span => [(around, leaf kind span)]
  | comment style span => [(around, comment style span)]
  | node kind span children =>
    (around, node kind span children) :: nestedAll (node kind span children :: around) children

def nestedAll (around : List Item) : List Item → List (List Item × Item)
  | [] => []
  | i :: rest => nested around i ++ nestedAll around rest
end

/-- How many blocks stand around an item. -/
def blocksAround (around : List Item) : Nat := around.countP (·.isKind .block)

/-- An item that is listed and stands in no rule without a selector. -/
def inOutline (e : List Item × Item) : Bool := e.2.isListed && !e.1.any isNameless

variable {i : Item} {items around : List Item} {source : Text} {kind : ItemKind} {span : Span}

theorem not_listed_of_nameless (h : i.isNameless = true) : i.isListed = false := by
  obtain ⟨hrule, hselector⟩ := Bool.and_eq_true_iff.1 h
  have hkind : i.kind? = some .ruleBlock := beq_iff_eq.1 hrule
  simp [isListed, hkind, Option.isNone_iff_eq_none.1 hselector]

theorem not_nameless_of_listed (h : i.isListed = true) : i.isNameless = false := by
  rw [Bool.eq_false_iff]
  intro hnameless
  exact Bool.false_ne_true ((not_listed_of_nameless hnameless).symm.trans h)

theorem blocksAround_cons_block {within : Span} {inner : List Item} (around : List Item) :
    blocksAround (.node .block within inner :: around) = blocksAround around + 1 :=
  List.countP_cons_of_pos rfl

theorem blocksAround_cons_of_not (h : i.isKind .block = false) (around : List Item) :
    blocksAround (i :: around) = blocksAround around :=
  List.countP_cons_of_neg (Bool.eq_false_iff.1 h)

theorem nested_eq (around : List Item) (i : Item) :
    i.nested around = (around, i) :: nestedAll (i :: around) i.children := by
  cases i <;> rw [nested] <;> rfl

mutual
/-- The items are met as on a walk, with as many around each one as it is deep. -/
theorem nested_walk (around : List Item) :
    ∀ i : Item, (nested around i).map (fun e => (e.1.length, e.2)) = walk around.length i
  | .leaf _ _ => by
    rw [nested, walk]
    rfl
  | .comment _ _ => by
    rw [nested, walk]
    rfl
  | .node kind span children => by
    have hbelow := nestedAll_walk (.node kind span children :: around) children
    rw [List.length_cons] at hbelow
    rw [nested, walk, List.map_cons, hbelow]

theorem nestedAll_walk (around : List Item) :
    ∀ items, (nestedAll around items).map (fun e => (e.1.length, e.2)) = walkAll around.length items
  | [] => by
    rw [nestedAll, walkAll]
    rfl
  | i :: rest => by
    rw [nestedAll, walkAll, List.map_append, nested_walk around i, nestedAll_walk around rest]
end

theorem nestedAll_append (around a b : List Item) :
    nestedAll around (a ++ b) = nestedAll around a ++ nestedAll around b := by
  induction a with
  | nil => simp [nestedAll]
  | cons i rest ih => simp [nestedAll, ih]

mutual
theorem suffix_of_mem_nested {around : List Item} {e : List Item × Item} :
    ∀ {i : Item}, e ∈ nested around i → around <:+ e.1
  | .leaf _ _, h => by
    rw [nested, List.mem_singleton] at h
    exact h ▸ List.suffix_rfl
  | .comment _ _, h => by
    rw [nested, List.mem_singleton] at h
    exact h ▸ List.suffix_rfl
  | .node kind span children, h => by
    rw [nested, List.mem_cons] at h
    rcases h with rfl | h
    · exact List.suffix_rfl
    · exact (List.suffix_cons _ _).trans (suffix_of_mem_nestedAll h)

/-- Around what stands below an item stands all that is around the item. -/
theorem suffix_of_mem_nestedAll {around : List Item} {e : List Item × Item} :
    ∀ {items : List Item}, e ∈ nestedAll around items → around <:+ e.1
  | [], h => by
    rw [nestedAll] at h
    exact absurd h List.not_mem_nil
  | i :: rest, h => by
    rw [nestedAll, List.mem_append] at h
    rcases h with h | h
    · exact suffix_of_mem_nested h
    · exact suffix_of_mem_nestedAll h
end

/-- Nothing in a rule without a selector is in the outline. -/
theorem filter_nestedAll_of_nameless (h : around.any isNameless = true) :
    (nestedAll around items).filter inOutline = [] := by
  rw [List.filter_eq_nil_iff]
  intro e he
  obtain ⟨r, hr, hnameless⟩ := List.any_eq_true.1 h
  have hany : e.1.any isNameless = true :=
    List.any_eq_true.2 ⟨r, (suffix_of_mem_nestedAll he).subset hr, hnameless⟩
  simp [inOutline, hany]

/-! ## Items that stand in no outline -/

/-- A part of an item that is not listed, is no block and has no parts of its own. -/
structure Bare (i : Item) : Prop where
  children : i.children = []
  listed : i.isListed = false
  block : i.isKind .block = false

/-- The kinds of leaves. -/
def leafKinds : List ItemKind :=
  [.variableName, .value, .flag, .propertyName, .selector, .atKeyword, .identifier, .arguments,
   .punctuation, .unknown]

theorem bare_leaf (h : kind ∈ leafKinds) : (leaf kind span).Bare := by
  refine ⟨rfl, ?_, ?_⟩ <;> revert h <;> cases kind <;> simp [leafKinds, isListed, isKind, kind?]

theorem bare_comment {style : CommentStyle} : (comment style span).Bare := ⟨rfl, rfl, rfl⟩

theorem Bare.nested (h : i.Bare) (around : List Item) : i.nested around = [(around, i)] := by
  rw [nested_eq, h.children, nestedAll]

theorem filter_nestedAll_of_bare (h : ∀ c ∈ items, c.Bare) (around : List Item) :
    (nestedAll around items).filter inOutline = [] := by
  induction items with
  | nil => rfl
  | cons c rest ih =>
    obtain ⟨hc, hrest⟩ := List.forall_mem_cons.1 h
    rw [nestedAll, hc.nested, List.singleton_append, List.filter_cons_of_neg, ih hrest]
    simp [inOutline, hc.listed]

end Item

/-- The kind of the part that an item is named by in outlines. -/
def ItemKind.namePart? : ItemKind → Option ItemKind
  | variableDeclaration => some .variableName
  | propertyDeclaration => some .propertyName
  | ruleBlock => some .selector
  | atRule => some .atKeyword
  | _ => none

namespace Item

variable {i : Item} {parts : List Item} {kind part : ItemKind}

theorem child?_gather_isSome :
    ((gather kind parts).child? part).isSome ↔ ∃ c ∈ parts, c.isKind part = true := by
  show ((stableSort _ parts).find? fun c => c.isKind part).isSome ↔ _
  simp only [List.find?_isSome, mem_stableSort]

theorem isNameless_gather (h : ∀ c ∈ parts, c.isKind .selector = false) :
    (gather .ruleBlock parts).isNameless = true := by
  have hnone : (gather .ruleBlock parts).child? .selector = none := by
    rw [← Option.not_isSome_iff_eq_none, child?_gather_isSome]
    intro hsome
    obtain ⟨c, hc, hkind⟩ := hsome
    exact Bool.false_ne_true ((h c hc).symm.trans hkind)
  rw [isNameless, hnone]
  rfl

end Item

namespace Symbol

variable {source : Text} {i name : Item} {kind : ItemKind} {shown : SymbolKind} {s : Symbol}
  {below : List Symbol}

/-! ## The symbol of an item -/

theorem naming?_isSome_iff : (naming? source i).isSome ↔
    ∃ kind part, i.kind? = some kind ∧ kind.namePart? = some part ∧ (i.child? part).isSome := by
  cases hkind : i.kind? with
  | none => simp [naming?, hkind]
  | some kind => cases kind <;> simp [naming?, hkind, ItemKind.namePart?]

theorem isListed_of_naming? (h : (naming? source i).isSome) : i.isListed = true := by
  obtain ⟨kind, part, hkind, hpart, hchild⟩ := naming?_isSome_iff.1 h
  cases kind <;> simp [ItemKind.namePart?] at hpart <;> subst hpart <;>
    simp [Item.isListed, hkind, hchild]

theorem naming?_of_not_listed (h : i.isListed = false) : naming? source i = none := by
  rw [← Option.not_isSome_iff_eq_none]
  intro hsome
  exact Bool.false_ne_true (h.symm.trans (isListed_of_naming? hsome))

theorem occurs_of_naming? (h : naming? source i = some (name, shown)) : Item.Occurs name i := by
  have hchild : ∀ {part} {shown' : SymbolKind},
      (i.child? part).map (fun c => (c, shown')) = some (name, shown) → Item.Occurs name i := by
    intro part shown' h
    obtain ⟨c, hc, hpair⟩ := Option.map_eq_some_iff.1 h
    cases hpair
    exact (Item.child?_eq_some hc).1
  unfold naming? at h
  split at h
  · exact hchild h
  · exact hchild h
  · exact hchild h
  · obtain ⟨keyword, hkeyword, hpair⟩ := Option.map_eq_some_iff.1 h
    -- an at-rule without an identifier is named by its keyword
    cases hidentifier : i.child? .identifier with
    | none =>
      rw [hidentifier] at hpair
      cases hpair
      exact (Item.child?_eq_some hkeyword).1
    | some identifier =>
      rw [hidentifier] at hpair
      cases hpair
      exact (Item.child?_eq_some hidentifier).1
  · cases h

theorem children_of_ofItem? (h : ofItem? source i below = some s) : s.children = below := by
  unfold ofItem? at h
  simp only [Option.bind_eq_bind, Option.bind_eq_some_iff] at h
  obtain ⟨_, -, _, -, _, -, hs⟩ := h
  cases hs
  rfl

theorem ofItem?_of_not_listed (h : i.isListed = false) : ofItem? source i below = none := by
  rw [ofItem?, naming?_of_not_listed h]
  rfl

/-- An item that has a name has a symbol, if it lies in the text. -/
theorem exists_ofItem? (hname : (naming? source i).isSome)
    (hends : i.Throughout (·.stop ≤ source.length)) (below : List Symbol) :
    ∃ s, ofItem? source i below = some s := by
  obtain ⟨⟨name, shown⟩, hname⟩ := Option.isSome_iff_exists.1 hname
  obtain ⟨range, hrange⟩ := Option.isSome_iff_exists.1
    (Text.rangeOf_isSome_iff.2 (hends i .here))
  obtain ⟨nameRange, hnameRange⟩ := Option.isSome_iff_exists.1
    (Text.rangeOf_isSome_iff.2 (hends name (occurs_of_naming? hname)))
  rw [ofItem?, hname]
  simp [hrange, hnameRange]

theorem walkAll_append (depth : Nat) (a b : List Symbol) :
    walkAll depth (a ++ b) = walkAll depth a ++ walkAll depth b := by
  induction a with
  | nil => simp [walkAll]
  | cons s rest ih => simp [walkAll, ih]

theorem belowAll_append (source : Text) (a b : List Item) :
    belowAll source (a ++ b) = belowAll source a ++ belowAll source b := by
  induction a with
  | nil => simp [belowAll]
  | cons i rest ih => simp [belowAll, ih]

theorem walk_eq (depth : Nat) (s : Symbol) :
    s.walk depth = (depth, s) :: walkAll (depth + 1) s.children := by
  cases s
  rw [walk]
  rfl

/-! ## Entries of the walk over an outline -/

/-- What a walk over the outline meets and what a walk over the sheet meets: the symbol is the one
of the item, as deep as blocks stand around the item. -/
structure Lists (source : Text) (symbol : Nat × Symbol) (e : List Item × Item) : Prop where
  depth : symbol.1 = Item.blocksAround e.1
  made : ofItem? source e.2 symbol.2.children = some symbol.2

/-- The walk over the symbols lists just the items that belong in the outline. -/
def ListsAll (source : Text) (around : List Item) (symbols : List Symbol)
    (items : List (List Item × Item)) : Prop :=
  List.Forall₂ (Lists source) (walkAll (Item.blocksAround around) symbols)
    (items.filter Item.inOutline)

variable {around items before after children inner : List Item} {span within : Span}

theorem inBlock_append_of_bare (source : Text) (h : ∀ c ∈ before, c.Bare) (after : List Item) :
    inBlock source (before ++ after) = inBlock source after := by
  induction before with
  | nil => rfl
  | cons c rest ih =>
    obtain ⟨hc, hrest⟩ := List.forall_mem_cons.1 h
    have hblock := hc.block
    rw [List.cons_append, inBlock]
    · exact ih hrest
    · rintro span children rfl
      cases hblock
    · rintro span rfl
      cases hblock

theorem inBlock_of_bare (h : ∀ c ∈ items, c.Bare) : inBlock source items = [] := by
  have hnil := inBlock_append_of_bare source h []
  rwa [List.append_nil, inBlock] at hnil

theorem inBlock_of_block (h : ∀ c ∈ before, c.Bare) :
    inBlock source (before ++ .node .block within inner :: after) = belowAll source inner := by
  rw [inBlock_append_of_bare source h, inBlock]

theorem filter_nestedAll_of_block (hbefore : ∀ c ∈ before, c.Bare) (hafter : ∀ c ∈ after, c.Bare)
    (around : List Item) :
    (Item.nestedAll around (before ++ .node .block within inner :: after)).filter Item.inOutline =
      (Item.nestedAll (.node .block within inner :: around) inner).filter Item.inOutline := by
  rw [Item.nestedAll_append, Item.nestedAll, Item.nested, List.filter_append,
    Item.filter_nestedAll_of_bare hbefore, List.nil_append, List.cons_append,
    List.filter_cons_of_neg (by simp [Item.inOutline, Item.isListed, Item.kind?]),
    List.filter_append, Item.filter_nestedAll_of_bare hafter, List.append_nil]

theorem below?_eq (source : Text) (i : Item) :
    below? source i = ofItem? source i (inBlock source i.children) := by
  cases i <;> rw [below?] <;> rfl

theorem belowAll_singleton (source : Text) (i : Item) :
    belowAll source [i] = (below? source i).toList := by
  rw [belowAll, belowAll, List.append_nil]

theorem nestedAll_singleton (around : List Item) (i : Item) :
    Item.nestedAll around [i] = i.nested around := by
  rw [Item.nestedAll, Item.nestedAll, List.append_nil]

theorem listsAll_nil (source : Text) (around : List Item) : ListsAll source around [] [] := by
  unfold ListsAll
  rw [walkAll]
  exact .nil

theorem ListsAll.append {symbols symbols' : List Symbol}
    {entries entries' : List (List Item × Item)} (h : ListsAll source around symbols entries)
    (h' : ListsAll source around symbols' entries') :
    ListsAll source around (symbols ++ symbols') (entries ++ entries') := by
  unfold ListsAll
  rw [walkAll_append, List.filter_append]
  exact List.rel_append h h'

/-- An item that is not listed gives nothing, if nothing in it belongs in the outline. -/
theorem listsAll_of_not_listed (h : i.isListed = false)
    (hbelow : (Item.nestedAll (i :: around) i.children).filter Item.inOutline = []) :
    ListsAll source around (belowAll source [i]) (Item.nestedAll around [i]) := by
  have hout : ¬Item.inOutline (around, i) = true := by
    simp [Item.inOutline, h]
  rw [belowAll_singleton, below?_eq, ofItem?_of_not_listed h, nestedAll_singleton, Item.nested_eq,
    ListsAll, List.filter_cons_of_neg hout, hbelow]
  exact listsAll_nil source around

/-- A rule without a selector gives nothing, whatever it holds. -/
theorem listsAll_of_nameless (h : i.isNameless = true) :
    ListsAll source around (belowAll source [i]) (Item.nestedAll around [i]) := by
  refine listsAll_of_not_listed (Item.not_listed_of_nameless h) ?_
  apply Item.filter_nestedAll_of_nameless
  exact List.any_eq_true.2 ⟨i, List.mem_cons_self, h⟩

/-- An item that has a name is listed, and behind it what is listed in its block. -/
theorem listsAll_of_named (hname : (naming? source i).isSome)
    (hends : i.Throughout (·.stop ≤ source.length)) (haround : around.any Item.isNameless = false)
    (hbelow : List.Forall₂ (Lists source)
      (walkAll (Item.blocksAround around + 1) (inBlock source i.children))
      ((Item.nestedAll (i :: around) i.children).filter Item.inOutline)) :
    ListsAll source around (belowAll source [i]) (Item.nestedAll around [i]) := by
  obtain ⟨s, hs⟩ := exists_ofItem? hname hends (inBlock source i.children)
  have hchildren := children_of_ofItem? hs
  have hin : Item.inOutline (around, i) = true := by
    simp [Item.inOutline, isListed_of_naming? hname, haround]
  rw [belowAll_singleton, below?_eq, hs, nestedAll_singleton, Item.nested_eq, ListsAll,
    List.filter_cons_of_pos hin, Option.toList_some, walkAll, walkAll, List.append_nil, walk_eq,
    hchildren]
  refine .cons ⟨rfl, ?_⟩ hbelow
  show ofItem? source i s.children = some s
  rw [hchildren]
  exact hs

end Symbol

namespace Grammar

open Item LiveSheet.Symbol

variable {ts run : List Token} {items asides head parts : List Item} {t : Token} {i : Item}
  {kind part : ItemKind} {covered : Option Span} {source : Text}

/-! ## What stands in front of blocks -/

theorem bare_of_comment? (h : t.comment? = some i) : i.Bare := by
  unfold Token.comment? at h
  split at h <;> cases h <;> exact bare_comment

theorem bare_covering (h : kind ∈ leafKinds) : ∀ c ∈ covering kind covered, c.Bare := by
  cases covered with
  | none => exact List.forall_mem_nil _
  | some s => exact List.forall_mem_singleton.2 (bare_leaf h)

theorem Sifted.bare (h : Sifted kind run asides covered) : ∀ c ∈ asides, c.Bare := by
  induction h with
  | nil => exact List.forall_mem_nil _
  | cover _ _ ih => exact ih
  | aside _ haside ih =>
    refine List.forall_mem_append.2 ⟨ih, List.forall_mem_singleton.2 ?_⟩
    rcases haside.comment_or_flag with hcomment | ⟨-, rfl⟩
    · exact bare_of_comment? hcomment
    · exact bare_leaf (by decide)

theorem ValueForm.bare (h : ValueForm run items) : ∀ c ∈ items, c.Bare := by
  cases h with
  | unmarked hsifted =>
    exact List.forall_mem_append.2 ⟨hsifted.bare, bare_covering (by decide)⟩
  | marked hsifted _ =>
    have hmark : ∀ {t : Token}, (t.leaf .punctuation).Bare := bare_leaf (by decide)
    exact List.forall_mem_append.2 ⟨List.forall_mem_append.2
      ⟨hsifted.bare, bare_covering (by decide)⟩, List.forall_mem_singleton.2 hmark⟩

theorem SignatureForm.bare {keyword : Token} (h : SignatureForm keyword run items) :
    ∀ c ∈ items, c.Bare := by
  cases h with
  | anonymous => exact List.forall_mem_nil _
  | named => exact List.forall_mem_singleton.2 (bare_leaf (by decide))
  | callable =>
    exact List.forall_mem_cons.2 ⟨bare_leaf (by decide),
      List.forall_mem_singleton.2 (bare_leaf (by decide))⟩

theorem HeadForm.bare (h : HeadForm kind run head) : ∀ c ∈ head, c.Bare := by
  cases h with
  | atRule _ hsignature hsifted =>
    rw [List.cons_append, List.cons_append]
    exact List.forall_mem_cons.2 ⟨bare_leaf (by decide), List.forall_mem_append.2
      ⟨List.forall_mem_append.2 ⟨hsignature.bare, hsifted.bare⟩, bare_covering (by decide)⟩⟩
  | rule hsifted =>
    exact List.forall_mem_append.2 ⟨hsifted.bare, bare_covering (by decide)⟩

/-- Among the parts is one that names an item of the kind. -/
def NamedBy (kind : ItemKind) (parts : List Item) : Prop :=
  ∃ part ∈ kind.namePart?, ∃ c ∈ parts, c.isKind part = true

theorem NamedBy.append (h : NamedBy kind head) (more : List Item) :
    NamedBy kind (head ++ more) := by
  obtain ⟨part, hpart, c, hc, hkind⟩ := h
  exact ⟨part, hpart, c, List.mem_append_left _ hc, hkind⟩

theorem NamedBy.naming? (h : NamedBy kind parts) (source : Text) :
    (Symbol.naming? source (.gather kind parts)).isSome := by
  obtain ⟨part, hpart, hnamed⟩ := h
  exact naming?_isSome_iff.2 ⟨kind, part, rfl, hpart, child?_gather_isSome.2 hnamed⟩

/-- A head names its item, unless it is the head of a rule and no token is in it but comments. -/
theorem HeadForm.named_or (h : HeadForm kind run head) :
    NamedBy kind head ∨ kind = .ruleBlock ∧ ∀ c ∈ head, c.isKind .selector = false := by
  cases h with
  | atRule => exact .inl ⟨.atKeyword, rfl, _, List.mem_cons_self, rfl⟩
  | @rule run asides covered hsifted =>
    cases covered with
    | some s =>
      exact .inl ⟨.selector, rfl, .leaf .selector s,
        List.mem_append_right _ (List.mem_singleton_self _), rfl⟩
    | none =>
      refine .inr ⟨rfl, List.forall_mem_append.2 ⟨fun c hc => ?_, List.forall_mem_nil _⟩⟩
      rcases hsifted.kind_of_aside c hc with hnone | ⟨hvalue, -⟩
      · rw [isKind, hnone]
        rfl
      · cases hvalue

/-- The items without a block are bare, or gathered from parts that are. -/
theorem ItemForm.bare_or (h : ItemForm run i) :
    i.Bare ∨ ∃ kind parts, i = .gather kind parts ∧ (∀ c ∈ parts, c.Bare) ∧
      (NamedBy kind parts ∨ kind = .unknown) := by
  have hleaf : ∀ {kind : ItemKind} {span : Span}, kind ∈ leafKinds →
      ∀ c ∈ [Item.leaf kind span], c.Bare := fun h => List.forall_mem_singleton.2 (bare_leaf h)
  cases h with
  | comment hcomment => exact .inl (bare_of_comment? hcomment)
  | mark => exact .inl (bare_leaf (by decide))
  | unknown => exact .inl (bare_leaf (by decide))
  | variableDeclaration _ _ hvalue =>
    refine .inr ⟨_, _, rfl, List.forall_mem_cons.2 ⟨bare_leaf (by decide),
      List.forall_mem_cons.2 ⟨bare_leaf (by decide), hvalue.bare⟩⟩, .inl ?_⟩
    exact ⟨.variableName, rfl, _, List.mem_cons_self, rfl⟩
  | @propertyDeclaration _ _ asides items name colon hsifted _ hvalue =>
    refine .inr ⟨_, _, rfl, List.forall_mem_append.2 ⟨List.forall_mem_append.2
      ⟨List.forall_mem_append.2 ⟨hsifted.bare, hleaf (by decide)⟩, hleaf (by decide)⟩,
        hvalue.bare⟩, .inl ?_⟩
    exact ⟨.propertyName, rfl, .leaf .propertyName name, by simp, rfl⟩
  | atRule hhead =>
    obtain hnamed | ⟨hrule, -⟩ := hhead.named_or
    · exact .inr ⟨_, _, rfl, hhead.bare, .inl hnamed⟩
    · cases hrule
  | markedAtRule hhead _ =>
    obtain hnamed | ⟨hrule, -⟩ := hhead.named_or
    · exact .inr ⟨_, _, rfl, List.forall_mem_append.2 ⟨hhead.bare, hleaf (by decide)⟩,
        .inl (hnamed.append _)⟩
    · cases hrule
  | remarkedUnknown hsifted =>
    exact .inr ⟨_, _, rfl, List.forall_mem_append.2 ⟨hsifted.bare, hleaf (by decide)⟩, .inr rfl⟩

/-! ## The walk over an outline -/

theorem ItemForm.listsAll (h : ItemForm run i) (hends : i.Throughout (·.stop ≤ source.length))
    {around : List Item} (haround : around.any isNameless = false) :
    ListsAll source around (belowAll source [i]) (nestedAll around [i]) := by
  obtain hbare | ⟨kind, parts, rfl, hparts, hnamed⟩ := h.bare_or
  · refine listsAll_of_not_listed hbare.listed ?_
    rw [hbare.children, nestedAll]
    rfl
  · have hbare : ∀ c ∈ (gather kind parts).children, c.Bare :=
      fun c hc => hparts c ((mem_stableSort _ parts c).1 hc)
    rcases hnamed with hnamed | rfl
    · refine listsAll_of_named (hnamed.naming? source) hends haround ?_
      rw [inBlock_of_bare hbare, filter_nestedAll_of_bare hbare, Symbol.walkAll]
      exact .nil
    · exact listsAll_of_not_listed rfl (filter_nestedAll_of_bare hbare _)

/-- Where the block stands among the parts of an item, in their order. -/
theorem exists_sorted_split (head : List Item) (block : Item) :
    ∃ before after, stableSort (fun a b : Item => a.start ≤ b.start) (head ++ [block]) =
        before ++ block :: after ∧ (∀ c ∈ before, c ∈ head) ∧ ∀ c ∈ after, c ∈ head := by
  have hperm := stableSort_perm (fun a b : Item => a.start ≤ b.start) (head ++ [block])
  obtain ⟨before, after, hsplit⟩ := List.append_of_mem
    (hperm.mem_iff.2 (List.mem_append_right _ (List.mem_singleton_self block)))
  rw [hsplit] at hperm
  have hrest : (before ++ after).Perm head := by
    have hfront : (block :: (before ++ after)).Perm (block :: head) :=
      List.perm_middle.symm.trans (hperm.trans (List.perm_append_singleton _ _))
    exact hfront.cons_inv
  exact ⟨before, after, hsplit, fun c hc => hrest.mem_iff.1 (List.mem_append_left _ hc),
    fun c hc => hrest.mem_iff.1 (List.mem_append_right _ hc)⟩

/-- An item with a block is listed with all that its block lists, or not at all. -/
theorem HeadForm.listsAll {within : Span} {children around : List Item}
    (h : HeadForm kind run head)
    (hends : (gather kind (head ++ [.node .block within children])).Throughout
      (·.stop ≤ source.length))
    (haround : around.any isNameless = false)
    (hinner : ∀ outer : List Item, outer.any isNameless = false →
      ListsAll source outer (belowAll source children) (nestedAll outer children)) :
    let i := gather kind (head ++ [.node .block within children])
    ListsAll source around (belowAll source [i]) (nestedAll around [i]) := by
  intro i
  let block := Item.node .block within children
  obtain ⟨before, after, hsplit, hbefore, hafter⟩ := exists_sorted_split head block
  have hbefore : ∀ c ∈ before, c.Bare := fun c hc => h.bare c (hbefore c hc)
  have hafter : ∀ c ∈ after, c.Bare := fun c hc => h.bare c (hafter c hc)
  have hchildren : i.children = before ++ block :: after := hsplit
  rcases h.named_or with hnamed | ⟨rfl, hselector⟩
  · have hname : (Symbol.naming? source i).isSome := (hnamed.append [block]).naming? source
    have hnameless : i.isNameless = false := not_nameless_of_listed (isListed_of_naming? hname)
    have houter : (block :: i :: around).any isNameless = false := by
      rw [List.any_cons, List.any_cons, haround, hnameless]
      rfl
    have hkind : i.isKind .block = false := by
      cases h <;> rfl
    -- what stands in the block has the block and the item around it, of which one is a block
    have hbelow := hinner _ houter
    rw [ListsAll, blocksAround_cons_block, blocksAround_cons_of_not hkind] at hbelow
    have hsymbols : inBlock source i.children = belowAll source children := by
      rw [hchildren, inBlock_of_block hbefore]
    have hentries : (nestedAll (i :: around) i.children).filter inOutline =
        (nestedAll (block :: i :: around) children).filter inOutline := by
      rw [hchildren, filter_nestedAll_of_block hbefore hafter]
    refine listsAll_of_named hname hends haround ?_
    rw [hsymbols, hentries]
    exact hbelow
  · apply listsAll_of_nameless
    apply isNameless_gather
    exact List.forall_mem_append.2 ⟨hselector, List.forall_mem_singleton.2 rfl⟩

/-- The items of a sheet or of a block, around which all rules have selectors. -/
theorem SheetForm.listsAll (h : SheetForm run items)
    (hends : ∀ i ∈ items, i.Throughout (·.stop ≤ source.length)) :
    ∀ around : List Item, around.any isNameless = false →
      ListsAll source around (belowAll source items) (nestedAll around items) := by
  induction h with
  | nil =>
    intro around haround
    rw [belowAll, nestedAll]
    exact listsAll_nil source around
  | @item done run items i _ hform ih =>
    intro around haround
    obtain ⟨hitems, hi⟩ := List.forall_mem_append.1 hends
    rw [Symbol.belowAll_append, nestedAll_append]
    exact (ih hitems around haround).append
      (hform.listsAll (hi i (List.mem_singleton_self i)) haround)
  | @block done run inner items head children kind brace close _ hhead _ _ _ ih ihinner =>
    intro around haround
    obtain ⟨hitems, hi⟩ := List.forall_mem_append.1 hends
    have hends := hi _ (List.mem_singleton_self _)
    have hblock : (Item.node .block (brace.span.cover close.span) children).Throughout
        (·.stop ≤ source.length) := by
      refine hends.of_mem ((mem_stableSort _ _ _).2 ?_)
      exact List.mem_append_right _ (List.mem_singleton_self _)
    rw [Symbol.belowAll_append, nestedAll_append]
    exact (ih hitems around haround).append
      (hhead.listsAll hends haround (ihinner fun c hc => hblock.of_mem hc))

theorem stop_le_of_parse {t : Text} (h : parse t = .ok items) :
    ∀ i ∈ items, i.Throughout (·.stop ≤ t.length) := by
  obtain ⟨hrow, -⟩ := row_of_parse h
  intro i hi j hj
  obtain ⟨-, -, hstop⟩ := hrow.tiling.inside i.span (List.mem_map_of_mem hi)
  exact Nat.le_trans (hj.within (arranged_of_parse h i hi)).2 hstop

end Grammar

/-- The outline of a sheet.  A walk over the sheet meets its items with those around them, in the
order in which they begin.  A walk over the outline meets a symbol for each of the items that are
variable or property declarations, at-rules, or rules with a selector, and stand in no rule
without one, and no other symbol.  It meets them in the same order, and each is as deep as blocks
stand around its item. -/
theorem Tree.outline_listing {s : Snapshot} {items : List Item}
    (h : Grammar.parse s.text = .ok items) :
    let placed := Item.nestedAll [] items
    placed.map (fun e => (e.1.length, e.2)) = Item.walkAll 0 items ∧
      placed.Pairwise (fun e f => e.2.start ≤ f.2.start) ∧
      List.Forall₂ (Symbol.Lists s.text) (Symbol.walkAll 0 (Tree.parsed s items).outline)
        (placed.filter Item.inOutline) := by
  intro placed
  have hwalk := Item.nestedAll_walk [] items
  obtain ⟨tokens, hlex⟩ := Grammar.exists_lex_of_parse h
  have hform := Grammar.sheetForm_of_parse h hlex
  refine ⟨hwalk, ?_, hform.listsAll (Grammar.stop_le_of_parse h) [] rfl⟩
  obtain ⟨hordered, -⟩ := Grammar.parse_order h
  have hmap : Item.walkAll 0 items = placed.map fun e => (e.1.length, e.2) := hwalk.symm
  rw [hmap, List.pairwise_map] at hordered
  exact hordered

/-- A sheet in which a rule without a selector holds a declaration. -/
def sheltered : Text := "a \x7b $b: 1; \x7b c: d \x7d @media e \x7b f: g \x7d \x7d".toList

theorem Tree.outline_listing_sheltered :
    ∃ items, Grammar.parse sheltered = .ok items ∧
      (Item.nestedAll [] items).any (fun e => e.2.isListed && e.1.any Item.isNameless) = true ∧
      let walked := Symbol.walkAll 0 (Tree.parsed ⟨1, .buffer 0, sheltered⟩ items).outline
      (walked.map fun
        | (depth, .entry name _ kind _ _ _) => (depth, name, kind)) =
          [(0, "a".toList, .rule), (1, "$b".toList, .variable), (1, "@media".toList, .atRule),
            (2, "f".toList, .property)] ∧
        List.Forall₂ (Symbol.Lists sheltered) walked
          ((Item.nestedAll [] items).filter Item.inOutline) := by
  obtain ⟨items, hparse, hread⟩ := exists_ok (r := Grammar.parse sheltered)
    (p := fun items =>
      (Item.nestedAll [] items).any (fun e => e.2.isListed && e.1.any Item.isNameless) &&
        ((Symbol.walkAll 0 (Tree.parsed ⟨1, .buffer 0, sheltered⟩ items).outline).map fun
          | (depth, .entry name _ kind _ _ _) => (depth, name, kind)) ==
            [(0, "a".toList, .rule), (1, "$b".toList, .variable), (1, "@media".toList, .atRule),
              (2, "f".toList, .property)]) (by decide +kernel)
  obtain ⟨hnameless, hsymbols⟩ := Bool.and_eq_true_iff.1 hread
  obtain ⟨-, -, hlists⟩ := Tree.outline_listing (s := ⟨1, .buffer 0, sheltered⟩) hparse
  exact ⟨items, hparse, hnameless, beq_iff_eq.1 hsymbols, hlists⟩

end LiveSheet
