import LiveSheet.Proofs.Declarations

/-!
# The schema of items

Which parts an item has, by its kind.  The forms of items tell of which kinds the parts are and how
many there are of each, the order of the tokens tells which of them comes first and which comes
last once they are sorted.
-/

namespace LiveSheet

namespace Item

/-- The kinds of declarations, at-rules and rules. -/
def statementKinds : List ItemKind :=
  [.variableDeclaration, .propertyDeclaration, .ruleBlock, .atRule]

/-- The kinds of items outside all blocks, and of the parts of blocks. -/
def levelKinds : List ItemKind := statementKinds ++ [.punctuation, .unknown]

/-- The kinds of which an item has one part at most. -/
def singleKinds : List ItemKind :=
  [.variableName, .propertyName, .atKeyword, .value, .selector, .identifier, .arguments, .block]

/-- Kinds of items, each with the kind of a part that such an item has. -/
def partKinds : List (ItemKind × ItemKind) :=
  [(.variableDeclaration, .variableName), (.propertyDeclaration, .propertyName),
   (.atRule, .atKeyword), (.ruleBlock, .block)]

/-- The keywords of the at-rules that may have an argument list. -/
def callingKeywords : List Text :=
  ["@mixin".toList, "@function".toList, "@include".toList]

/-- A comment, or an item of a kind that stands outside all blocks or directly in one. -/
def AtLevel (i : Item) : Prop := ∀ kind ∈ i.kind?, kind ∈ levelKinds

/-- The item is an at-rule that is called by name, and the other one is the argument list behind
the name.  It reaches from a parenthesis to the one that closes it. -/
structure Calls (t : Text) (tokens : List Token) (i list : Item) : Prop where
  kind : i.isKind .atRule = true
  parts : ∃ keyword name rest, i.children = keyword :: name :: list :: rest ∧
    keyword.isKind .atKeyword = true ∧ keyword.textIn t ∈ callingKeywords ∧
    name.isKind .identifier = true
  closed : ∃ inner, Token.Parenthesized tokens inner list.span ∧ Grammar.ParensClosed 0 inner
  text : ∃ inner, list.textIn t = '(' :: (inner ++ [')'])

/-- The item reads as a sigil and the characters of a word, at least one. -/
def SpelledVariable (t : Text) (i : Item) : Prop :=
  ∃ word, i.textIn t = '$' :: word ∧ word ≠ [] ∧ ∀ c ∈ word, Text.isWordChar c = true

/-- Which parts an item has.  If there are statements among them, then the item is a block, and
beside them a block has only comments, marks and what is unknown.  What an item of a kind cannot be
without, it has once, and it has no two parts of a kind that is looked for in items. -/
structure Schema (t : Text) (tokens : List Token) (i : Item) : Prop where
  statement : ∀ c ∈ i.children, ∀ kind ∈ statementKinds, c.isKind kind = true → i.IsBlock
  level : i.IsBlock → ∀ c ∈ i.children, c.AtLevel
  required : ∀ kind part, (kind, part) ∈ partKinds → i.isKind kind = true →
    i.children.countP (·.isKind part) = 1
  last : i.isKind .ruleBlock = true → ∃ front block, i.children = front ++ [block] ∧ block.IsBlock
  single : ∀ part ∈ singleKinds, i.children.countP (·.isKind part) ≤ 1
  arguments : ∀ c ∈ i.children, c.isKind .arguments = true → i.Calls t tokens c
  variableName : i.isKind .variableName = true → i.SpelledVariable t

variable {t : Text} {tokens : List Token} {i : Item} {items items' parts children : List Item}
  {kind part : ItemKind} {kinds kinds' : List ItemKind} {s : Span}

/-! ## Allowances -/

/-- The items are of each kind that matters at most as often as the kinds list it.  So the forms of
items are counted by putting lists of kinds together. -/
def Allows (kinds : List ItemKind) (items : List Item) : Prop :=
  ∀ part ∈ singleKinds ++ statementKinds, items.countP (·.isKind part) ≤ kinds.count part

theorem Allows.append (h : Allows kinds items) (h' : Allows kinds' items') :
    Allows (kinds ++ kinds') (items ++ items') := by
  intro part hpart
  rw [List.countP_append, List.count_append]
  exact Nat.add_le_add (h part hpart) (h' part hpart)

theorem allows_nil (kinds : List ItemKind) : Allows kinds [] := fun _ _ => Nat.zero_le _

theorem allows_of_kind (h : i.kind? = some kind) : Allows [kind] [i] := by
  intro part _
  rw [List.countP_singleton, List.count_singleton, isKind, h]
  exact Nat.le_refl _

theorem allows_others
    (h : ∀ c ∈ items, ∀ kind ∈ c.kind?, kind ∉ singleKinds ++ statementKinds) :
    Allows [] items := by
  intro part hpart
  have hzero : items.countP (·.isKind part) = 0 :=
    List.countP_eq_zero.2 fun c hc hkind => h c hc part (beq_iff_eq.1 hkind) hpart
  exact Nat.le_of_eq hzero

/-- What is not listed is not there. -/
theorem Allows.isKind_ne (h : Allows kinds items) (hpart : part ∈ singleKinds ++ statementKinds)
    (hnot : part ∉ kinds) : ∀ c ∈ items, c.isKind part ≠ true := by
  have hcount := h part hpart
  rw [List.count_eq_zero_of_not_mem hnot, Nat.le_zero] at hcount
  exact List.countP_eq_zero.1 hcount

/-- Of a kind that no two parts have, the part that is found is the only one. -/
theorem child?_of_countP_le_one (h : i.children.countP (·.isKind part) ≤ 1) {c : Item}
    (hc : c ∈ i.children) (hkind : c.isKind part = true) : i.child? part = some c := by
  have hmem : c ∈ i.children.filter (·.isKind part) := List.mem_filter.2 ⟨hc, hkind⟩
  rw [List.countP_eq_length_filter] at h
  obtain ⟨d, hd⟩ := List.length_eq_one_iff.1
    (Nat.le_antisymm h (List.length_pos_of_mem hmem))
  rw [child?, ← List.head?_filter]
  rw [hd] at hmem ⊢
  rw [List.mem_singleton.1 hmem]
  rfl

/-! ## Items with and without parts -/

theorem throughout_of_children_nil {P : Item → Prop} (h : i.children = []) (hi : P i) :
    i.Throughout P := by
  intro j hj
  cases hj with
  | here => exact hi
  | under hc _ =>
    obtain rfl : _ = [] := h
    exact absurd hc List.not_mem_nil

theorem schema_of_children_nil (h : i.children = [])
    (hkind : ∀ kind ∈ statementKinds, i.isKind kind ≠ true)
    (hvariable : i.isKind .variableName = true → i.SpelledVariable t) : i.Schema t tokens := by
  refine ⟨?_, ?_, ?_, ?_, ?_, ?_, hvariable⟩
  · rw [h]
    exact List.forall_mem_nil _
  · rw [h]
    exact fun _ => List.forall_mem_nil _
  · intro kind part hpair hi
    refine absurd hi (hkind kind ?_)
    revert hpair
    cases kind <;> simp [partKinds, statementKinds]
  · exact fun hi => absurd hi (hkind _ (by decide))
  · rw [h]
    exact fun _ _ => Nat.zero_le _
  · rw [h]
    exact List.forall_mem_nil _

/-- A block has any number of statements, and none of the parts that other items have. -/
theorem schema_block (h : ∀ c ∈ children, c.AtLevel ∧ c.Throughout (Schema t tokens)) :
    (node .block s children).Throughout (Schema t tokens) := by
  have hapart : ∀ part ∈ singleKinds, part ∉ levelKinds := by decide
  have hnone : ∀ part ∈ singleKinds, ∀ c ∈ children, c.isKind part ≠ true :=
    fun part hpart c hc hkind => hapart part hpart ((h c hc).1 part (beq_iff_eq.1 hkind))
  refine throughout_node ⟨fun _ _ _ _ _ => rfl, fun _ c hc => (h c hc).1, ?_, nofun,
    fun part hpart => ?_, fun c hc hkind => ?_, nofun⟩ fun c hc => (h c hc).2
  · intro kind part hpair hkind
    obtain rfl : .block = kind := Option.some.inj (beq_iff_eq.1 hkind)
    revert hpair
    simp [partKinds]
  · exact Nat.le_trans (Nat.le_of_eq (List.countP_eq_zero.2 (hnone part hpart))) (Nat.zero_le 1)
  · exact absurd hkind (hnone _ (by decide) c hc)

/-- An item with a part of each kind at most, none of them a statement. -/
theorem schema_gather (hkind : kind ∈ nodeKinds)
    (hparts : ∀ c ∈ parts, c.children = [] ∨ c.Throughout (Schema t tokens))
    (hallows : Allows kinds parts)
    (hkinds : kinds.Nodup ∧ ∀ part ∈ statementKinds, part ∉ kinds)
    (hrequired : ∀ part, (kind, part) ∈ partKinds → ∃ c ∈ parts, c.isKind part = true)
    (hlast : kind = .ruleBlock → ∃ front block, (gather kind parts).children = front ++ [block] ∧
      block.IsBlock)
    (harguments : .arguments ∈ kinds → ∀ c ∈ parts, c.isKind .arguments = true →
      (gather kind parts).Calls t tokens c)
    (hvariable : .variableName ∈ kinds → ∀ c ∈ parts, c.isKind .variableName = true →
      c.SpelledVariable t) :
    (gather kind parts).Throughout (Schema t tokens) := by
  have hmem : ∀ c, c ∈ (gather kind parts).children ↔ c ∈ parts := mem_stableSort _ parts
  have hcount : ∀ part, (gather kind parts).children.countP (·.isKind part) =
      parts.countP (·.isKind part) := fun part => (stableSort_perm _ parts).countP_eq _
  have hone : ∀ part ∈ singleKinds, parts.countP (·.isKind part) ≤ 1 := fun part hpart =>
    Nat.le_trans (hallows part (List.mem_append_left _ hpart))
      (List.nodup_iff_count_le_one.1 hkinds.1 part)
  have hnone : ∀ part ∈ statementKinds, ∀ c ∈ parts, c.isKind part ≠ true :=
    fun part hpart => hallows.isKind_ne (List.mem_append_right _ hpart) (hkinds.2 part hpart)
  have hlisted : ∀ part ∈ singleKinds, ∀ c ∈ parts, c.isKind part = true → part ∈ kinds := by
    intro part hpart c hc hi
    by_contra hnot
    exact hallows.isKind_ne (List.mem_append_left _ hpart) hnot c hc hi
  refine throughout_gather ⟨fun c hc part hpart hi => ?_, fun hblock => ?_,
    fun kind' part hpair hi => ?_, fun hi => ?_, fun part hpart => ?_, fun c hc => ?_,
    fun hi => ?_⟩ fun c hc => ?_
  · exact absurd hi (hnone part hpart c ((hmem c).1 hc))
  · exact absurd (Option.some.inj hblock) (ne_of_mem_nodeKinds hkind).1
  · obtain rfl : kind = kind' := Option.some.inj (beq_iff_eq.1 hi)
    have hsingle : ∀ pair ∈ partKinds, pair.2 ∈ singleKinds := by decide
    rw [hcount]
    exact Nat.le_antisymm (hone part (hsingle _ hpair))
      (List.countP_pos_iff.2 (hrequired part hpair))
  · exact hlast (Option.some.inj (beq_iff_eq.1 hi))
  · rw [hcount]
    exact hone part hpart
  · intro hi
    have hc := (hmem c).1 hc
    exact harguments (hlisted _ (by decide) c hc hi) c hc hi
  · obtain rfl : kind = .variableName := Option.some.inj (beq_iff_eq.1 hi)
    exact absurd hkind (by decide)
  · rcases hparts c hc with hnil | hthrough
    · exact throughout_of_children_nil hnil (schema_of_children_nil hnil
        (fun part hpart => hnone part hpart c hc)
        fun hi => hvariable (hlisted _ (by decide) c hc hi) c hc hi)
    · exact hthrough

end Item

namespace Grammar

open Item

variable {t : Text} {tokens run run' : List Token} {items items' asides head tail : List Item}
  {kind part : ItemKind} {covered : Option Span} {tok keyword : Token} {i : Item}

/-! ## The order of parts -/

/-- What is read of the tokens in front is sorted in front of what is read of those behind. -/
theorem Spread.children_append (hord : Token.InOrder (run ++ run')) (h : Spread run items)
    (h' : Spread run' items') (kind : ItemKind) :
    (Item.gather kind (items ++ items')).children =
      (Item.gather kind items).children ++ (Item.gather kind items').children := by
  refine stableSort_append fun a ha b hb => decide_eq_true ?_
  exact Nat.le_trans a.span.start_le_stop (hord.stop_le_start (h.ends a ha) (h'.ends b hb))

/-! ## The kinds of parts -/

theorem Sifted.allows (h : Sifted kind run asides covered) :
    Allows [kind] (asides ++ covering kind covered) := by
  have hasides : Allows [] asides := allows_others fun c hc part hpart => by
    rcases h.kind_of_aside c hc with hnone | ⟨-, hflag⟩
    · exact nomatch hnone.symm.trans hpart
    · obtain rfl : .flag = part := Option.some.inj (hflag.symm.trans hpart)
      decide
  have hcovering : Allows [kind] (covering kind covered) := by
    cases covered with
    | none => exact allows_nil _
    | some s => exact allows_of_kind rfl
  exact hasides.append hcovering

theorem allows_mark : Allows [] [tok.leaf .punctuation] :=
  allows_others (List.forall_mem_singleton.2 fun part hpart => by
    obtain rfl : .punctuation = part := Option.some.inj hpart
    decide)

theorem ValueForm.allows (h : ValueForm run items) : Allows [.value] items := by
  cases h with
  | unmarked hsifted => exact hsifted.allows
  | marked hsifted _ => exact hsifted.allows.append allows_mark

theorem SignatureForm.allows (h : SignatureForm keyword run items) :
    Allows [.identifier, .arguments] items := by
  cases h with
  | anonymous => exact allows_nil _
  | named => exact (allows_of_kind rfl).append (allows_nil [.arguments])
  | callable =>
    have hleaf : ∀ kind s, Allows [kind] [.leaf kind s] := fun _ _ => allows_of_kind rfl
    exact (hleaf .identifier _).append (hleaf .arguments _)

theorem schema_plain (hnil : i.children = [])
    (h : ∀ kind ∈ i.kind?, kind ∈ [.punctuation, .unknown]) :
    i.AtLevel ∧ i.Throughout (Schema t tokens) := by
  have hapart : ∀ part ∈ .variableName :: statementKinds,
      part ∉ [ItemKind.punctuation, .unknown] := by decide
  have hnot : ∀ part ∈ .variableName :: statementKinds, i.isKind part ≠ true :=
    fun part hpart hkind => hapart part hpart (h part (beq_iff_eq.1 hkind))
  have hschema : i.Schema t tokens := schema_of_children_nil hnil
    (fun part hpart => hnot part (List.mem_cons_of_mem _ hpart))
    fun hkind => absurd hkind (hnot _ List.mem_cons_self)
  exact ⟨fun kind hkind => List.mem_append_right _ (h kind hkind),
    throughout_of_children_nil hnil hschema⟩

/-- A list among the parts of a signature stands behind the name. -/
theorem SignatureForm.of_arguments (h : SignatureForm keyword run items) (hi : i ∈ items)
    (hkind : i.isKind .arguments = true) :
    ∃ name opening closing inner, run = name :: opening :: (inner ++ [closing]) ∧
      items = [name.leaf .identifier, i] ∧ namesCallable keyword.lexeme = true ∧
      opening.kind = .openParen ∧ closing.kind = .closeParen ∧ ParensClosed 0 inner ∧
      i = .leaf .arguments i.span ∧
      Span.coverAll ((opening :: (inner ++ [closing])).map Token.span) = some i.span := by
  cases h with
  | anonymous => exact absurd hi List.not_mem_nil
  | named =>
    rw [List.mem_singleton.1 hi] at hkind
    cases hkind
  | @callable name opening closing inner arguments hcallable _ hopening hclosing hclosed hcover =>
    rcases List.mem_cons.1 hi with rfl | hi
    · cases hkind
    · obtain rfl := List.mem_singleton.1 hi
      exact ⟨name, opening, closing, inner, rfl, rfl, hcallable, hopening, hclosing, hclosed, rfl,
        hcover⟩

theorem HeadForm.allows_atRule (h : HeadForm .atRule run head) :
    Allows [.atKeyword, .identifier, .arguments, .value] head := by
  cases h with
  | atRule _ hsignature hsifted =>
    have hkeyword : ∀ keyword : Token, Allows [.atKeyword] [keyword.leaf .atKeyword] :=
      fun _ => allows_of_kind rfl
    rw [List.append_assoc]
    exact ((hkeyword _).append hsignature.allows).append hsifted.allows

section

variable (hlex : Token.lex t = .ok tokens)

include hlex

theorem textIn_keyword (hmem : keyword ∈ tokens) (h : namesCallable keyword.lexeme = true) :
    (keyword.leaf .atKeyword).textIn t ∈ callingKeywords := by
  rw [Declaration.textIn_leaf ((Token.lex_tiling hlex).2 keyword hmem).1, trim_of_namesCallable h]
  simpa [namesCallable, callingKeywords, or_assoc] using h

theorem spelledVariable (hmem : tok ∈ tokens) (h : tok.kind = .variable) :
    (tok.leaf .variableName).SpelledVariable t := by
  obtain ⟨word, hlexeme, hne, hword⟩ := (Token.lexical_of_lex hlex tok hmem).variable_lexeme h
  have hsolid : ∀ c ∈ tok.lexeme, Text.isBlank c = false := by
    rw [hlexeme]
    refine List.forall_mem_cons.2 ⟨by decide, fun c hc => Bool.eq_false_iff.2 fun hblank => ?_⟩
    exact absurd (hword c hc) (Bool.eq_false_iff.1 (Text.not_isWordChar_of_isBlank hblank))
  refine ⟨word, ?_, hne, hword⟩
  rw [Declaration.textIn_leaf ((Token.lex_tiling hlex).2 tok hmem).1, Text.trim_of_not_blank hsolid]
  exact hlexeme

/-- The argument list among the parts of an at-rule, with what stands in front of it. -/
theorem HeadForm.calls (h : HeadForm .atRule run head) (hrun : run ++ run' <:+: tokens)
    (htail : Spread run' tail) (hi : i ∈ head) (hkind : i.isKind .arguments = true) :
    (gather .atRule (head ++ tail)).Calls t tokens i := by
  cases h with
  | @atRule keyword named run signature asides covered _ hsignature hsifted =>
    have hvalue : ∀ c ∈ asides ++ covering .value covered, c.isKind .arguments ≠ true :=
      hsifted.allows.isKind_ne (by decide) (by decide)
    have hlist : i ∈ signature := by
      rw [List.append_assoc] at hi
      rcases List.mem_append.1 hi with hi | hi
      · rcases List.mem_cons.1 hi with rfl | hi
        · cases hkind
        · exact hi
      · exact absurd hkind (hvalue i hi)
    obtain ⟨name, opening, closing, inner, rfl, rfl, hcallable, hopening, hclosing, hclosed, hleaf,
      hcover⟩ := hsignature.of_arguments hlist hkind
    have hmem : keyword ∈ tokens := hrun.subset (List.mem_append_left _ List.mem_cons_self)
    have hparens : Token.Parenthesized tokens inner i.span := by
      refine ⟨opening, closing, List.IsInfix.trans ?_ hrun, hopening, hclosing, hcover⟩
      exact ⟨[keyword, name], run ++ run', by simp⟩
    obtain ⟨lo, hi, htext, -, -⟩ := Declaration.textIn_of_parenthesized hlex hparens
    have hord : Token.InOrder ([keyword] ++ ([name] ++ ((opening :: (inner ++ [closing])) ++
        (run ++ run')))) := by
      have hall := (Token.lex_inOrder hlex).sublist hrun.sublist
      simpa using hall
    have hback : Spread (run ++ run') (asides ++ covering .value covered ++ tail) :=
      Spread.append hord.right.right.right (spread_compositional.sifted hsifted (by decide)
        hord.right.right.right.left) htail
    have harguments : Spread (opening :: (inner ++ [closing])) [i] :=
      hleaf ▸ Spread.leaf hord.right.right.left hcover
    have hnamed : Spread [name] [name.leaf .identifier] := .token _ hord.right.left
    refine ⟨rfl, ⟨keyword.leaf .atKeyword, name.leaf .identifier,
      (gather .atRule (asides ++ covering .value covered ++ tail)).children, ?_, rfl,
      textIn_keyword hlex hmem hcallable, rfl⟩, ⟨inner, hparens, hclosed⟩, _, htext⟩
    -- each of the three begins before all that follows it, so sorting leaves them in front
    have hbehind := harguments.append hord.right.right hback
    have hparts : keyword.leaf .atKeyword :: [name.leaf .identifier, i] ++ asides ++
        covering .value covered ++ tail = [keyword.leaf .atKeyword] ++ ([name.leaf .identifier] ++
          ([i] ++ (asides ++ covering .value covered ++ tail))) := by simp
    rw [hparts, Spread.children_append hord (.token _ hord.left) (hnamed.append hord.right hbehind),
      Spread.children_append hord.right hnamed hbehind,
      Spread.children_append hord.right.right harguments hback]
    rfl

theorem HeadForm.schema_atRule (h : HeadForm .atRule run head) (hrun : run ++ run' <:+: tokens)
    (hspread : Spread run' tail) (hallows : Allows [.block] tail)
    (htail : ∀ c ∈ tail, c.children = [] ∨ c.Throughout (Schema t tokens)) :
    (gather .atRule (head ++ tail)).Throughout (Schema t tokens) := by
  refine schema_gather (by decide)
    (List.forall_mem_append.2 ⟨fun c hc => .inl (h.bare c hc).children, htail⟩)
    (h.allows_atRule.append hallows) (by decide) (fun part hpart => ?_) nofun
    (fun _ c hc hkind => ?_) fun hvariable => absurd hvariable (by decide)
  · obtain rfl : part = .atKeyword := by simpa [partKinds] using hpart
    cases h
    exact ⟨_, List.mem_append_left _ List.mem_cons_self, rfl⟩
  · rcases List.mem_append.1 hc with hc | hc
    · exact h.calls hlex hrun hspread hc hkind
    · exact absurd hkind (hallows.isKind_ne (by decide) (by decide) c hc)

/-- The block of a rule begins behind all that stands in front of it. -/
theorem HeadForm.schema {brace close : Token} {inner : List Token} {children : List Item}
    (h : HeadForm kind run head)
    (hrun : run ++ (brace :: (inner ++ [close])) <:+: tokens) (hinner : Spread inner children)
    (hchildren : ∀ c ∈ children, c.AtLevel ∧ c.Throughout (Schema t tokens)) :
    (gather kind (head ++ [.node .block (brace.span.cover close.span) children])).Throughout
      (Schema t tokens) := by
  have hord := (Token.lex_inOrder hlex).sublist hrun.sublist
  have hspread := Spread.block hord.right hinner
  have htail : ∀ c ∈ [Item.node .block (brace.span.cover close.span) children],
      c.children = [] ∨ c.Throughout (Schema t tokens) :=
    List.forall_mem_singleton.2 (.inr (schema_block hchildren))
  have hallows : Allows [.block] [Item.node .block (brace.span.cover close.span) children] :=
    allows_of_kind rfl
  have hfront := spread_compositional.head h hord.left
  have hbare : ∀ c ∈ head, c.children = [] ∨ c.Throughout (Schema t tokens) :=
    fun c hc => .inl (h.bare c hc).children
  cases h with
  | atRule hkeyword hsignature hsifted =>
    exact schema_atRule hlex (.atRule hkeyword hsignature hsifted) hrun hspread hallows htail
  | rule hsifted =>
    refine schema_gather (by decide) (List.forall_mem_append.2 ⟨hbare, htail⟩)
      (hsifted.allows.append hallows) (by decide) (fun part hpart => ?_) (fun _ => ?_)
      (fun hlist => absurd hlist (by decide)) fun hvariable => absurd hvariable (by decide)
    · obtain rfl : part = .block := by simpa [partKinds] using hpart
      exact ⟨_, List.mem_append_right _ (List.mem_singleton_self _), rfl⟩
    · rw [hfront.children_append hord hspread]
      exact ⟨_, _, rfl, rfl⟩

theorem ItemForm.schema (h : ItemForm run i) (hrun : run <:+: tokens) :
    i.AtLevel ∧ i.Throughout (Schema t tokens) := by
  have hbare : ∀ c ∈ i.children, c.children = [] := by
    rcases h.bare_or with hbare | ⟨kind, parts, rfl, hparts, -⟩
    · rw [hbare.children]
      exact List.forall_mem_nil _
    · exact fun c hc => (hparts c ((mem_stableSort _ parts c).1 hc)).children
  have hlevel : ∀ {kind : ItemKind} {parts : List Item}, kind ∈ levelKinds →
      (Item.gather kind parts).AtLevel := fun hkind part hpart => Option.some.inj hpart ▸ hkind
  cases h with
  | comment hcomment =>
    have hnone : i.kind? = none := by
      unfold Token.comment? at hcomment
      split at hcomment <;> cases hcomment <;> rfl
    exact schema_plain (bare_of_comment? hcomment).children (hnone ▸ nofun)
  | mark => exact schema_plain rfl fun part hpart => Option.some.inj hpart ▸ by decide
  | unknown => exact schema_plain rfl fun part hpart => Option.some.inj hpart ▸ by decide
  | @variableDeclaration name colon run items hname _ hvalue =>
    have hallows : Allows [.variableName] [name.leaf .variableName] := allows_of_kind rfl
    have hmarked : Allows [.value] (colon.leaf .punctuation :: items) :=
      allows_mark.append hvalue.allows
    refine ⟨hlevel (by decide), schema_gather (by decide)
      (fun c hc => .inl (hbare c ((mem_stableSort _ _ c).2 hc)))
      (hallows.append hmarked) (by decide)
      (fun part hpart => ?_) nofun (fun hlist => absurd hlist (by decide)) fun _ c hc hkind => ?_⟩
    · obtain rfl : part = .variableName := by simpa [partKinds] using hpart
      exact ⟨_, List.mem_cons_self, rfl⟩
    · rcases List.mem_cons.1 hc with rfl | hc
      · exact spelledVariable hlex (hrun.subset List.mem_cons_self) hname
      · exact absurd hkind (hmarked.isKind_ne (by decide) (by decide) c hc)
  | @propertyDeclaration run after asides items name colon hsifted _ hvalue =>
    refine ⟨hlevel (by decide), schema_gather (by decide)
      (fun c hc => .inl (hbare c ((mem_stableSort _ _ c).2 hc)))
      ((hsifted.allows.append allows_mark).append hvalue.allows) (by decide)
      (fun part hpart => ?_) nofun (fun hlist => absurd hlist (by decide))
      fun hvariable => absurd hvariable (by decide)⟩
    · obtain rfl : part = .propertyName := by simpa [partKinds] using hpart
      exact ⟨.leaf .propertyName name, by simp, rfl⟩
  | @atRule run head hhead =>
    have htail := hhead.schema_atRule hlex ((List.append_nil run).symm ▸ hrun) .nil (allows_nil _)
      (List.forall_mem_nil _)
    rw [List.append_nil] at htail
    exact ⟨hlevel (by decide), htail⟩
  | @markedAtRule run head mark hhead _ =>
    have hord := (Token.lex_inOrder hlex).sublist hrun.sublist
    have hallows : Allows ([] ++ [.block]) ([mark.leaf .punctuation] ++ []) :=
      allows_mark.append (allows_nil _)
    exact ⟨hlevel (by decide), hhead.schema_atRule hlex hrun (.token _ hord.right) hallows
      (List.forall_mem_singleton.2 (.inl rfl))⟩
  | @remarkedUnknown run asides covered hsifted =>
    refine ⟨hlevel (by decide), schema_gather (by decide)
      (fun c hc => .inl (hbare c ((mem_stableSort _ _ c).2 hc))) hsifted.allows (by decide)
      (fun part hpart => ?_) nofun (fun hlist => absurd hlist (by decide))
      fun hvariable => absurd hvariable (by decide)⟩
    · simp [partKinds] at hpart

theorem SheetForm.schema (h : SheetForm run items) (hrun : run <:+: tokens) :
    ∀ i ∈ items, i.AtLevel ∧ i.Throughout (Schema t tokens) := by
  induction h with
  | nil => exact List.forall_mem_nil _
  | @item done run items i _ hform ih =>
    refine List.forall_mem_append.2 ⟨ih ((List.prefix_append _ _).isInfix.trans hrun),
      List.forall_mem_singleton.2 (hform.schema hlex ?_)⟩
    exact (List.suffix_append _ _).isInfix.trans hrun
  | @block done run inner items head children kind brace close _ hhead _ _ hinner ih ihinner =>
    have hbehind : run ++ (brace :: (inner ++ [close])) <:+: tokens :=
      (List.suffix_append _ _).isInfix.trans hrun
    have hinside : inner <:+: tokens :=
      List.IsInfix.trans ⟨run ++ [brace], [close], by simp⟩ hbehind
    have hspread := hinner.spread ((Token.lex_inOrder hlex).sublist hinside.sublist)
    refine List.forall_mem_append.2 ⟨ih ((List.prefix_append _ _).isInfix.trans hrun),
      List.forall_mem_singleton.2 ⟨?_, hhead.schema hlex hbehind hspread (ihinner hinside)⟩⟩
    intro part hpart
    obtain rfl : kind = part := Option.some.inj hpart
    cases hhead <;> decide

end

/-- The schema of a sheet.  Outside all blocks there are statements, comments, punctuation and what
is unknown.  Every item in the tree has the parts that items of its kind have, so that no item is
looked for among others of its kind. -/
theorem parse_schema (h : parse t = .ok items) :
    ∃ tokens, Token.lex t = .ok tokens ∧ (∀ i ∈ items, i.AtLevel) ∧
      ∀ e ∈ Item.walkAll 0 items, e.2.Schema t tokens ∧
        ∀ part ∈ singleKinds, ∀ c ∈ e.2.children, c.isKind part = true →
          e.2.child? part = some c := by
  obtain ⟨tokens, hlex⟩ := exists_lex_of_parse h
  have hschema := (sheetForm_of_parse h hlex).schema hlex List.infix_rfl
  refine ⟨tokens, hlex, fun i hi => (hschema i hi).1, fun e he => ?_⟩
  obtain ⟨i, hi, hoccurs⟩ := Item.exists_occurs_of_mem_walkAll he
  have hitem := (hschema i hi).2 e.2 hoccurs
  exact ⟨hitem, fun part hpart c hc hkind =>
    child?_of_countP_le_one (hitem.single part hpart) hc hkind⟩

/-- An at-rule with a list that holds parentheses in a string, in a comment and by themselves. -/
def calledSheet : Text := "@include m(\")\", (1)/*)*/) \x7b a /*x*/ b \x7b $c: 1 !d; \x7d \x7d".toList

theorem parse_schema_calledSheet :
    ∃ items tokens, parse calledSheet = .ok items ∧ Token.lex calledSheet = .ok tokens ∧
      ∃ e ∈ Item.walkAll 0 items, e.2.isKind .atRule = true ∧ e.2.Schema calledSheet tokens ∧
        ∃ c, e.2.child? .arguments = some c ∧ e.2.Calls calledSheet tokens c ∧
          c.textIn calledSheet = "(\")\", (1)/*)*/)".toList := by
  obtain ⟨items, hparse, hread⟩ := exists_ok (r := parse calledSheet)
    (p := fun items => (Item.walkAll 0 items).any fun e => e.2.isKind .atRule &&
      e.2.children.any fun c => c.isKind .arguments &&
        c.textIn calledSheet == "(\")\", (1)/*)*/)".toList) (by decide +kernel)
  obtain ⟨e, he, hrule⟩ := List.any_eq_true.1 hread
  obtain ⟨hkind, hlist⟩ := Bool.and_eq_true_iff.1 hrule
  obtain ⟨c, hc, hlist⟩ := List.any_eq_true.1 hlist
  obtain ⟨hlist, htext⟩ := Bool.and_eq_true_iff.1 hlist
  obtain ⟨tokens, hlex, -, hall⟩ := parse_schema hparse
  obtain ⟨hschema, honly⟩ := hall e he
  exact ⟨items, tokens, hparse, hlex, e, he, hkind, hschema, c, honly _ (by decide) c hc hlist,
    hschema.arguments c hc hlist, beq_iff_eq.1 htext⟩

end Grammar
end LiveSheet
