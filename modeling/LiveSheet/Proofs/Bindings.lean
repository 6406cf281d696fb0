import LiveSheet.Proofs.Outline
import LiveSheet.Proofs.Trivia

/-!
# Bindings

What the items of a sheet bind: names, each of a kind and in a block.  Items of two texts are alike
if they bind the same, and an at-rule binds the same if it is called the same.
-/

namespace LiveSheet

namespace Item

variable {parts parts' tail : List Item} {kind part : ItemKind} {c : Item}

/-- The first part of a kind depends on the parts of this kind only. -/
theorem child?_gather_congr (h : parts'.filter (·.isKind part) = parts.filter (·.isKind part)) :
    (gather kind parts').child? part = (gather kind parts).child? part := by
  have hfind : ∀ l : List Item, (gather kind l).child? part =
      (stableSort (fun a b => a.start ≤ b.start) (l.filter (·.isKind part))).find?
        (·.isKind part) :=
    fun l => find?_stableSort_filter start_total start_trans _ l
  rw [hfind, hfind, h]

theorem child?_gather_append (h : tail.filter (·.isKind part) = []) :
    (gather kind (parts ++ tail)).child? part = (gather kind parts).child? part :=
  child?_gather_congr (by rw [List.filter_append, h, List.append_nil])

theorem mem_of_child?_gather (h : (gather kind parts).child? part = some c) :
    c ∈ parts ∧ c.isKind part = true := by
  unfold child? at h
  have hc := List.find?_some h
  exact ⟨(mem_stableSort _ parts c).1 (List.mem_of_find?_eq_some h), hc⟩

theorem child?_gather_of_filter (h : parts.filter (·.isKind part) = [c]) :
    (gather kind parts).child? part = some c := by
  have hc : c.isKind part = true := by
    have hmem : c ∈ parts.filter (·.isKind part) := by
      rw [h]
      exact List.mem_singleton_self c
    exact (List.mem_filter.1 hmem).2
  have hone : [c].filter (·.isKind part) = [c] := List.filter_cons_of_pos hc
  rw [child?_gather_congr (h.trans hone.symm)]
  exact List.find?_cons_of_pos hc

end Item

namespace Declaration

variable {source t t' : Text} {scope : Option Span} {items head parts : List Item} {i : Item}
  {kind : ItemKind}

/-! ## What items declare -/

theorem below_eq (source : Text) (scope : Option Span) (i : Item) :
    below source scope i =
      ofItem source scope i ++ belowAll source (scopeBelow scope i) i.children := by
  cases i <;> simp [below, belowAll, Item.children]

theorem belowAll_append (source : Text) (scope : Option Span) (a b : List Item) :
    belowAll source scope (a ++ b) = belowAll source scope a ++ belowAll source scope b := by
  induction a with
  | nil => simp [belowAll]
  | cons i rest ih => simp [belowAll, ih]

theorem belowAll_singleton (source : Text) (scope : Option Span) (i : Item) :
    belowAll source scope [i] = below source scope i := by
  rw [belowAll, belowAll, List.append_nil]

theorem ofItem_of_kind (hvariable : i.kind? ≠ some .variableDeclaration)
    (hrule : i.kind? ≠ some .atRule) : ofItem source scope i = [] := by
  unfold ofItem
  split
  · exact absurd ‹_› hvariable
  · exact absurd ‹_› hrule
  · rfl

theorem ofItem_gather (hvariable : kind ≠ .variableDeclaration) (hrule : kind ≠ .atRule) :
    ofItem source scope (.gather kind parts) = [] :=
  ofItem_of_kind (fun h => hvariable (Option.some.inj h)) fun h => hrule (Option.some.inj h)

theorem below_of_bare (h : i.Bare) : below source scope i = [] := by
  have hlisted := h.listed
  rw [below_eq, h.children, belowAll, List.append_nil]
  refine ofItem_of_kind (fun hkind => ?_) (fun hkind => ?_) <;>
    · rw [Item.isListed, hkind] at hlisted
      cases hlisted

theorem belowAll_of_bare (h : ∀ c ∈ items, c.Bare) : belowAll source scope items = [] := by
  induction items with
  | nil => rw [belowAll]
  | cons c rest ih =>
    obtain ⟨hc, hrest⟩ := List.forall_mem_cons.1 h
    rw [belowAll, below_of_bare hc, ih hrest]
    rfl

theorem below_gather (h : ∀ c ∈ parts, c.Bare) :
    below source scope (.gather kind parts) = ofItem source scope (.gather kind parts) := by
  have hchildren : ∀ c ∈ (Item.gather kind parts).children, c.Bare :=
    fun c hc => h c ((mem_stableSort _ parts c).1 hc)
  rw [below_eq, belowAll_of_bare hchildren, List.append_nil]

/-- What stands in the block of an item is declared in this block. -/
theorem below_gather_block {s : Span} {children : List Item} (h : ∀ c ∈ head, c.Bare)
    (hkind : kind ≠ .block) :
    below source scope (.gather kind (head ++ [.node .block s children])) =
      ofItem source scope (.gather kind (head ++ [.node .block s children])) ++
        belowAll source (some s) children := by
  obtain ⟨before, after, hsplit, hbefore, hafter⟩ :=
    Grammar.exists_sorted_split head (.node .block s children)
  have hblock : ofItem source scope (.node .block s children) = [] := ofItem_of_kind nofun nofun
  have hscope : scopeBelow scope (.gather kind (head ++ [.node .block s children])) = scope :=
    if_neg fun hblock => hkind (Option.some.inj (beq_iff_eq.1 hblock))
  rw [below_eq, hscope]
  refine congrArg (ofItem _ _ _ ++ ·) ?_
  show belowAll source scope (stableSort _ _) = _
  rw [hsplit, belowAll_append, belowAll_of_bare fun c hc => h c (hbefore c hc), belowAll,
    belowAll_of_bare fun c hc => h c (hafter c hc), List.nil_append, List.append_nil, below, hblock]
  rfl

/-! ## Items that declare alike -/

/-- What is declared, without its detail and the place from which on it is known. -/
def binding (d : Declaration) : DeclarationKind × Text × Option Span := (d.kind, d.name, d.scope)

/-- The items of two texts declare names of the same kinds in the same blocks. -/
def Alike (t t' : Text) (items items' : List Item) : Prop :=
  ∀ scope, (belowAll t' scope items').map binding = (belowAll t scope items).map binding

/-- The item declares nothing, nor does anything in it. -/
def Silent (i : Item) : Prop := ∀ source scope, below source scope i = []

variable {a a' b b' : List Item} {i' : Item}

theorem Alike.append (h : Alike t t' a a') (h' : Alike t t' b b') :
    Alike t t' (a ++ b) (a' ++ b') := by
  intro scope
  rw [belowAll_append, belowAll_append, List.map_append, List.map_append, h scope, h' scope]

theorem alike_nil : Alike t t' [] [] := fun _ => by rw [belowAll, belowAll]

theorem Silent.alike (h : Silent i) (h' : Silent i') : Alike t t' [i] [i'] := by
  intro scope
  rw [belowAll_singleton, belowAll_singleton, h, h']

theorem silent_of_bare (h : i.Bare) : Silent i := fun _ _ => below_of_bare h

theorem silent_gather (h : ∀ c ∈ parts, c.Bare) (hvariable : kind ≠ .variableDeclaration)
    (hrule : kind ≠ .atRule) : Silent (.gather kind parts) :=
  fun _ _ => (below_gather h).trans (ofItem_gather hvariable hrule)

/-- Two heads of items that declare alike, whatever is in their blocks. -/
def HeadsAlike (t t' : Text) (kind : ItemKind) (head head' : List Item) : Prop :=
  ∀ s children children', Alike t t' children children' →
    Alike t t' [.gather kind (head ++ [.node .block s children])]
      [.gather kind (head' ++ [.node .block s children'])]

theorem headsAlike_of_ofItem {head' : List Item} (hhead : ∀ c ∈ head, c.Bare)
    (hhead' : ∀ c ∈ head', c.Bare) (hkind : kind ≠ .block)
    (h : ∀ s children children' scope,
      (ofItem t' scope (.gather kind (head' ++ [.node .block s children']))).map binding =
        (ofItem t scope (.gather kind (head ++ [.node .block s children]))).map binding) :
    HeadsAlike t t' kind head head' := by
  intro s children children' hchildren scope
  rw [belowAll_singleton, belowAll_singleton, below_gather_block hhead hkind,
    below_gather_block hhead' hkind, List.map_append, List.map_append, h, hchildren]

theorem headsAlike_ruleBlock {head' : List Item} (hhead : ∀ c ∈ head, c.Bare)
    (hhead' : ∀ c ∈ head', c.Bare) : HeadsAlike t t' .ruleBlock head head' := by
  have hnone : ∀ source scope parts, ofItem source scope (.gather .ruleBlock parts) = [] :=
    fun _ _ _ => ofItem_gather (by decide) (by decide)
  refine headsAlike_of_ofItem hhead hhead' (by decide) fun s children children' scope => ?_
  rw [hnone, hnone]

/-! ## What items are called by -/

end Declaration

namespace Item

/-- The kinds of parts that declarations are read off. -/
def readKinds : List ItemKind := [.variableName, .atKeyword, .identifier, .arguments, .block]

/-- A part of which no declaration takes notice. -/
def Dull (i : Item) : Prop := ∀ kind ∈ readKinds, i.isKind kind = false

variable {parts tail : List Item} {kind : ItemKind} {s : Span}

theorem dull_leaf (h : kind ∉ readKinds) : (leaf kind s).Dull := by
  intro part hpart
  refine Bool.eq_false_iff.2 fun heq => h ?_
  obtain rfl : kind = part := Option.some.inj (beq_iff_eq.1 heq)
  exact hpart

theorem filter_of_dull (h : ∀ c ∈ tail, c.Dull) (hkind : kind ∈ readKinds) :
    tail.filter (·.isKind kind) = [] :=
  List.filter_eq_nil_iff.2 fun c hc => Bool.eq_false_iff.1 (h c hc kind hkind)

end Item

namespace Grammar

open Item

variable {run : List Token} {items asides : List Item} {covered : Option Span}

theorem Sifted.dull (h : Sifted .value run asides covered) :
    ∀ c ∈ asides ++ covering .value covered, c.Dull := by
  refine List.forall_mem_append.2 ⟨fun c hc => ?_, ?_⟩
  · rcases h.kind_of_aside c hc with hnone | ⟨-, hflag⟩
    · intro kind _
      rw [isKind, hnone]
      rfl
    · intro kind hkind
      rw [isKind, hflag]
      revert kind
      decide
  · cases covered with
    | none => exact List.forall_mem_nil _
    | some s => exact List.forall_mem_singleton.2 (dull_leaf (by decide))

theorem ValueForm.dull (h : ValueForm run items) : ∀ c ∈ items, c.Dull := by
  cases h with
  | unmarked hsifted => exact hsifted.dull
  | marked hsifted _ =>
    exact List.forall_mem_append.2 ⟨hsifted.dull,
      List.forall_mem_singleton.2 (dull_leaf (by decide))⟩

end Grammar

namespace Declaration

open Grammar

variable {source t t' : Text} {scope : Option Span} {i i' : Item} {tok keyword : Token}
  {run run' : List Token} {items named named' tail tail' : List Item}

theorem textIn_leaf (h : tok.StandsIn source) (kind : ItemKind) :
    (tok.leaf kind).textIn source = Text.trim tok.lexeme :=
  congrArg Text.trim h.between

theorem below_variableDeclaration {name colon : Token} (hname : name.StandsIn source)
    (h : ValueForm run items) :
    (below source scope (.gather .variableDeclaration
      (name.leaf .variableName :: colon.leaf .punctuation :: items))).map binding =
        [(.variable, (Text.trim name.lexeme).dropWhile (· == sigil), scope)] := by
  have hbare : ∀ c ∈ name.leaf .variableName :: colon.leaf .punctuation :: items, c.Bare :=
    List.forall_mem_cons.2 ⟨Item.bare_leaf (by decide),
      List.forall_mem_cons.2 ⟨Item.bare_leaf (by decide), h.bare⟩⟩
  have hchild : (Item.gather .variableDeclaration (name.leaf .variableName ::
      colon.leaf .punctuation :: items)).child? .variableName = some (name.leaf .variableName) := by
    refine Item.child?_gather_of_filter ?_
    have hrest : items.filter (·.isKind .variableName) = [] :=
      Item.filter_of_dull h.dull (by decide)
    rw [List.filter_cons_of_pos rfl, List.filter_cons_of_neg Bool.false_ne_true, hrest]
  rw [below_gather hbare]
  show (ofVariable source scope _).map binding = _
  rw [ofVariable, hchild]
  dsimp only
  rw [textIn_leaf hname]
  rfl

theorem ofAtRule_alike
    (hkeyword : ((i'.child? .atKeyword).bind fun k => kindOfKeyword? (k.textIn t')) =
      (i.child? .atKeyword).bind fun k => kindOfKeyword? (k.textIn t))
    (hidentifier : i'.child? .identifier = i.child? .identifier)
    (harguments : i'.child? .arguments = i.child? .arguments)
    (hblock : (i'.child? .block).map Item.span = (i.child? .block).map Item.span)
    (hname : ∀ c ∈ i.child? .identifier, c.textIn t' = c.textIn t)
    (hparameters : ∀ c ∈ i.child? .arguments,
      parameterNames (c.textIn t') = parameterNames (c.textIn t)) :
    (ofAtRule t' scope i').map binding = (ofAtRule t scope i).map binding := by
  have hlists : ∀ name, (ofParameters t' name i').map binding =
      (ofParameters t name i).map binding := by
    intro name
    unfold ofParameters
    rw [harguments]
    cases hargs : i.child? .arguments with
    | none => rfl
    | some arguments =>
      cases hbody : i.child? .block with
      | none =>
        rw [hbody, Option.map_none, Option.map_eq_none_iff] at hblock
        rw [hblock]
      | some body =>
        rw [hbody, Option.map_some, Option.map_eq_some_iff] at hblock
        obtain ⟨body', hbody', hspan⟩ := hblock
        rw [hbody']
        dsimp only
        rw [hparameters arguments hargs, List.map_map, List.map_map, hspan]
  unfold ofAtRule
  dsimp only
  rw [hkeyword, hidentifier]
  cases (i.child? .atKeyword).bind fun k => kindOfKeyword? (k.textIn t) with
  | none => rfl
  | some kind =>
    cases hid : i.child? .identifier with
    | none => rfl
    | some identifier =>
      dsimp only
      rw [List.map_append, List.map_append, hname identifier hid, hlists]
      rfl

/-- The kinds of parts that an at-rule is called by. -/
def callKinds : List ItemKind := [.atKeyword, .identifier, .arguments]

/-- What stands behind the keyword of an at-rule calls the same in two texts. -/
structure SameCall (t t' : Text) (named named' : List Item) : Prop where
  same : named' = named
  names : ∀ c ∈ named, c.isKind .identifier = true → c.textIn t' = c.textIn t
  parameters : ∀ c ∈ named, c.isKind .arguments = true →
    parameterNames (c.textIn t') = parameterNames (c.textIn t)

theorem ofAtRule_of_none
    (h : ((i.child? .atKeyword).bind fun k => kindOfKeyword? (k.textIn source)) = none) :
    ofAtRule source scope i = [] := by
  simp only [ofAtRule, h]

/-- The keyword of an at-rule is read off its own token. -/
theorem keyword_atRule (hkeyword : keyword.StandsIn source)
    (hnamed : SignatureForm keyword run named) (htail : tail.filter (·.isKind .atKeyword) = []) :
    ((Item.gather .atRule (keyword.leaf .atKeyword :: named ++ tail)).child? .atKeyword).bind
      (fun k => kindOfKeyword? (k.textIn source)) = kindOfKeyword? (Text.trim keyword.lexeme) := by
  have hone : (keyword.leaf .atKeyword :: named).filter (·.isKind .atKeyword) =
      [keyword.leaf .atKeyword] := by
    cases hnamed <;> rfl
  rw [Item.child?_gather_append htail, Item.child?_gather_of_filter hone, Option.bind_some,
    textIn_leaf hkeyword]

theorem mem_named_of_child? {kind : ItemKind} {c : Item} (hkind : kind ≠ .atKeyword)
    (htail : tail.filter (·.isKind kind) = [])
    (h : (Item.gather .atRule (keyword.leaf .atKeyword :: named ++ tail)).child? kind = some c) :
    c ∈ named ∧ c.isKind kind = true := by
  rw [Item.child?_gather_append htail] at h
  obtain ⟨hin, hc⟩ := Item.mem_of_child?_gather h
  rcases List.mem_cons.1 hin with rfl | hin
  · exact absurd (Option.some.inj (beq_iff_eq.1 hc)).symm hkind
  · exact ⟨hin, hc⟩

/-- Of two at-rules with the same keyword, either both declare nothing by themselves, or they are
called the same and declare alike. -/
theorem ofItem_atRule_alike (ht : keyword.StandsIn t) (ht' : keyword.StandsIn t')
    (hnamed : SignatureForm keyword run named) (hnamed' : SignatureForm keyword run' named')
    (htail : ∀ kind ∈ callKinds, tail.filter (·.isKind kind) = [])
    (htail' : ∀ kind ∈ callKinds, tail'.filter (·.isKind kind) = [])
    (hcall : (kindOfKeyword? (Text.trim keyword.lexeme)).isSome → SameCall t t' named named') :
    let i := Item.gather .atRule (keyword.leaf .atKeyword :: named ++ tail)
    let i' := Item.gather .atRule (keyword.leaf .atKeyword :: named' ++ tail')
    (i'.child? .block).map Item.span = (i.child? .block).map Item.span →
      ∀ scope, (ofItem t' scope i').map binding = (ofItem t scope i).map binding := by
  intro i i' hblock scope
  have hread := keyword_atRule ht hnamed (htail _ (by decide))
  have hread' := keyword_atRule ht' hnamed' (htail' _ (by decide))
  show (ofAtRule t' scope i').map binding = (ofAtRule t scope i).map binding
  cases hkind : kindOfKeyword? (Text.trim keyword.lexeme) with
  | none => rw [ofAtRule_of_none (hread.trans hkind), ofAtRule_of_none (hread'.trans hkind)]
  | some kind =>
    obtain ⟨rfl, hnames, hparameters⟩ := hcall (Option.isSome_of_eq_some hkind)
    have hsame : ∀ kind ∈ callKinds, i'.child? kind = i.child? kind := fun kind hkind =>
      (Item.child?_gather_append (htail' kind hkind)).trans
        (Item.child?_gather_append (htail kind hkind)).symm
    refine ofAtRule_alike (hread'.trans hread.symm) (hsame _ (by decide)) (hsame _ (by decide))
      hblock (fun c hc => ?_) fun c hc => ?_
    · obtain ⟨hin, hc⟩ := mem_named_of_child? (by decide) (htail _ (by decide)) hc
      exact hnames c hin hc
    · obtain ⟨hin, hc⟩ := mem_named_of_child? (by decide) (htail _ (by decide)) hc
      exact hparameters c hin hc

theorem child?_block_of_bare {parts : List Item} {kind : ItemKind} (h : ∀ c ∈ parts, c.Bare) :
    (Item.gather kind parts).child? .block = none :=
  List.find?_eq_none.2 fun c hc => Bool.eq_false_iff.1 (h c ((mem_stableSort _ parts c).1 hc)).block

theorem child?_block_gather {head children : List Item} {kind : ItemKind} {s : Span}
    (h : ∀ c ∈ head, c.Bare) :
    (Item.gather kind (head ++ [.node .block s children])).child? .block =
      some (.node .block s children) := by
  have hnone : head.filter (·.isKind .block) = [] :=
    List.filter_eq_nil_iff.2 fun c hc => Bool.eq_false_iff.1 (h c hc).block
  refine Item.child?_gather_of_filter ?_
  rw [List.filter_append, hnone, List.nil_append]
  rfl

theorem atRule_bare (hnamed : SignatureForm keyword run named) (htail : ∀ c ∈ tail, c.Bare) :
    ∀ c ∈ keyword.leaf .atKeyword :: named ++ tail, c.Bare :=
  List.forall_mem_cons.2 ⟨Item.bare_leaf (by decide),
    List.forall_mem_append.2 ⟨hnamed.bare, htail⟩⟩

theorem filter_callKinds (h : ∀ c ∈ tail, c.Dull) :
    ∀ kind ∈ callKinds, tail.filter (·.isKind kind) = [] := by
  have hread : ∀ kind ∈ callKinds, kind ∈ Item.readKinds := by decide
  exact fun kind hkind => Item.filter_of_dull h (hread kind hkind)

theorem filter_callKinds_block (h : ∀ c ∈ tail, c.Dull) (s : Span) (children : List Item) :
    ∀ kind ∈ callKinds, (tail ++ [Item.node .block s children]).filter (·.isKind kind) = [] := by
  intro kind hkind
  have hne : ∀ kind ∈ callKinds, ItemKind.block ≠ kind := by decide
  have hnot : ¬(Item.node .block s children).isKind kind = true :=
    fun h => hne kind hkind (Option.some.inj (beq_iff_eq.1 h))
  rw [List.filter_append, filter_callKinds h kind hkind, List.nil_append]
  exact List.filter_cons_of_neg hnot

section

variable (ht : keyword.StandsIn t) (ht' : keyword.StandsIn t')
  (hnamed : SignatureForm keyword run named) (hnamed' : SignatureForm keyword run' named')
  (hcall : (kindOfKeyword? (Text.trim keyword.lexeme)).isSome → SameCall t t' named named')
  (hbare : ∀ c ∈ tail, c.Bare) (hbare' : ∀ c ∈ tail', c.Bare)
  (hdull : ∀ c ∈ tail, c.Dull) (hdull' : ∀ c ∈ tail', c.Dull)

include ht ht' hnamed hnamed' hcall hbare hbare' hdull hdull'

theorem alike_atRule :
    Alike t t' [.gather .atRule (keyword.leaf .atKeyword :: named ++ tail)]
      [.gather .atRule (keyword.leaf .atKeyword :: named' ++ tail')] := by
  intro scope
  have hparts := atRule_bare hnamed hbare
  have hparts' := atRule_bare hnamed' hbare'
  rw [belowAll_singleton, belowAll_singleton, below_gather hparts, below_gather hparts']
  refine ofItem_atRule_alike ht ht' hnamed hnamed' (filter_callKinds hdull)
    (filter_callKinds hdull') hcall ?_ scope
  rw [child?_block_of_bare hparts, child?_block_of_bare hparts']

theorem headsAlike_atRule :
    HeadsAlike t t' .atRule (keyword.leaf .atKeyword :: named ++ tail)
      (keyword.leaf .atKeyword :: named' ++ tail') := by
  have hhead := atRule_bare hnamed hbare
  have hhead' := atRule_bare hnamed' hbare'
  refine headsAlike_of_ofItem hhead hhead' (by decide) fun s children children' scope => ?_
  rw [List.append_assoc, List.append_assoc]
  refine ofItem_atRule_alike ht ht' hnamed hnamed' (filter_callKinds_block hdull s children)
    (filter_callKinds_block hdull' s children') hcall ?_ scope
  rw [← List.append_assoc, ← List.append_assoc, child?_block_gather hhead,
    child?_block_gather hhead']
  rfl

end

end Declaration
end LiveSheet
