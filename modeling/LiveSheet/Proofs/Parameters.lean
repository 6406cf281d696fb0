import LiveSheet.Proofs.Entries
import LiveSheet.Proofs.Scopes
import LiveSheet.Proofs.Siblings

/-!
# Parameters

The parameters of a mixin or a function are read off the characters of its argument list.  If the
list is legible, they are the variables with which its entries begin.
-/

namespace LiveSheet

/-! ## Argument lists -/

namespace Token

variable {tokens inner : List Token} {opening closing : Token} {s : Span}

/-- The span reaches from an opening parenthesis to a closing one, with the inner tokens between
the two. -/
def Parenthesized (tokens inner : List Token) (s : Span) : Prop :=
  ∃ opening closing : Token, opening :: (inner ++ [closing]) <:+: tokens ∧
    opening.kind = .openParen ∧ closing.kind = .closeParen ∧
    Span.coverAll ((opening :: (inner ++ [closing])).map span) = some s

/-- The tokens between the first and the last one of a span. -/
def inside (tokens : List Token) (s : Span) : List Token :=
  tokens.filter fun tok => s.start < tok.start && tok.stop < s.stop

/-- Tokens in order cover what reaches from the first one to the last one. -/
theorem InOrder.ends_coverAll (h : InOrder (opening :: (inner ++ [closing])))
    (hcover : Span.coverAll ((opening :: (inner ++ [closing])).map span) = some s) :
    s.start = opening.start ∧ s.stop = closing.stop := by
  have hclosing : closing ∈ inner ++ [closing] := by simp
  have hapart : opening.stop ≤ closing.start := (List.pairwise_cons.1 h.ordered).1 closing hclosing
  have hopening : opening.start ≤ opening.stop := opening.span.start_le_stop
  have hclosed : closing.start ≤ closing.stop := closing.span.start_le_stop
  have hwithin := h.within_cover (List.infix_refl _)
  obtain ⟨⟨a, ha, hstart⟩, b, hb, hstop⟩ := Span.ends_coverAll_tokens hcover
  have hlo : min opening.start closing.start ≤ a.start := (hwithin a ha).1
  have hhi : b.stop ≤ max opening.stop closing.stop := (hwithin b hb).2
  have hlo' : s.start ≤ opening.start :=
    (Span.within_coverAll hcover (List.mem_map_of_mem List.mem_cons_self)).1
  have hhi' : closing.stop ≤ s.stop :=
    (Span.within_coverAll hcover (List.mem_map_of_mem (List.mem_cons_of_mem _ hclosing))).2
  omega

theorem inside_eq (h : InOrder tokens) (hinner : Parenthesized tokens inner s) :
    inside tokens s = inner := by
  obtain ⟨opening, closing, ⟨before, after, rfl⟩, -, -, hcover⟩ := hinner
  obtain ⟨hstart, hstop⟩ := h.left.right.ends_coverAll hcover
  have hrun := h.left.right
  have hordered := hrun.ordered
  rw [List.pairwise_cons, List.pairwise_append] at hordered
  obtain ⟨hfirst, -, -, hlast⟩ := hordered
  have hopening := hrun.nonempty opening List.mem_cons_self
  have hclosing := hrun.nonempty closing (by simp)
  have hkeeps : ∀ tok : Token, (decide (s.start < tok.start) && decide (tok.stop < s.stop)) = true ↔
      opening.start < tok.start ∧ tok.stop < closing.stop := fun tok => by
    rw [Bool.and_eq_true, decide_eq_true_eq, decide_eq_true_eq, hstart, hstop]
  have hfront : inside before s = [] := List.filter_eq_nil_iff.2 fun tok htok => by
    have hle := (List.pairwise_append.1 h.left.ordered).2.2 tok htok opening List.mem_cons_self
    have hends : tok.start ≤ tok.stop := tok.span.start_le_stop
    rw [hkeeps]
    omega
  have hback : inside after s = [] := List.filter_eq_nil_iff.2 fun tok htok => by
    have hle := (List.pairwise_append.1 h.ordered).2.2 closing (by simp) tok htok
    have hends : tok.start ≤ tok.stop := tok.span.start_le_stop
    rw [hkeeps]
    omega
  have hbetween : inside inner s = inner := List.filter_eq_self.2 fun tok htok => by
    have hbehind := hfirst tok (List.mem_append_left _ htok)
    have hahead := hlast tok htok closing (List.mem_singleton_self _)
    rw [hkeeps]
    omega
  have hends : inside [opening] s = [] ∧ inside [closing] s = [] := by
    constructor <;> refine List.filter_eq_nil_iff.2 fun tok htok => ?_ <;>
      rw [List.mem_singleton.1 htok, hkeeps] <;> omega
  have hparts : before ++ (opening :: (inner ++ [closing])) ++ after =
      before ++ ([opening] ++ (inner ++ ([closing] ++ after))) := by simp
  unfold inside at *
  rw [hparts, List.filter_append, List.filter_append, List.filter_append, List.filter_append,
    hfront, hends.1, hbetween, hends.2, hback]
  simp

end Token

namespace Item

/-- An argument list among the items reaches from one parenthesis to another and belongs to a
name that is among the items, too. -/
def Signed (tokens : List Token) (items : List Item) : Prop :=
  ∀ a ∈ items, a.kind? = some .arguments →
    (∃ b ∈ items, b.kind? = some .identifier) ∧ ∃ inner, Token.Parenthesized tokens inner a.span

variable {tokens run : List Token} {items items' : List Item} {i : Item}

theorem Signed.mono (h : Signed run items) (hrun : run <:+: tokens) : Signed tokens items := by
  intro a ha hkind
  obtain ⟨hname, inner, opening, closing, hinner, hparens⟩ := h a ha hkind
  exact ⟨hname, inner, opening, closing, hinner.trans hrun, hparens⟩

theorem Signed.of_mem_iff (h : Signed run items) (hmem : ∀ i, i ∈ items' ↔ i ∈ items) :
    Signed run items' := by
  intro a ha hkind
  obtain ⟨⟨b, hb, hname⟩, hinner⟩ := h a ((hmem a).1 ha) hkind
  exact ⟨⟨b, (hmem b).2 hb, hname⟩, hinner⟩

theorem Signed.append (h : Signed tokens items) (h' : Signed tokens items') :
    Signed tokens (items ++ items') := by
  intro a ha hkind
  rcases List.mem_append.1 ha with ha | ha
  · obtain ⟨⟨b, hb, hname⟩, hinner⟩ := h a ha hkind
    exact ⟨⟨b, List.mem_append_left _ hb, hname⟩, hinner⟩
  · obtain ⟨⟨b, hb, hname⟩, hinner⟩ := h' a ha hkind
    exact ⟨⟨b, List.mem_append_right _ hb, hname⟩, hinner⟩

theorem signed_of_kind (h : ∀ i ∈ items, i.kind? ≠ some .arguments) : Signed tokens items :=
  fun a ha hkind => absurd hkind (h a ha)

theorem signed_single (h : i.kind? ≠ some .arguments) : Signed tokens [i] :=
  signed_of_kind fun _ hj => List.mem_singleton.1 hj ▸ h

theorem signed_nil (tokens : List Token) : Signed tokens [] :=
  signed_of_kind (List.forall_mem_nil _)

end Item

namespace Grammar

/-- The items are signed, and so are the parts of all that occurs in them. -/
structure Signs (run : List Token) (items : List Item) : Prop where
  here : Item.Signed run items
  below : ∀ i ∈ items, i.Throughout fun j => Item.Signed run j.children

variable {run run' : List Token} {items : List Item} {t : Token} {i : Item} {kind : ItemKind}

theorem Signs.mono (h : Signs run items) (hrun : run <:+: run') : Signs run' items :=
  ⟨h.here.mono hrun, fun i hi => (h.below i hi).imp fun _ hj => hj.mono hrun⟩

theorem Signs.append {items' : List Item} (h : Signs run items) (h' : Signs run items') :
    Signs run (items ++ items') :=
  ⟨h.here.append h'.here, List.forall_mem_append.2 ⟨h.below, h'.below⟩⟩

theorem signs_leaf {s : Span} (hkind : kind ≠ .arguments) : Signs run [.leaf kind s] := by
  refine ⟨Item.signed_single fun h => hkind (Option.some.inj h), fun i hi => ?_⟩
  rw [List.mem_singleton.1 hi]
  exact Item.throughout_leaf (Item.signed_nil run)

theorem signs_comment (h : t.comment? = some i) : Signs run [i] := by
  unfold Token.comment? at h
  split at h <;> cases h <;> refine ⟨Item.signed_single nofun, fun j hj => ?_⟩ <;>
    rw [List.mem_singleton.1 hj] <;> exact Item.throughout_comment (Item.signed_nil run)

theorem Signs.node {s : Span} (h : Signs run items) (hkind : kind ≠ .arguments) :
    Signs run [.node kind s items] := by
  refine ⟨Item.signed_single fun h => hkind (Option.some.inj h), fun i hi => ?_⟩
  rw [List.mem_singleton.1 hi]
  exact Item.throughout_node h.here h.below

/-- Whatever is read of a run of tokens has its argument lists among them. -/
theorem signs_compositional : Compositional Signs where
  nil := ⟨Item.signed_nil _, List.forall_mem_nil _⟩
  append h h' := (h.mono (List.prefix_append _ _).isInfix).append
    (h'.mono (List.suffix_append _ _).isInfix)
  perm h hperm := ⟨h.here.of_mem_iff fun _ => hperm.mem_iff,
    fun i hi => h.below i (hperm.mem_iff.1 hi)⟩
  comment := signs_comment
  token _ hkind := signs_leaf hkind
  widen {run asides t kind s} h hkind hasides := by
    have hfront : Signs run asides := by
      refine ⟨Item.signed_of_kind fun i hi hlist => ?_,
        fun i hi => h.below i (List.mem_append_left _ hi)⟩
      rcases hasides i hi with hnone | ⟨-, hflag⟩
      · exact nomatch hnone.symm.trans hlist
      · exact nomatch hflag.symm.trans hlist
    exact (hfront.append (signs_leaf (Item.ne_of_mem_coverKinds hkind).2.1)).mono (List.prefix_append _ _).isInfix
  callable {name opening closing inner arguments} _ hopening hclosing hcover := by
    refine ⟨fun a ha hkind => ⟨⟨_, List.mem_cons_self, rfl⟩, ?_⟩, fun i hi => ?_⟩
    · have harguments : a = .leaf .arguments arguments := by
        rcases List.mem_cons.1 ha with rfl | ha
        · exact nomatch hkind
        · exact List.mem_singleton.1 ha
      rw [harguments]
      exact ⟨inner, opening, closing, (List.suffix_cons _ _).isInfix, hopening, hclosing, hcover⟩
    · rcases List.mem_cons.1 hi with rfl | hi
      · exact Item.throughout_leaf (Item.signed_nil _)
      · rw [List.mem_singleton.1 hi]
        exact Item.throughout_leaf (Item.signed_nil _)
  gather {run items kind} h _ hkind :=
    Signs.node ⟨h.here.of_mem_iff fun i => mem_stableSort _ items i,
      fun i hi => h.below i ((mem_stableSort _ items i).1 hi)⟩ (Item.ne_of_mem_nodeKinds hkind).2

theorem SheetForm.signs (h : SheetForm run items) : Signs run items :=
  signs_compositional.sheet (fun {brace close inner children} _ _ hinner =>
    (hinner.mono ⟨[brace], [close], rfl⟩).node (by decide)) h

end Grammar

namespace Declaration

variable {t : Text} {tokens inner : List Token} {i : Item}

/-! ## Parameters -/

/-- A list that does not begin with a parenthesis of its own does not begin with that
character. -/
theorem head?_between_ne {lo hi : Nat} (htiling : t.Tiling lo hi (inner.map Token.span))
    (hts : ∀ tok ∈ inner, tok.StandsIn t ∧ tok.Lexical)
    (hopens : inner.head?.map Token.kind ≠ some .openParen) :
    ∀ c ∈ (t.between lo hi ++ [')']).head?, c ≠ '(' := by
  rintro c hc rfl
  cases inner with
  | nil =>
    have hblank := Text.isBlank_of_tiling_nil htiling
    cases hbetween : t.between lo hi with
    | nil =>
      rw [hbetween] at hc
      cases hc
    | cons d rest =>
      rw [hbetween] at hc hblank
      cases hc
      exact absurd (hblank _ List.mem_cons_self) (by decide)
  | cons u rest =>
    obtain ⟨⟨hstands, hlexical⟩, -⟩ := List.forall_mem_cons.1 hts
    obtain ⟨hbetween, hgap, -⟩ := Token.between_cons htiling hstands
    cases hfront : t.between lo u.start with
    | nil =>
      obtain ⟨d, chars, hlexeme, -⟩ := hlexical.solid
      rw [hbetween, hfront, hlexeme] at hc
      cases hc
      exact hopens (congrArg some (hlexical.paren (by rw [hlexeme]; rfl)))
    | cons d gap =>
      rw [hbetween, hfront] at hc
      rw [hfront] at hgap
      cases hc
      exact absurd (hgap _ List.mem_cons_self) (by decide)

theorem trim_parenthesized (text : Text) :
    Text.trim ('(' :: (text ++ [')'])) = '(' :: (text ++ [')']) := by
  have hnone : ∀ b ∈ ([] : Text), Text.isBlank b = true := List.forall_mem_nil _
  have htrim := Text.trim_append_blanks hnone hnone (x := '(' :: (text ++ [')']))
    (fun c hc => by cases hc; decide)
    (fun c hc => by
      rw [← List.cons_append, List.getLast?_append] at hc
      cases hc
      decide)
  rwa [List.nil_append, List.append_nil] at htrim

/-- The text of an argument list is spelled by its parentheses and by what they enclose. -/
theorem textIn_of_parenthesized (hlex : Token.lex t = .ok tokens)
    (hparens : Token.Parenthesized tokens inner i.span) :
    ∃ lo hi, i.textIn t = '(' :: (t.between lo hi ++ [')']) ∧
      t.Tiling lo hi (inner.map Token.span) ∧ ∀ tok ∈ inner, tok.StandsIn t ∧ tok.Lexical := by
  obtain ⟨htiling, hstands⟩ := Token.lex_tiling hlex
  obtain ⟨opening, closing, hrun, hopening, hclosing, hcover⟩ := hparens
  obtain ⟨hstart, hstop⟩ := ((Token.lex_inOrder hlex).sublist hrun.sublist).ends_coverAll hcover
  have hmem : ∀ tok ∈ opening :: (inner ++ [closing]), tok.StandsIn t ∧ tok.Lexical :=
    fun tok htok =>
      ⟨(hstands tok (hrun.subset htok)).1, Token.lexical_of_lex hlex tok (hrun.subset htok)⟩
  obtain ⟨hfirst, hrest⟩ := List.forall_mem_cons.1 hmem
  obtain ⟨hinner, hlast⟩ := List.forall_mem_append.1 hrest
  have hlast := hlast closing (List.mem_singleton_self _)
  obtain ⟨before, after, rfl⟩ := hrun
  have hsplit : (before ++ (opening :: (inner ++ [closing])) ++ after).map Token.span =
      before.map Token.span ++ opening.span ::
        (inner.map Token.span ++ closing.span :: after.map Token.span) := by simp
  rw [hsplit] at htiling
  obtain ⟨-, -, htail⟩ := Text.tiling_append_cons.1 htiling
  obtain ⟨hinside, -, -⟩ := Text.tiling_append_cons.1 htail
  refine ⟨opening.stop, closing.start, ?_, hinside, hinner⟩
  have htext : t.between i.span.start i.span.stop =
      '(' :: (t.between opening.stop closing.start ++ [')']) := by
    have hopened : opening.start ≤ opening.stop := opening.span.start_le_stop
    have hclosed : closing.start ≤ closing.stop := closing.span.start_le_stop
    have hbounds : opening.stop ≤ closing.start := hinside.bounds
    have hleft : opening.lexeme = ['('] := hfirst.2.mark '(' (hopening ▸ rfl)
    have hright : closing.lexeme = [')'] := hlast.2.mark ')' (hclosing ▸ rfl)
    rw [hstart, hstop, Text.between_append hopened (Nat.le_trans hbounds hclosed),
      Text.between_append hbounds hclosed, hfirst.1.between, hlast.1.between, hleft, hright]
    rfl
  exact (congrArg Text.trim htext).trans (trim_parenthesized _)

/-- Of the parentheses around a list only the outer ones are taken off in front. -/
theorem parameterNames_eq {text : Text} (h : ∀ c ∈ (text ++ [')']).head?, c ≠ '(') :
    parameterNames ('(' :: (text ++ [')'])) = entryNames (text.rdropWhile (· == ')')) := by
  have hfront : (text ++ [')']).dropWhile (· == '(') = text ++ [')'] := by
    cases hparts : text ++ [')'] with
    | nil => rfl
    | cons c rest =>
      rw [hparts] at h
      exact List.dropWhile_cons_of_neg (by simpa using h c rfl)
  rw [parameterNames, trim_parenthesized, List.dropWhile_cons_of_pos (by decide), hfront,
    Text.dropEnd_eq_rdropWhile, List.rdropWhile_concat_pos _ _ _ (by decide)]
  rfl

/-- The names that are read off the text of a legible argument list are the declared ones. -/
theorem parameterNames_textIn (hlex : Token.lex t = .ok tokens)
    (hparens : Token.Parenthesized tokens inner i.span) (hlegible : Legible t inner) :
    parameterNames (i.textIn t) = (entries inner).filterMap declared? := by
  obtain ⟨lo, hi, htext, htiling, hts⟩ := textIn_of_parenthesized hlex hparens
  rw [htext, parameterNames_eq (head?_between_ne htiling hts hlegible.opens)]
  exact entryNames_between 0 htiling hts hlegible.written hlegible.unsplit
    List.rdropWhile_append_rtakeWhile.symm
    fun c hc => beq_iff_eq.1 (List.mem_rtakeWhile_imp (p := (· == ')')) hc)

/-- The item is a mixin or a function with an argument list and a body. -/
structure Defines (source : Text) (i : Item) (kind : DeclarationKind) (arguments body : Item) :
    Prop where
  atRule : i.kind? = some .atRule
  keyword : ((i.child? .atKeyword).bind fun k => kindOfKeyword? (k.textIn source)) = some kind
  arguments_child : i.child? .arguments = some arguments
  block_child : i.child? .block = some body

/-- A parameter of the mixin or function `callable`, which is known in its body. -/
def ofParameter (callable : Text) (arguments body : Item) (name : Text) : Declaration :=
  { kind := .variable
    name := name
    detail := some ("parameter of ".toList ++ callable)
    visibleFrom := arguments.stop
    scope := some body.span }

theorem kindOfKeyword?_ne_variable {keyword : Text} {kind : DeclarationKind}
    (h : kindOfKeyword? keyword = some kind) : kind ≠ .variable := by
  unfold kindOfKeyword? at h
  split at h
  · cases h
    decide
  · split at h <;> cases h
    decide

/-- What a mixin or a function declares: its parameters, and after them itself. -/
theorem ofItem_of_defines {source : Text} {kind : DeclarationKind} {arguments body name : Item}
    (h : Defines source i kind arguments body) (hname : i.child? .identifier = some name)
    (scope : Option Span) :
    ∃ detail, ofItem source scope i =
      (parameterNames (arguments.textIn source)).map
          (ofParameter (name.textIn source) arguments body) ++
        [⟨kind, name.textIn source, detail, i.stop, scope⟩] := by
  simp only [ofItem, h.atRule, ofAtRule, h.keyword, hname, ofParameters, h.arguments_child,
    h.block_child]
  exact ⟨_, rfl⟩

/-- Parameters.  All that a sheet declares is declared by its items.  If the argument list of a
mixin or a function is legible, then the variables that the item declares are the parameters
that the entries of the list declare, in order, and they come in front of the mixin or function
itself. -/
theorem declarations_parameters {s : Snapshot} {items : List Item}
    (hparse : Grammar.parse s.text = .ok items) (hlex : Token.lex s.text = .ok tokens) :
    (∃ placed, Listing none items (Item.walkAll 0 items) placed ∧
      (Tree.parsed s items).declarations = placed.flatMap fun e => ofItem s.text e.2 e.1) ∧
    ∀ e ∈ Item.walkAll 0 items, ∀ kind arguments body,
      Defines s.text e.2 kind arguments body →
      Legible s.text (Token.inside tokens arguments.span) →
      kind ≠ .variable ∧ ∃ name, e.2.child? .identifier = some name ∧
        ∀ scope, ∃ detail, ofItem s.text scope e.2 =
          ((entries (Token.inside tokens arguments.span)).filterMap declared?).map
              (ofParameter (name.textIn s.text) arguments body) ++
            [⟨kind, name.textIn s.text, detail, e.2.stop, scope⟩] := by
  refine ⟨belowAll_listing s.text 0 none items,
    fun e he kind arguments body hdefines hlegible => ?_⟩
  obtain ⟨i, hi, hoccurs⟩ := Item.exists_occurs_of_mem_walkAll he
  have hsigns := (Grammar.sheetForm_of_parse hparse hlex).signs.below i hi e.2 hoccurs
  obtain ⟨⟨b, hb, hbkind⟩, inner, hparens⟩ :=
    hsigns arguments (List.mem_of_find?_eq_some hdefines.arguments_child)
      (Item.child?_eq_some hdefines.arguments_child).2
  obtain ⟨name, hname⟩ : ∃ name, e.2.child? .identifier = some name :=
    Option.isSome_iff_exists.1 (List.find?_isSome.2 ⟨b, hb, beq_iff_eq.2 hbkind⟩)
  rw [Token.inside_eq (Token.lex_inOrder hlex) hparens] at hlegible ⊢
  refine ⟨?_, name, hname, fun scope => ?_⟩
  · obtain ⟨keyword, -, hkeyword⟩ := Option.bind_eq_some_iff.1 hdefines.keyword
    exact kindOfKeyword?_ne_variable hkeyword
  · rw [← parameterNames_textIn hlex hparens hlegible]
    exact ofItem_of_defines hdefines hname scope

/-- Whether some mixin among the items has a body and an argument list over the span. -/
def mixinAt (source : Text) (s : Span) (items : List Item) : Bool :=
  (Item.walkAll 0 items).any fun e => e.2.kind? == some .atRule &&
    (((e.2.child? .atKeyword).bind fun k => kindOfKeyword? (k.textIn source)) == some .mixin &&
      ((e.2.child? .arguments).any (fun a => a.span == s) && (e.2.child? .block).isSome))

theorem exists_defines {source : Text} {s : Span} {items : List Item}
    (h : mixinAt source s items = true) :
    ∃ e ∈ Item.walkAll 0 items, ∃ arguments body,
      Defines source e.2 .mixin arguments body ∧ arguments.span = s := by
  obtain ⟨e, he, hread⟩ := List.any_eq_true.1 h
  obtain ⟨hkind, hread⟩ := Bool.and_eq_true_iff.1 hread
  obtain ⟨hkeyword, hread⟩ := Bool.and_eq_true_iff.1 hread
  obtain ⟨harguments, hblock⟩ := Bool.and_eq_true_iff.1 hread
  obtain ⟨arguments, harguments, hspan⟩ := (Option.any_eq_true _ _).1 harguments
  obtain ⟨body, hbody⟩ := Option.isSome_iff_exists.1 hblock
  exact ⟨e, he, arguments, body, ⟨beq_iff_eq.1 hkind, beq_iff_eq.1 hkeyword, harguments, hbody⟩,
    beq_iff_eq.1 hspan⟩

/-- A mixin with a parameter alone, one with a default value and one for the rest. -/
def listedMixin : Text := "@mixin m($a, $b: f(1, \"x, y\"), $c...) \x7b x: y \x7d".toList

def listedArguments : Span := ⟨8, 37, by decide⟩

theorem declarations_parameters_listedMixin :
    ∃ items tokens, Grammar.parse listedMixin = .ok items ∧ Token.lex listedMixin = .ok tokens ∧
      ∃ e ∈ Item.walkAll 0 items, ∃ arguments body,
        Defines listedMixin e.2 .mixin arguments body ∧
        Legible listedMixin (Token.inside tokens arguments.span) ∧
        ∃ name : Item, ∀ scope, ∃ detail, ofItem listedMixin scope e.2 =
          ["a".toList, "b".toList, "c".toList].map
              (ofParameter (name.textIn listedMixin) arguments body) ++
            [⟨.mixin, name.textIn listedMixin, detail, e.2.stop, scope⟩] := by
  obtain ⟨items, hparse, hread⟩ := exists_ok (r := Grammar.parse listedMixin)
    (p := mixinAt listedMixin listedArguments) (by decide +kernel)
  obtain ⟨tokens, hlex, hscan⟩ := exists_ok (r := Token.lex listedMixin)
    (p := fun tokens => let inner := Token.inside tokens listedArguments
      decide (inner.head?.map Token.kind ≠ some .openParen) &&
        (decide (∀ entry ∈ entries inner, Written entry) &&
          (decide (∀ entry ∈ entries inner, Unsplit listedMixin entry) &&
            (entries inner).filterMap declared? == ["a".toList, "b".toList, "c".toList])))
    (by decide +kernel)
  obtain ⟨hopens, hscan⟩ := Bool.and_eq_true_iff.1 hscan
  obtain ⟨hwritten, hscan⟩ := Bool.and_eq_true_iff.1 hscan
  obtain ⟨hunsplit, hnames⟩ := Bool.and_eq_true_iff.1 hscan
  obtain ⟨e, he, arguments, body, hdefines, hspan⟩ := exists_defines hread
  have hlegible : Legible listedMixin (Token.inside tokens arguments.span) := by
    rw [hspan]
    exact ⟨of_decide_eq_true hopens, of_decide_eq_true hwritten, of_decide_eq_true hunsplit⟩
  obtain ⟨-, hdeclared⟩ := declarations_parameters (s := ⟨0, .buffer 0, listedMixin⟩) hparse hlex
  obtain ⟨-, name, -, hitem⟩ := hdeclared e he .mixin arguments body hdefines hlegible
  rw [hspan, beq_iff_eq.1 hnames] at hitem
  exact ⟨items, tokens, hparse, hlex, e, he, arguments, body, hdefines, hlegible, name, hitem⟩

/-- A mixin with a variable in the default value of its first parameter. -/
def nestedMixin : Text := "@mixin m($a: f(1, $b, 2), $c) \x7b x: $ \x7d".toList

def nestedArguments : Span := ⟨8, 29, by decide⟩

/-- The names that a sheet records as parameters of the mixin `m`. -/
def parametersOf (source : Text) (items : List Item) : List Text :=
  (Tree.parsed ⟨0, .buffer 0, source⟩ items).declarations.filterMap fun d =>
    if d.detail = some "parameter of m".toList then some d.name else none

/-- The variable in the default value is taken for a parameter, as a comma stands before it. -/
theorem declarations_default_value :
    ∃ items tokens, Grammar.parse nestedMixin = .ok items ∧ Token.lex nestedMixin = .ok tokens ∧
      ∃ e ∈ Item.walkAll 0 items, ∃ arguments body,
        Defines nestedMixin e.2 .mixin arguments body ∧
        (entries (Token.inside tokens arguments.span)).filterMap declared? =
          ["a".toList, "c".toList] ∧
        parametersOf nestedMixin items = ["a".toList, "b".toList, "c".toList] := by
  obtain ⟨items, hparse, hread⟩ := exists_ok (r := Grammar.parse nestedMixin)
    (p := fun items => mixinAt nestedMixin nestedArguments items &&
      parametersOf nestedMixin items == ["a".toList, "b".toList, "c".toList]) (by decide +kernel)
  obtain ⟨hmixin, hrecorded⟩ := Bool.and_eq_true_iff.1 hread
  obtain ⟨tokens, hlex, hnames⟩ := exists_ok (r := Token.lex nestedMixin)
    (p := fun tokens => (entries (Token.inside tokens nestedArguments)).filterMap declared? ==
      ["a".toList, "c".toList]) (by decide +kernel)
  obtain ⟨e, he, arguments, body, hdefines, hspan⟩ := exists_defines hmixin
  refine ⟨items, tokens, hparse, hlex, e, he, arguments, body, hdefines, ?_, beq_iff_eq.1 hrecorded⟩
  rw [hspan]
  exact beq_iff_eq.1 hnames

end Declaration
end LiveSheet
