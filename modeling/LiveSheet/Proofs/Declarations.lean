import LiveSheet.Proofs.Bindings
import Mathlib.Data.List.Infix

/-!
# Declarations and comments

What a sheet declares does not change when blanks are put in the place of its comments, as long as
no comment stands where a statement looks at the very next token, or in an argument list from which
parameters are read off.
-/

namespace LiveSheet
namespace Grammar

open Token (uncommented uncommented_cons_of_some uncommented_cons_of_none)
open Declaration (Alike HeadsAlike Silent)

variable {t t' : Text} {tokens ts ts' rest : List Token} {tok keyword : Token} {s : Statement}

/-! ## Statements -/

/-- What is read of a statement with comments in it and without them declares alike and leaves the
same tokens behind it. -/
inductive Statement.Alike (t t' : Text) : Statement → Statement → Prop
  | item {i i' : Item} {rest : List Token} :
      Declaration.Alike t t' [i] [i'] → Alike t t' (.item i rest) (.item i' (uncommented rest))
  | header {kind : ItemKind} {head head' : List Item} {brace : Token} {rest : List Token} :
      HeadsAlike t t' kind head head' →
      Alike t t' (.header kind head brace rest) (.header kind head' brace (uncommented rest))

/-- Two preludes end at the same token, and behind it stands the same but for comments. -/
structure Prelude.Strips (p p' : Prelude) : Prop where
  terminator : p'.terminator = p.terminator
  rest : p'.rest = uncommented p.rest
  stop : ∀ u ∈ p.rest.head?, u.comment? = none

theorem prelude_strips (h : endFrom 0 ts' = endFrom 0 (uncommented ts)) :
    (prelude ts).Strips (prelude ts') := by
  have hend := prelude_end ts'
  rw [h, endFrom_uncommented, ← prelude_end ts] at hend
  obtain ⟨hterminator, hrest⟩ := Prod.mk.inj hend
  refine ⟨hterminator, hrest, fun u hu => ?_⟩
  cases hcons : (prelude ts).rest with
  | nil =>
    rw [hcons] at hu
    cases hu
  | cons v more =>
    rw [hcons] at hu
    obtain ⟨d, hof⟩ := prelude_rest hcons
    exact Option.some.inj hu ▸ Terminator.comment?_of_of? hof

theorem Prelude.Strips.rest_cons {p p' : Prelude} {u : Token} {more : List Token}
    (h : p.Strips p') (hcons : p.rest = u :: more) : p'.rest = u :: uncommented more := by
  rw [h.rest, hcons, uncommented_cons_of_none (h.stop u (by rw [hcons]; rfl))]

theorem prelude_bare (ts : List Token) : ∀ c ∈ (prelude ts).comments, c.Bare := by
  obtain ⟨run, -, hsifted⟩ := prelude_sifted .value ts
  exact hsifted.bare

theorem unknown_eq {p : Prelude} (h : ∀ c ∈ p.comments, c.Bare) :
    ∃ i, Silent i ∧
      unknown p = .item i (if p.terminator = .semicolon then p.rest.tail else p.rest) := by
  unfold unknown
  split
  rename_i covered rest heq
  have hrest : rest = if p.terminator = .semicolon then p.rest.tail else p.rest := by
    split at heq
    · rename_i hterminator hmark
      cases heq
      rw [if_pos hterminator, hmark]
      rfl
    · rename_i hno
      cases heq
      split
      · rename_i hterminator
        cases hcons : p.rest with
        | nil => rfl
        | cons mark more => exact absurd hcons (hno mark more hterminator)
      · rfl
  have hall : (Item.leaf .unknown (covered.getD (Span.point 0))).Bare := Item.bare_leaf (by decide)
  rw [← hrest]
  dsimp only
  split
  · exact ⟨_, Declaration.silent_of_bare hall, rfl⟩
  · exact ⟨_, Declaration.silent_gather
      (List.forall_mem_append.2 ⟨h, List.forall_mem_singleton.2 hall⟩) (by decide) (by decide), rfl⟩

theorem unknown_alike {p p' : Prelude} (h : p.Strips p') (hp : ∀ c ∈ p.comments, c.Bare)
    (hp' : ∀ c ∈ p'.comments, c.Bare) : (unknown p).Alike t t' (unknown p') := by
  obtain ⟨i, hi, heq⟩ := unknown_eq hp
  obtain ⟨i', hi', heq'⟩ := unknown_eq hp'
  have hleft : (if p'.terminator = .semicolon then p'.rest.tail else p'.rest) =
      uncommented (if p.terminator = .semicolon then p.rest.tail else p.rest) := by
    rw [h.terminator]
    split
    · cases hcons : p.rest with
      | nil =>
        rw [h.rest, hcons]
        rfl
      | cons mark more => rw [h.rest_cons hcons, List.tail_cons, List.tail_cons]
    · exact h.rest
  rw [heq, heq', hleft]
  exact .item (hi.alike hi')

theorem rule_of_block {brace : Token} (hterminator : (prelude ts).terminator = .block)
    (hrest : (prelude ts).rest = brace :: rest) :
    rule ts = .header .ruleBlock
      ((prelude ts).comments ++ ((prelude ts).covered.map (Item.leaf .selector)).toList) brace
        rest := by
  simp only [rule, hterminator, hrest]

theorem rule_of_not_block (h : ¬((prelude ts).terminator = .block ∧ (prelude ts).rest ≠ [])) :
    rule ts = unknown (prelude ts) := by
  unfold rule
  dsimp only
  split
  · rename_i hterminator hrest
    exact absurd ⟨hterminator, by rw [hrest]; exact List.cons_ne_nil _ _⟩ h
  · rfl

theorem rule_alike (h : endFrom 0 ts' = endFrom 0 (uncommented ts)) :
    (rule ts).Alike t t' (rule ts') := by
  have hstrips := prelude_strips h
  by_cases hblock : (prelude ts).terminator = .block ∧ (prelude ts).rest ≠ []
  · obtain ⟨hterminator, hne⟩ := hblock
    obtain ⟨brace, rest, hrest⟩ := List.exists_cons_of_ne_nil hne
    have hbare : ∀ ts, ∀ c ∈ (prelude ts).comments ++ covering .selector (prelude ts).covered,
        c.Bare := fun ts => List.forall_mem_append.2 ⟨prelude_bare ts, bare_covering (by decide)⟩
    rw [rule_of_block hterminator hrest,
      rule_of_block (hstrips.terminator.trans hterminator) (hstrips.rest_cons hrest)]
    exact .header (Declaration.headsAlike_ruleBlock (hbare ts) (hbare ts'))
  · have hblock' : ¬((prelude ts').terminator = .block ∧ (prelude ts').rest ≠ []) := by
      rintro ⟨hterminator, hne⟩
      refine hblock ⟨hstrips.terminator.symm.trans hterminator, fun hnil => hne ?_⟩
      rw [hstrips.rest, hnil]
      rfl
    rw [rule_of_not_block hblock, rule_of_not_block hblock']
    exact unknown_alike hstrips (prelude_bare ts) (prelude_bare ts')

theorem propertyDeclaration_ok {after : List Token} {v : Value} (hv : value after = .ok v)
    (name : List Token) (colon : Token) :
    ∃ i, Silent i ∧ propertyDeclaration name (colon :: after) = .ok (.item i v.rest) := by
  obtain ⟨run, -, hform⟩ := value_form hv
  have hbare : ∀ c ∈ (separate name).1 ++ covering .propertyName (separate name).2 ++
      [colon.leaf .punctuation] ++ v.children, c.Bare := by
    refine List.forall_mem_append.2 ⟨List.forall_mem_append.2 ⟨List.forall_mem_append.2
      ⟨(separate_sifted .propertyName name).bare, bare_covering (by decide)⟩,
      List.forall_mem_singleton.2 (Item.bare_leaf (by decide))⟩, hform.bare⟩
  refine ⟨.gather .propertyDeclaration _,
    Declaration.silent_gather hbare (by decide) (by decide), ?_⟩
  simp only [propertyDeclaration, hv]
  rfl

theorem exists_value_of_propertyDeclaration {name after : List Token} {colon : Token}
    (h : propertyDeclaration name (colon :: after) = .ok s) : ∃ v, value after = .ok v := by
  cases hv : value after with
  | error e =>
    simp only [propertyDeclaration, hv] at h
    cases h
  | ok v => exact ⟨v, rfl⟩

theorem propertyDeclaration_alike {name name' after : List Token} {colon : Token}
    (h : propertyDeclaration name (colon :: after) = .ok s) :
    ∃ s', propertyDeclaration name' (colon :: uncommented after) = .ok s' ∧ s.Alike t t' s' := by
  obtain ⟨v, hv⟩ := exists_value_of_propertyDeclaration h
  obtain ⟨v', hv', hrest⟩ := valueFrom_uncommented hv [] none
  obtain ⟨i, hi, heq⟩ := propertyDeclaration_ok hv name colon
  obtain ⟨i', hi', heq'⟩ := propertyDeclaration_ok hv' name' colon
  cases heq.symm.trans h
  rw [hrest] at heq'
  exact ⟨_, heq', .item (hi.alike hi')⟩

theorem ruleOrDeclaration_alike (hcomment : tok.comment? = none)
    (h : ruleOrDeclaration (tok :: rest) = .ok s) :
    ∃ s', ruleOrDeclaration (tok :: uncommented rest) = .ok s' ∧ s.Alike t t' s' := by
  have hkept := uncommented_cons_of_none hcomment rest
  rw [← hkept]
  rw [ruleOrDeclaration_eq] at h ⊢
  rw [cutFrom_uncommented, endFrom_uncommented]
  have hrule : s = rule (tok :: rest) →
      s.Alike t t' (rule (uncommented (tok :: rest))) := by
    rintro rfl
    exact rule_alike rfl
  cases hcut : cutFrom 0 (tok :: rest) with
  | none =>
    rw [hcut] at h
    exact ⟨_, rfl, hrule (Except.ok.inj h).symm⟩
  | some cut =>
    obtain ⟨front, back⟩ := cut
    rw [hcut] at h
    obtain ⟨hsplit, colon, after, rfl, hcolon⟩ := cutFrom_append hcut
    cases front with
    | nil => exact ⟨_, rfl, hrule (Except.ok.inj h).symm⟩
    | cons u front =>
      obtain ⟨rfl, -⟩ := List.cons.inj hsplit
      dsimp only [Option.map_some, Prod.map_apply, Prod.map_fst, id_eq] at h ⊢
      rw [uncommented_cons_of_none hcomment,
        uncommented_cons_of_none (comment?_of_kind hcolon (by decide))]
      dsimp only
      split at h
      · rename_i hblock
        rw [if_pos hblock]
        exact ⟨_, rfl, hrule (Except.ok.inj h).symm⟩
      · rename_i hblock
        rw [if_neg hblock]
        exact propertyDeclaration_alike h

/-! ## Variables and at-rules -/

theorem variableDeclaration_alike {name colon : Token} (ht : name.StandsIn t)
    (ht' : name.StandsIn t') (h : variableDeclaration name colon ts = .ok s) :
    ∃ s', variableDeclaration name colon (uncommented ts) = .ok s' ∧ s.Alike t t' s' := by
  cases hv : value ts with
  | error e =>
    rw [variableDeclaration, hv] at h
    cases h
  | ok v =>
    obtain ⟨v', hv', hrest⟩ := valueFrom_uncommented hv [] none
    obtain ⟨run, -, hform⟩ := value_form hv
    obtain ⟨run', -, hform'⟩ := value_form hv'
    rw [variableDeclaration, hv] at h
    cases h
    have hvalue : value (uncommented ts) = .ok v' := hv'
    rw [variableDeclaration, hvalue]
    refine ⟨_, rfl, ?_⟩
    rw [hrest]
    refine .item fun scope => ?_
    rw [Declaration.belowAll_singleton, Declaration.belowAll_singleton,
      Declaration.below_variableDeclaration ht hform,
      Declaration.below_variableDeclaration ht' hform']

/-- What the prelude of an at-rule adds to its head. -/
def tailOf (ts : List Token) : List Item :=
  (prelude ts).comments ++ covering .value (prelude ts).covered

theorem tailOf_bare (ts : List Token) : ∀ c ∈ tailOf ts, c.Bare :=
  List.forall_mem_append.2 ⟨prelude_bare ts, bare_covering (by decide)⟩

theorem tailOf_dull (ts : List Token) : ∀ c ∈ tailOf ts, c.Dull := by
  obtain ⟨run, -, hsifted⟩ := prelude_sifted .value ts
  exact hsifted.dull

theorem atRuleTail_of_block {brace : Token} (hterminator : (prelude ts).terminator = .block)
    (hrest : (prelude ts).rest = brace :: rest) (front : List Item) :
    atRuleTail front ts = .header .atRule (front ++ tailOf ts) brace rest := by
  simp only [atRuleTail, hterminator, hrest, tailOf, covering, List.append_assoc]

theorem atRuleTail_of_mark {mark : Token} (hterminator : (prelude ts).terminator = .semicolon)
    (hrest : (prelude ts).rest = mark :: rest) (front : List Item) :
    atRuleTail front ts =
      .item (.gather .atRule (front ++ (tailOf ts ++ [mark.leaf .punctuation]))) rest := by
  simp only [atRuleTail, hterminator, hrest, tailOf, covering, List.append_assoc]

theorem atRuleTail_of_end (h : (prelude ts).rest = [] ∨
      (prelude ts).terminator ≠ .block ∧ (prelude ts).terminator ≠ .semicolon)
    (front : List Item) :
    atRuleTail front ts = .item (.gather .atRule (front ++ tailOf ts)) (prelude ts).rest := by
  unfold atRuleTail
  dsimp only
  split
  · rename_i hterminator hrest
    rw [hterminator, hrest] at h
    simp at h
  · rename_i hterminator hrest
    rw [hterminator, hrest] at h
    simp at h
  · rw [tailOf, ← List.append_assoc]
    rfl

theorem atRuleTail_alike {run run' : List Token} {named named' : List Item}
    (ht : keyword.StandsIn t) (ht' : keyword.StandsIn t')
    (hnamed : SignatureForm keyword run named) (hnamed' : SignatureForm keyword run' named')
    (hcall : (Declaration.kindOfKeyword? (Text.trim keyword.lexeme)).isSome →
      Declaration.SameCall t t' named named')
    (hend : endFrom 0 ts' = endFrom 0 (uncommented ts)) :
    (atRuleTail (keyword.leaf .atKeyword :: named) ts).Alike t t'
      (atRuleTail (keyword.leaf .atKeyword :: named') ts') := by
  have hstrips := prelude_strips hend
  have hplain := Declaration.alike_atRule ht ht' hnamed hnamed' hcall (tailOf_bare ts)
    (tailOf_bare ts') (tailOf_dull ts) (tailOf_dull ts')
  cases hrest : (prelude ts).rest with
  | nil =>
    have hrest' : (prelude ts').rest = [] := by
      rw [hstrips.rest, hrest]
      rfl
    rw [atRuleTail_of_end (.inl hrest), atRuleTail_of_end (.inl hrest'), hstrips.rest]
    exact .item hplain
  | cons u more =>
    have hrest' := hstrips.rest_cons hrest
    by_cases hblock : (prelude ts).terminator = .block
    · rw [atRuleTail_of_block hblock hrest,
        atRuleTail_of_block (hstrips.terminator.trans hblock) hrest']
      exact .header (Declaration.headsAlike_atRule ht ht' hnamed hnamed' hcall (tailOf_bare ts)
        (tailOf_bare ts') (tailOf_dull ts) (tailOf_dull ts'))
    · by_cases hmark : (prelude ts).terminator = .semicolon
      · have hbare : ∀ ts, ∀ c ∈ tailOf ts ++ [u.leaf .punctuation], c.Bare := fun ts =>
          List.forall_mem_append.2 ⟨tailOf_bare ts,
            List.forall_mem_singleton.2 (Item.bare_leaf (by decide))⟩
        have hdull : ∀ ts, ∀ c ∈ tailOf ts ++ [u.leaf .punctuation], c.Dull := fun ts =>
          List.forall_mem_append.2 ⟨tailOf_dull ts,
            List.forall_mem_singleton.2 (Item.dull_leaf (by decide))⟩
        rw [atRuleTail_of_mark hmark hrest,
          atRuleTail_of_mark (hstrips.terminator.trans hmark) hrest']
        exact .item (Declaration.alike_atRule ht ht' hnamed hnamed' hcall (hbare ts) (hbare ts')
          (hdull ts) (hdull ts'))
      · have hneither := And.intro hblock hmark
        have hneither' := hneither
        rw [← hstrips.terminator] at hneither'
        rw [atRuleTail_of_end (.inr hneither), atRuleTail_of_end (.inr hneither'), hstrips.rest]
        exact .item hplain

theorem trim_of_namesCallable {lexeme : Text} (h : namesCallable lexeme = true) :
    Text.trim lexeme = lexeme := by
  simp only [namesCallable, Bool.or_eq_true, beq_iff_eq] at h
  rcases h with (rfl | rfl) | rfl <;> decide

theorem statement_of_atKeyword (h : tok.kind = .atKeyword) (rest : List Token) :
    statement tok rest = atRule tok rest := by
  simp only [statement, h]

theorem statement_of_variable {colon : Token} (h : tok.kind = .variable)
    (hcolon : colon.kind = .colon) (after : List Token) :
    statement tok (colon :: after) = variableDeclaration tok colon after := by
  simp only [statement, h, hcolon, if_true]

theorem statement_of_other (hkeyword : tok.kind ≠ .atKeyword)
    (h : ¬(tok.kind = .variable ∧ rest.head?.map Token.kind = some .colon)) :
    statement tok rest = ruleOrDeclaration (tok :: rest) := by
  unfold statement
  split
  · exact absurd ‹_› hkeyword
  · rename_i next after hvariable
    exact if_neg fun hcolon => h ⟨hvariable, congrArg some hcolon⟩
  · rfl

/-! ## Where comments may not stand -/

/-- Of a statement that begins with the first token: no comment in front of the colon of a variable
hides the declaration, none in front of the name of an at-rule or of its argument list hides what
it declares, and none in the list changes its parameters. -/
structure Unbroken (t : Text) (tokens : List Token) (first : Token) (after : List Token) :
    Prop where
  colon : first.kind = .variable → ¬Hidden .colon after
  call : namesCallable first.lexeme = true → Parted after →
    Declaration.kindOfKeyword? first.lexeme = none ∧ Closes (uncommented after)
  parameters : (Declaration.kindOfKeyword? first.lexeme).isSome →
    ∀ inner ∈ listed? after, Declaration.Spared t tokens inner

instance (t : Text) (tokens : List Token) (first : Token) (after : List Token) :
    Decidable (Unbroken t tokens first after) :=
  decidable_of_iff ((first.kind = .variable → ¬Hidden .colon after) ∧
    (namesCallable first.lexeme = true → Parted after →
      Declaration.kindOfKeyword? first.lexeme = none ∧ Closes (uncommented after)) ∧
    ((Declaration.kindOfKeyword? first.lexeme).isSome →
      ∀ inner ∈ listed? after, Declaration.Spared t tokens inner))
    ⟨fun ⟨colon, call, parameters⟩ => ⟨colon, call, parameters⟩,
      fun ⟨colon, call, parameters⟩ => ⟨colon, call, parameters⟩⟩

section

variable (hlex : Token.lex t = .ok tokens)

include hlex

theorem standsIn_uncommented (htok : tok ∈ tokens) (h : tok.comment? = none) :
    tok.StandsIn t ∧ tok.StandsIn (t.uncommented tokens) :=
  ⟨((Token.lex_tiling hlex).2 tok htok).1,
    ((Token.lex_tiling (Token.lex_uncommented hlex)).2 tok (Token.mem_uncommented.2 ⟨htok, h⟩)).1⟩

theorem sameCall_of_form {run : List Token} {named : List Item}
    (hform : SignatureForm keyword run named) (hrun : run <:+: tokens)
    (hspared : ∀ inner ∈ listed? run, Declaration.Spared t tokens inner) :
    Declaration.SameCall t (t.uncommented tokens) named named := by
  have hname : ∀ name ∈ tokens, name.kind = .identifier →
      (name.leaf .identifier).textIn (t.uncommented tokens) =
        (name.leaf .identifier).textIn t := by
    intro name hmem hkind
    obtain ⟨ht, ht'⟩ := standsIn_uncommented hlex hmem (comment?_of_kind hkind (by decide))
    rw [Declaration.textIn_leaf ht, Declaration.textIn_leaf ht']
  cases hform with
  | anonymous => exact ⟨rfl, List.forall_mem_nil _, List.forall_mem_nil _⟩
  | @named name _ hkind =>
    have hmem : name ∈ tokens := hrun.subset (List.mem_singleton_self name)
    exact ⟨rfl, List.forall_mem_singleton.2 fun _ => hname name hmem hkind,
      List.forall_mem_singleton.2 nofun⟩
  | @callable name opening closing inner arguments _ hkind hopening hclosing hclosed hcover =>
    have hmem : name ∈ tokens := hrun.subset List.mem_cons_self
    have hparens : Token.Parenthesized tokens inner (Item.leaf .arguments arguments).span :=
      ⟨opening, closing, (List.suffix_cons _ _).isInfix.trans hrun, hopening, hclosing, hcover⟩
    refine ⟨rfl, List.forall_mem_cons.2 ⟨fun _ => hname name hmem hkind,
      List.forall_mem_singleton.2 nofun⟩, List.forall_mem_cons.2 ⟨nofun,
        List.forall_mem_singleton.2 fun _ => ?_⟩⟩
    refine Declaration.parameterNames_uncommented hlex hparens (hspared inner ?_)
    rw [listed?_call hkind hopening]
    exact listFrom_append hclosed hclosing []

theorem atRule_alike (hsuffix : keyword :: ts <:+ tokens) (hkeyword : keyword.kind = .atKeyword)
    (hunbroken : Unbroken t tokens keyword ts) (h : atRule keyword ts = .ok s) :
    ∃ s', atRule keyword (uncommented ts) = .ok s' ∧ s.Alike t (t.uncommented tokens) s' := by
  obtain ⟨ht, ht'⟩ := standsIn_uncommented hlex (hsuffix.subset List.mem_cons_self)
    (comment?_of_kind hkeyword (by decide))
  unfold atRule at h ⊢
  by_cases hcallable : namesCallable keyword.lexeme = true
  · rw [if_pos hcallable] at h ⊢
    cases hs : signature ts with
    | error e =>
      rw [hs] at h
      cases h
    | ok result =>
      obtain ⟨named, rest⟩ := result
      rw [hs] at h
      cases h
      obtain ⟨run, hrun, hform⟩ := signature_form hcallable hs
      by_cases hparted : Parted ts
      · obtain ⟨hnone, hcloses⟩ := hunbroken.call hcallable hparted
        obtain ⟨named', rest', hs', hend⟩ := signature_of_parted hs hparted hcloses
        obtain ⟨run', -, hform'⟩ := signature_form hcallable hs'
        rw [hs']
        refine ⟨_, rfl, atRuleTail_alike ht ht' hform hform' (fun hsome => ?_) hend⟩
        rw [trim_of_namesCallable hcallable, hnone] at hsome
        cases hsome
      · have horder := (Token.lex_inOrder hlex).sublist
          ((List.suffix_cons _ _).trans hsuffix).sublist
        have hs' := signature_uncommented horder hs hparted
        obtain ⟨run', -, hform'⟩ := signature_form hcallable hs'
        rw [hs']
        refine ⟨_, rfl, atRuleTail_alike ht ht' hform hform' (fun hsome => ?_) rfl⟩
        rw [trim_of_namesCallable hcallable] at hsome
        obtain ⟨before, hbefore⟩ := hsuffix
        have hinfix : run <:+: tokens := ⟨before ++ [keyword], rest, by
          rw [← hbefore, hrun]
          simp⟩
        refine sameCall_of_form hlex hform hinfix fun inner hinner => ?_
        exact hunbroken.parameters hsome inner (hrun ▸ listed?_append hinner rest)
  · rw [if_neg hcallable] at h ⊢
    cases h
    exact ⟨_, rfl, atRuleTail_alike ht ht' .anonymous .anonymous
      (fun _ => ⟨rfl, List.forall_mem_nil _, List.forall_mem_nil _⟩) rfl⟩

theorem statement_alike (hsuffix : tok :: rest <:+ tokens) (hcomment : tok.comment? = none)
    (hunbroken : Unbroken t tokens tok rest) (h : statement tok rest = .ok s) :
    ∃ s', statement tok (uncommented rest) = .ok s' ∧ s.Alike t (t.uncommented tokens) s' := by
  by_cases hkeyword : tok.kind = .atKeyword
  · rw [statement_of_atKeyword hkeyword] at h ⊢
    exact atRule_alike hlex hsuffix hkeyword hunbroken h
  · by_cases hdeclares : tok.kind = .variable ∧ rest.head?.map Token.kind = some .colon
    · obtain ⟨hvariable, hcolon⟩ := hdeclares
      cases rest with
      | nil => cases hcolon
      | cons colon after =>
        replace hcolon := Option.some.inj hcolon
        obtain ⟨ht, ht'⟩ := standsIn_uncommented hlex (hsuffix.subset List.mem_cons_self) hcomment
        rw [uncommented_cons_of_none (comment?_of_kind hcolon (by decide))]
        rw [statement_of_variable hvariable hcolon] at h ⊢
        exact variableDeclaration_alike ht ht' h
    · have hdeclares' : ¬(tok.kind = .variable ∧
          (uncommented rest).head?.map Token.kind = some .colon) := by
        rintro ⟨hvariable, hlead⟩
        exact hunbroken.colon hvariable ⟨hlead, fun hcolon => hdeclares ⟨hvariable, hcolon⟩⟩
      rw [statement_of_other hkeyword hdeclares] at h
      rw [statement_of_other hkeyword hdeclares']
      exact ruleOrDeclaration_alike hcomment h

end

/-! ## Readings -/

/-- The readings that a reading comes by. -/
inductive Reading.Reaches : Reading → Reading → Prop
  | here (r : Reading) : Reaches r r
  | step {r next s : Reading} : r.step = .more next → Reaches next s → Reaches r s

/-- Two open blocks that will declare alike when they are closed. -/
structure OpenBlock.Alike (t t' : Text) (b b' : OpenBlock) : Prop where
  kind : b'.kind = b.kind
  brace : b'.brace = b.brace
  head : HeadsAlike t t' b.kind b.head b'.head
  before : Declaration.Alike t t' b.before.reverse b'.before.reverse

/-- Two readings, of which the second one has no comments before it. -/
structure Reading.Alike (t t' : Text) (r r' : Reading) : Prop where
  blocks : List.Forall₂ (OpenBlock.Alike t t') r.blocks r'.blocks
  items : Declaration.Alike t t' r.items.reverse r'.items.reverse
  rest : r'.rest = uncommented r.rest

theorem OpenBlock.Alike.close {b b' : OpenBlock} {items items' : List Item}
    (h : b.Alike t t' b') (hitems : Declaration.Alike t t' items.reverse items'.reverse)
    (close : Token) :
    Declaration.Alike t t' (b.close items close :: b.before).reverse
      (b'.close items' close :: b'.before).reverse := by
  rw [List.reverse_cons, List.reverse_cons]
  refine h.before.append ?_
  rw [OpenBlock.close, OpenBlock.close, h.kind, h.brace]
  exact h.head _ _ _ hitems

namespace Reading

variable {r r' next : Reading}

theorem Alike.push (h : r.Alike t t' r') {i i' : Item} (hi : Declaration.Alike t t' [i] [i'])
    (rest : List Token) :
    Alike t t' ⟨r.blocks, i :: r.items, rest⟩ ⟨r'.blocks, i' :: r'.items, uncommented rest⟩ := by
  refine ⟨h.blocks, ?_, rfl⟩
  rw [List.reverse_cons, List.reverse_cons]
  exact h.items.append hi

/-- A comment is not there in the second reading, which stands still. -/
theorem Alike.skip (h : r.Alike t t' r') {i : Item} (hi : Silent i) {c : Token}
    (hc : c.comment?.isSome) (hrest : r.rest = c :: rest) :
    Alike t t' ⟨r.blocks, i :: r.items, rest⟩ r' := by
  obtain ⟨j, hj⟩ := Option.isSome_iff_exists.1 hc
  refine ⟨h.blocks, fun scope => ?_, ?_⟩
  · rw [List.reverse_cons, Declaration.belowAll_append, Declaration.belowAll_singleton, hi,
      List.append_nil]
    exact h.items scope
  · rw [h.rest, hrest, uncommented_cons_of_some hj]

theorem Alike.closeBlock (h : r.Alike t t' r') (hstep : r.closeBlock tok rest = .more next) :
    ∃ next', r'.closeBlock tok (uncommented rest) = .more next' ∧ next.Alike t t' next' := by
  obtain ⟨blocks, items, _⟩ := r
  obtain ⟨blocks', items', _⟩ := r'
  have hblocks := h.blocks
  cases hblocks with
  | nil => cases hstep
  | cons hb houter =>
    cases hstep
    exact ⟨_, rfl, houter, hb.close h.items tok, rfl⟩

theorem Alike.openBlock {kind : ItemKind} {head head' : List Item} {brace : Token}
    (h : r.Alike t t' r') (hheads : HeadsAlike t t' kind head head')
    (hstep : r.openBlock kind head brace rest = .more next) :
    ∃ next', r'.openBlock kind head' brace (uncommented rest) = .more next' ∧
      next.Alike t t' next' := by
  unfold Reading.openBlock at hstep ⊢
  rw [h.blocks.length_eq.symm]
  split at hstep
  · cases hstep
  · rename_i hroom
    cases hstep
    rw [if_neg hroom]
    exact ⟨_, rfl, .cons ⟨rfl, rfl, hheads, h.items⟩ h.blocks, Declaration.alike_nil, rfl⟩

/-- The second reading stands still where the first one takes a comment, and steps with it
elsewhere. -/
theorem Alike.step (hlex : Token.lex t = .ok tokens) (h : r.Alike t (t.uncommented tokens) r')
    (hsuffix : r.rest <:+ tokens)
    (hunbroken : ∀ first after, r.rest = first :: after → Unbroken t tokens first after)
    (hstep : r.step = .more next) :
    next.Alike t (t.uncommented tokens) r' ∨
      ∃ next', r'.step = .more next' ∧ next.Alike t (t.uncommented tokens) next' := by
  have hrest' := h.rest
  unfold Reading.step at hstep ⊢
  cases hrest : r.rest with
  | nil =>
    rw [hrest] at hstep
    dsimp only at hstep
    unfold atEnd at hstep
    split at hstep <;> cases hstep
  | cons tok rest =>
    rw [hrest] at hstep hrest' hsuffix
    dsimp only at hstep
    cases hcomment : tok.comment? with
    | some comment =>
      rw [hcomment] at hstep
      cases hstep
      exact .inl (h.skip (Declaration.silent_of_bare (bare_of_comment? hcomment))
        (Option.isSome_of_eq_some hcomment) hrest)
    | none =>
      rw [uncommented_cons_of_none hcomment] at hrest'
      right
      rw [hcomment] at hstep
      rw [hrest']
      dsimp only at hstep ⊢
      rw [hcomment]
      dsimp only
      by_cases hclose : tok.kind = .closeBrace
      · rw [if_pos hclose] at hstep ⊢
        exact h.closeBlock hstep
      · rw [if_neg hclose] at hstep ⊢
        by_cases hmark : tok.kind = .semicolon
        · rw [if_pos hmark] at hstep ⊢
          cases hstep
          have hsilent : Silent (tok.leaf .punctuation) :=
            Declaration.silent_of_bare (Item.bare_leaf (by decide))
          exact ⟨_, rfl, h.push (hsilent.alike hsilent) rest⟩
        · rw [if_neg hmark] at hstep ⊢
          cases hs : statement tok rest with
          | error e =>
            rw [hs] at hstep
            cases hstep
          | ok s =>
            obtain ⟨s', hs', halike⟩ := statement_alike hlex hsuffix hcomment
              (hunbroken tok rest hrest) hs
            rw [hs] at hstep
            rw [hs']
            cases halike with
            | @item i i' rest hi =>
              cases hstep
              exact ⟨_, rfl, h.push hi rest⟩
            | header hheads => exact h.openBlock hheads hstep

theorem suffix_of_step (h : r.step = .more next) : next.rest <:+ r.rest := by
  cases advances_of_step h with
  | item hrest => exact hrest ▸ List.suffix_append _ _
  | opened _ hrest => exact hrest ▸ (List.suffix_cons _ _).trans (List.suffix_append _ _)
  | closed _ _ hrest => exact hrest ▸ List.suffix_cons _ _

theorem Reaches.suffix {s : Reading} (h : r.Reaches s) : s.rest <:+ r.rest := by
  induction h with
  | here => exact List.suffix_rfl
  | step hstep _ ih => exact ih.trans (suffix_of_step hstep)

/-- The second reading comes to its end as well, and has declared alike. -/
theorem Alike.run {items : List Item} (hlex : Token.lex t = .ok tokens)
    (h : r.Alike t (t.uncommented tokens) r') (hsuffix : r.rest <:+ tokens)
    (hunbroken : ∀ s, r.Reaches s → ∀ first after, s.rest = first :: after →
      Unbroken t tokens first after) (hrun : r.run = .ok items) :
    ∃ items', r'.run = .ok items' ∧ Declaration.Alike t (t.uncommented tokens) items items' := by
  fun_induction Reading.run r generalizing r' with
  | case1 r items hstep =>
    cases hrun
    have hr := finished_of_step hstep
    subst hr
    obtain ⟨blocks', items', rest'⟩ := r'
    obtain rfl : rest' = [] := h.rest
    have hblocks : blocks' = [] := List.forall₂_nil_left_iff.1 h.blocks
    subst hblocks
    have hitems := h.items
    rw [List.reverse_reverse] at hitems
    refine ⟨_, ?_, hitems⟩
    rw [run_eq]
    rfl
  | case2 r e hstep => cases hrun
  | case3 r next hstep ih =>
    have hsuffix' := (suffix_of_step hstep).trans hsuffix
    have hunbroken' : ∀ s, next.Reaches s → ∀ first after, s.rest = first :: after →
        Unbroken t tokens first after := fun s hs => hunbroken s (.step hstep hs)
    rcases h.step hlex hsuffix (hunbroken r (.here r)) hstep with hstill | ⟨next', hstep', hnext⟩
    · exact ih hstill hsuffix' hunbroken' hrun
    · obtain ⟨items', hrun', halike⟩ := ih hnext hsuffix' hunbroken' hrun
      refine ⟨items', ?_, halike⟩
      rw [run_eq, hstep']
      exact hrun'

end Reading

end Grammar

/-- Declarations without comments.  If no comment breaks a statement of a sheet that parses, then
the text with blanks in place of its comments parses as well.  It declares names of the same kinds
in the same blocks, in the same order. -/
theorem Tree.declarations_uncommented {s : Snapshot} {tokens : List Token} {items : List Item}
    (hlex : Token.lex s.text = .ok tokens) (hparse : Grammar.parse s.text = .ok items)
    (hunbroken : ∀ r, (Grammar.Reading.start tokens).Reaches r → ∀ first after,
      r.rest = first :: after → Grammar.Unbroken s.text tokens first after) :
    let s' := { s with text := s.text.uncommented tokens }
    ∃ items', Grammar.parse s'.text = .ok items' ∧
      (Tree.parsed s' items').declarations.map Declaration.binding =
        (Tree.parsed s items).declarations.map Declaration.binding := by
  intro s'
  have hrun : (Grammar.Reading.start tokens).run = .ok items := by
    rw [Grammar.parse, hlex] at hparse
    exact hparse
  have hstart : (Grammar.Reading.start tokens).Alike s.text (s.text.uncommented tokens)
      (Grammar.Reading.start (Token.uncommented tokens)) :=
    ⟨.nil, Declaration.alike_nil, rfl⟩
  obtain ⟨items', hrun', halike⟩ := hstart.run hlex List.suffix_rfl hunbroken hrun
  refine ⟨items', ?_, halike none⟩
  rw [Grammar.parse, Token.lex_uncommented hlex]
  exact hrun'

/-- A sheet with comments in values, behind braces, in a list and in front of the name of a mixin
that is used. -/
def remarked : Text := "$a:/*x*/1;@mixin m($b:2/*,*/,$c)\x7b//y\n$d:3\x7d@include/*z*/m;".toList

def unremarked : Text := "$a:     1;@mixin m($b:2     ,$c)\x7b   \n$d:3\x7d@include     m;".toList

def remarkedBody : Span := ⟨32, 42, by decide⟩

theorem Tree.declarations_uncommented_remarked :
    ∃ tokens items, Token.lex remarked = .ok tokens ∧ Grammar.parse remarked = .ok items ∧
      (∀ r, (Grammar.Reading.start tokens).Reaches r → ∀ first after, r.rest = first :: after →
        Grammar.Unbroken remarked tokens first after) ∧
      ∃ items', Grammar.parse unremarked = .ok items' ∧
        (Tree.parsed ⟨1, .buffer 0, unremarked⟩ items').declarations.map Declaration.binding =
          [(.variable, "a".toList, none), (.variable, "b".toList, some remarkedBody),
            (.variable, "c".toList, some remarkedBody), (.mixin, "m".toList, none),
            (.variable, "d".toList, some remarkedBody)] := by
  obtain ⟨tokens, hlex, hscan⟩ := exists_ok (r := Token.lex remarked)
    (p := fun tokens => decide (∀ ts ∈ tokens.tails, ∀ first ∈ ts.head?,
      Grammar.Unbroken remarked tokens first ts.tail) &&
        decide (remarked.uncommented tokens = unremarked)) (by decide +kernel)
  obtain ⟨items, hparse, hread⟩ := exists_ok (r := Grammar.parse remarked)
    (p := fun items =>
      (Tree.parsed ⟨1, .buffer 0, remarked⟩ items).declarations.map Declaration.binding ==
        [(.variable, "a".toList, none), (.variable, "b".toList, some remarkedBody),
          (.variable, "c".toList, some remarkedBody), (.mixin, "m".toList, none),
          (.variable, "d".toList, some remarkedBody)]) (by decide +kernel)
  obtain ⟨hunbroken, htext⟩ := Bool.and_eq_true_iff.1 hscan
  replace hunbroken : ∀ r, (Grammar.Reading.start tokens).Reaches r → ∀ first after,
      r.rest = first :: after → Grammar.Unbroken remarked tokens first after := by
    intro r hr first after hrest
    have hcheck := of_decide_eq_true hunbroken r.rest ((List.mem_tails _ _).2 hr.suffix) first
    rw [hrest] at hcheck
    exact hcheck rfl
  obtain ⟨items', hparse', hsame⟩ := Tree.declarations_uncommented (s := ⟨1, .buffer 0, remarked⟩)
    hlex hparse hunbroken
  rw [beq_iff_eq.1 hread, of_decide_eq_true htext] at hsame
  rw [of_decide_eq_true htext] at hparse'
  exact ⟨tokens, items, hlex, hparse, hunbroken, items', hparse', hsame⟩

/-- What a text declares, if it parses. -/
def bindings? (t : Text) : Option (List (DeclarationKind × Text × Option Span)) :=
  (Grammar.parse t).toOption.map fun items =>
    (Tree.parsed ⟨1, .buffer 0, t⟩ items).declarations.map Declaration.binding

/-- What a text declares with blanks in place of its comments. -/
def uncommentedBindings? (t : Text) : Option (List (DeclarationKind × Text × Option Span)) :=
  (Token.lex t).toOption.bind fun tokens => bindings? (t.uncommented tokens)

/-- A comment in front of the colon hides a variable, and one in a list hides a parameter.  A
comment in front of the name of a mixin hides that its list is left open, so that the text does not
parse without it. -/
theorem Tree.declarations_hidden :
    let variableText := "$a /**/: 1;".toList
    let listText := "@mixin m($a, /**/ $b) \x7b \x7d".toList
    let openText := "@mixin /**/ m(;".toList
    let body : Span := ⟨22, 25, by decide⟩
    bindings? variableText = some [] ∧
      uncommentedBindings? variableText = some [(.variable, "a".toList, none)] ∧
      bindings? listText = some [(.variable, "a".toList, some body), (.mixin, "m".toList, none)] ∧
      uncommentedBindings? listText = some [(.variable, "a".toList, some body),
        (.variable, "b".toList, some body), (.mixin, "m".toList, none)] ∧
      bindings? openText = some [] ∧ uncommentedBindings? openText = none := by
  intro variableText listText openText body
  refine ⟨?_, ?_, ?_, ?_, ?_, ?_⟩ <;> decide +kernel

end LiveSheet
