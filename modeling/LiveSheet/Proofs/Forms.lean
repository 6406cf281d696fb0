import LiveSheet.Proofs.Braces
import LiveSheet.Proofs.Tiling

/-!
# The grammar of sheets

Which runs of tokens make which items, as relations beside the functions that read them.  Every
function is described once: it takes a run of tokens from the front, and what it gives is a form
of that run.  What holds of all items of a kind is read off the forms and not off the functions.
-/

namespace LiveSheet

namespace Item

/-- The kinds of leaves that cover tokens with others among them that stand aside. -/
def coverKinds : List ItemKind := [.value, .selector, .propertyName, .unknown]

/-- The kinds of nodes other than blocks. -/
def nodeKinds : List ItemKind :=
  [.variableDeclaration, .propertyDeclaration, .ruleBlock, .atRule, .unknown]

theorem ne_of_mem_coverKinds {kind : ItemKind} (h : kind ∈ coverKinds) :
    kind ≠ .block ∧ kind ≠ .arguments ∧ kind ≠ .flag := by
  refine ⟨?_, ?_, ?_⟩ <;> rintro rfl <;> exact absurd h (by decide)

theorem ne_of_mem_nodeKinds {kind : ItemKind} (h : kind ∈ nodeKinds) :
    kind ≠ .block ∧ kind ≠ .arguments := by
  refine ⟨?_, ?_⟩ <;> rintro rfl <;> exact absurd h (by decide)

end Item

namespace Grammar

/-- The item, if any, that stands for all that a production has covered. -/
def covering (kind : ItemKind) (covered : Option Span) : List Item :=
  (covered.map (Item.leaf kind)).toList

/-- A token that is an item of its own among those that one leaf covers: a comment, and in a
value a flag. -/
inductive Aside (kind : ItemKind) (t : Token) : Item → Prop
  | comment {i : Item} : t.comment? = some i → Aside kind t i
  | flag : kind = .value → t.kind = .flag → Aside kind t (t.leaf .flag)

/-- A run of tokens, the items among them that stand aside, and the span that covers all else. -/
inductive Sifted (kind : ItemKind) : List Token → List Item → Option Span → Prop
  | nil : Sifted kind [] [] none
  | aside {run : List Token} {asides : List Item} {covered : Option Span} {t : Token} {i : Item} :
      Sifted kind run asides covered → Aside kind t i →
      Sifted kind (run ++ [t]) (asides ++ [i]) covered
  | cover {run : List Token} {asides : List Item} {covered : Option Span} {t : Token} :
      Sifted kind run asides covered → t.comment? = none →
      Sifted kind (run ++ [t]) asides (extend covered t)

/-- A value with the semicolon after it, if there is one. -/
inductive ValueForm : List Token → List Item → Prop
  | unmarked {run : List Token} {asides : List Item} {covered : Option Span} :
      Sifted .value run asides covered → ValueForm run (asides ++ covering .value covered)
  | marked {run : List Token} {asides : List Item} {covered : Option Span} {mark : Token} :
      Sifted .value run asides covered → mark.kind = .semicolon →
      ValueForm (run ++ [mark]) (asides ++ covering .value covered ++ [mark.leaf .punctuation])

/-- Each closing parenthesis closes one of the `depth` or of those that the tokens open, and none
is left open. -/
def ParensClosed (depth : Nat) : List Token → Prop
  | [] => depth = 0
  | t :: rest =>
    (t.kind = .closeParen → 0 < depth) ∧ ParensClosed (depthAfter depth t.kind) rest

/-- The name behind the keyword of a named at-rule, and the argument list behind the name. -/
inductive SignatureForm (keyword : Token) : List Token → List Item → Prop
  | anonymous : SignatureForm keyword [] []
  | named {name : Token} : namesCallable keyword.lexeme = true → name.kind = .identifier →
      SignatureForm keyword [name] [name.leaf .identifier]
  | callable {name opening closing : Token} {inner : List Token} {arguments : Span} :
      namesCallable keyword.lexeme = true → name.kind = .identifier →
      opening.kind = .openParen → closing.kind = .closeParen → ParensClosed 0 inner →
      Span.coverAll ((opening :: (inner ++ [closing])).map Token.span) = some arguments →
      SignatureForm keyword (name :: opening :: (inner ++ [closing]))
        [name.leaf .identifier, .leaf .arguments arguments]

/-- What stands in front of the block of an item. -/
inductive HeadForm : ItemKind → List Token → List Item → Prop
  | atRule {keyword : Token} {named run : List Token} {signature asides : List Item}
      {covered : Option Span} :
      keyword.kind = .atKeyword → SignatureForm keyword named signature →
      Sifted .value run asides covered →
      HeadForm .atRule (keyword :: (named ++ run))
        (keyword.leaf .atKeyword :: signature ++ asides ++ covering .value covered)
  | rule {run : List Token} {asides : List Item} {covered : Option Span} :
      Sifted .selector run asides covered →
      HeadForm .ruleBlock run (asides ++ covering .selector covered)

/-- The items without a block. -/
inductive ItemForm : List Token → Item → Prop
  | comment {t : Token} {i : Item} : t.comment? = some i → ItemForm [t] i
  | mark {t : Token} : t.kind = .semicolon → ItemForm [t] (t.leaf .punctuation)
  | variableDeclaration {name colon : Token} {run : List Token} {items : List Item} :
      name.kind = .variable → colon.kind = .colon → ValueForm run items →
      ItemForm (name :: colon :: run) (.gather .variableDeclaration
        (name.leaf .variableName :: colon.leaf .punctuation :: items))
  | propertyDeclaration {run after : List Token} {asides items : List Item} {name : Span}
      {colon : Token} :
      Sifted .propertyName run asides (some name) → colon.kind = .colon → ValueForm after items →
      ItemForm (run ++ colon :: after) (.gather .propertyDeclaration
        (asides ++ [.leaf .propertyName name] ++ [colon.leaf .punctuation] ++ items))
  | atRule {run : List Token} {head : List Item} :
      HeadForm .atRule run head → ItemForm run (.gather .atRule head)
  | markedAtRule {run : List Token} {head : List Item} {mark : Token} :
      HeadForm .atRule run head → mark.kind = .semicolon →
      ItemForm (run ++ [mark]) (.gather .atRule (head ++ [mark.leaf .punctuation]))
  | unknown {run : List Token} {covered : Span} :
      Sifted .unknown run [] (some covered) → ItemForm run (.leaf .unknown covered)
  | remarkedUnknown {run : List Token} {asides : List Item} {covered : Span} :
      Sifted .unknown run asides (some covered) →
      ItemForm run (.gather .unknown (asides ++ [.leaf .unknown covered]))

/-- The items of a sheet or of a block. -/
inductive SheetForm : List Token → List Item → Prop
  | nil : SheetForm [] []
  | item {done run : List Token} {items : List Item} {i : Item} :
      SheetForm done items → ItemForm run i → SheetForm (done ++ run) (items ++ [i])
  | block {done run inner : List Token} {items head children : List Item} {kind : ItemKind}
      {brace close : Token} :
      SheetForm done items → HeadForm kind run head → brace.kind = .openBrace →
      close.kind = .closeBrace → SheetForm inner children →
      SheetForm (done ++ (run ++ brace :: (inner ++ [close]))) (items ++ [.gather kind
        (head ++ [.node .block (brace.span.cover close.span) children])])

variable {ts rest run : List Token} {items asides : List Item} {t : Token} {i : Item}
  {kind : ItemKind} {covered : Option Span} {depth : Nat} {comments : List Item}

theorem coverAll_extend (covered : Option Span) (t : Token) :
    extend covered t = covered.merge Span.cover (some t.span) := by
  cases covered <;> rfl

/-! ## Preludes -/

theorem preludeFrom_sifted (h : Sifted kind run comments.reverse covered) :
    let p := preludeFrom depth comments covered ts
    ∃ more, ts = more ++ p.rest ∧ Sifted kind (run ++ more) p.comments p.covered := by
  fun_induction preludeFrom depth comments covered ts generalizing run with
  | case1 => exact ⟨[], rfl, (List.append_nil run).symm ▸ h⟩
  | case2 => exact ⟨[], rfl, (List.append_nil run).symm ▸ h⟩
  | case3 depth comments covered t rest _ comment hcomment ih =>
    have haside : Sifted kind (run ++ [t]) (comment :: comments).reverse covered := by
      rw [List.reverse_cons]
      exact h.aside (.comment hcomment)
    obtain ⟨more, hmore, hsifted⟩ := ih haside
    rw [List.append_assoc] at hsifted
    exact ⟨t :: more, congrArg (t :: ·) hmore, hsifted⟩
  | case4 depth comments covered t rest _ hcomment ih =>
    obtain ⟨more, hmore, hsifted⟩ := ih (h.cover hcomment)
    rw [List.append_assoc] at hsifted
    exact ⟨t :: more, congrArg (t :: ·) hmore, hsifted⟩

theorem preludeFrom_covered_isSome (h : covered.isSome) :
    (preludeFrom depth comments covered ts).covered.isSome := by
  fun_induction preludeFrom depth comments covered ts with
  | case1 => exact h
  | case2 => exact h
  | case3 _ _ _ _ _ _ _ _ ih => exact ih h
  | case4 _ _ _ _ _ _ _ ih => exact ih rfl

theorem prelude_sifted (kind : ItemKind) (ts : List Token) :
    ∃ run, ts = run ++ (prelude ts).rest ∧
      Sifted kind run (prelude ts).comments (prelude ts).covered := by
  have hnil : Sifted kind [] ([] : List Item).reverse none := .nil
  exact preludeFrom_sifted hnil

/-- A prelude ends where the tokens end, or at a token that is its terminator. -/
theorem preludeFrom_rest (depth : Nat) (comments : List Item) (covered : Option Span)
    (ts : List Token) :
    let p := preludeFrom depth comments covered ts
    p.rest = [] ∧ p.terminator = .endOfInput ∨
      ∃ d t rest, p.rest = t :: rest ∧ Terminator.of? d t.kind = some p.terminator := by
  fun_induction preludeFrom depth comments covered ts with
  | case1 => exact .inl ⟨rfl, rfl⟩
  | case2 depth _ _ t rest terminator hterminator =>
    exact .inr ⟨depth, t, rest, rfl, hterminator⟩
  | case3 _ _ _ _ _ _ _ _ ih => exact ih
  | case4 _ _ _ _ _ _ _ ih => exact ih

theorem Terminator.of?_eq_block {kind : TokenKind} (h : Terminator.of? depth kind = some block) :
    kind = .openBrace := by
  cases kind <;> simp [Terminator.of?] at h ⊢

theorem Terminator.of?_eq_semicolon {kind : TokenKind}
    (h : Terminator.of? depth kind = some semicolon) : kind = .semicolon := by
  cases kind <;> simp [Terminator.of?] at h ⊢

/-- A token that begins a statement ends no prelude, unless it opens a block. -/
theorem Terminator.of?_eq_none {kind : TokenKind} (hclose : kind ≠ .closeBrace)
    (hmark : kind ≠ .semicolon) (hopen : kind ≠ .openBrace) : of? depth kind = none := by
  unfold of?
  split
  · exact absurd rfl hopen
  · exact absurd rfl hmark
  · exact absurd rfl hclose
  · rfl

theorem prelude_rest {stop : Token} (hrest : (prelude ts).rest = stop :: rest) :
    ∃ d, Terminator.of? d stop.kind = some (prelude ts).terminator := by
  rcases preludeFrom_rest 0 [] none ts with ⟨hnil, -⟩ | ⟨d, t, rest', hcons, hof⟩
  · exact absurd (hrest.symm.trans hnil) (List.cons_ne_nil _ _)
  · have hhead : stop = t := (List.cons.inj (hrest.symm.trans hcons)).1
    exact ⟨d, hhead ▸ hof⟩

theorem prelude_brace {brace : Token} (h : (prelude ts).terminator = .block)
    (hrest : (prelude ts).rest = brace :: rest) : brace.kind = .openBrace := by
  obtain ⟨d, hof⟩ := prelude_rest hrest
  exact Terminator.of?_eq_block (hof.trans (congrArg some h))

theorem prelude_mark {mark : Token} (h : (prelude ts).terminator = .semicolon)
    (hrest : (prelude ts).rest = mark :: rest) : mark.kind = .semicolon := by
  obtain ⟨d, hof⟩ := prelude_rest hrest
  exact Terminator.of?_eq_semicolon (hof.trans (congrArg some h))

/-! ## Values and signatures -/

theorem value_finish_form {parts : List Item} (h : Sifted .value run parts.reverse covered) :
    ∃ more, ts = more ++ (Value.finish parts covered ts).rest ∧
      ValueForm (run ++ more) (Value.finish parts covered ts).children := by
  cases ts with
  | nil => exact ⟨[], rfl, (List.append_nil run).symm ▸ .unmarked h⟩
  | cons t rest =>
    by_cases hmark : t.kind = .semicolon
    · rw [Value.finish, if_pos hmark]
      exact ⟨[t], rfl, .marked h hmark⟩
    · rw [Value.finish, if_neg hmark]
      exact ⟨[], rfl, (List.append_nil run).symm ▸ .unmarked h⟩

theorem valueFrom_form {parts : List Item} {v : Value}
    (hv : valueFrom depth parts covered ts = .ok v) (h : Sifted .value run parts.reverse covered) :
    ∃ more, ts = more ++ v.rest ∧ ValueForm (run ++ more) v.children := by
  fun_induction valueFrom depth parts covered ts generalizing run with
  | case1 => cases hv
  | case2 =>
    cases hv
    exact value_finish_form h
  | case3 =>
    cases hv
    exact value_finish_form h
  | case4 depth parts covered t rest _ comment hcomment ih =>
    have haside : Sifted .value (run ++ [t]) (comment :: parts).reverse covered := by
      rw [List.reverse_cons]
      exact h.aside (.comment hcomment)
    obtain ⟨more, hmore, hform⟩ := ih hv haside
    rw [List.append_assoc] at hform
    exact ⟨t :: more, congrArg (t :: ·) hmore, hform⟩
  | case5 depth parts covered t rest _ _ hflag ih =>
    have haside : Sifted .value (run ++ [t]) (t.leaf .flag :: parts).reverse covered := by
      rw [List.reverse_cons]
      exact h.aside (.flag rfl hflag.1)
    obtain ⟨more, hmore, hform⟩ := ih hv haside
    rw [List.append_assoc] at hform
    exact ⟨t :: more, congrArg (t :: ·) hmore, hform⟩
  | case6 depth parts covered t rest _ hcomment _ ih =>
    obtain ⟨more, hmore, hform⟩ := ih hv (h.cover hcomment)
    rw [List.append_assoc] at hform
    exact ⟨t :: more, congrArg (t :: ·) hmore, hform⟩

theorem value_form {v : Value} (hv : value ts = .ok v) :
    ∃ run, ts = run ++ v.rest ∧ ValueForm run v.children :=
  valueFrom_form hv .nil

theorem parenthesesFrom_form {opened : Nat} {span : Span} {result : Span × List Token}
    (hr : parenthesesFrom opened depth span ts = .ok result) :
    ∃ inner closing, ts = inner ++ closing :: result.2 ∧ closing.kind = .closeParen ∧
      ParensClosed depth inner ∧
      Span.coverAll (span :: (inner ++ [closing]).map Token.span) = some result.1 := by
  fun_induction parenthesesFrom opened depth span ts with
  | case1 => cases hr
  | case2 depth span t rest hopen ih =>
    obtain ⟨inner, closing, hrest, hkind, hclosed, hcover⟩ := ih hr
    refine ⟨t :: inner, closing, congrArg (t :: ·) hrest, hkind, ⟨?_, ?_⟩, hcover⟩
    · intro hclose
      cases hopen.symm.trans hclose
    · rw [hopen]
      exact hclosed
  | case3 span t rest hclose =>
    cases hr
    exact ⟨[], t, rfl, hclose, rfl, rfl⟩
  | case4 span t rest outer hclose ih =>
    obtain ⟨inner, closing, hrest, hkind, hclosed, hcover⟩ := ih hr
    refine ⟨t :: inner, closing, congrArg (t :: ·) hrest, hkind, ⟨fun _ => outer.succ_pos, ?_⟩,
      hcover⟩
    rw [hclose]
    exact hclosed
  | case5 depth span t rest hopen hinner houter ih =>
    obtain ⟨inner, closing, hrest, hkind, hclosed, hcover⟩ := ih hr
    have hclose : t.kind ≠ .closeParen := by
      intro hclose
      cases depth with
      | zero => exact hinner hclose rfl
      | succ outer => exact houter outer hclose rfl
    refine ⟨t :: inner, closing, congrArg (t :: ·) hrest, hkind,
      ⟨fun h => absurd h hclose, ?_⟩, hcover⟩
    rw [depthAfter_other hopen hclose]
    exact hclosed

theorem signature_form {keyword : Token} {result : List Item × List Token}
    (hcallable : namesCallable keyword.lexeme = true) (hr : signature ts = .ok result) :
    ∃ run, ts = run ++ result.2 ∧ SignatureForm keyword run result.1 := by
  unfold signature at hr
  split at hr
  · rename_i name after
    by_cases hname : name.kind = .identifier
    · rw [if_pos hname] at hr
      split at hr
      · rename_i paren inner
        by_cases hparen : paren.kind = .openParen
        · rw [if_pos hparen] at hr
          cases hp : parenthesesFrom paren.start 0 paren.span inner with
          | error e => rw [hp] at hr; cases hr
          | ok taken =>
            rw [hp] at hr
            cases hr
            obtain ⟨run, closing, hrest, hclose, hclosed, hcover⟩ := parenthesesFrom_form hp
            refine ⟨name :: paren :: (run ++ [closing]), ?_,
              .callable hcallable hname hparen hclose hclosed hcover⟩
            rw [hrest]
            simp
        · rw [if_neg hparen] at hr
          cases hr
          exact ⟨[name], rfl, .named hcallable hname⟩
      · cases hr
        exact ⟨[name], rfl, .named hcallable hname⟩
    · rw [if_neg hname] at hr
      cases hr
      exact ⟨[], rfl, .anonymous⟩
  · cases hr
    exact ⟨[], rfl, .anonymous⟩

/-! ## Look-ahead -/

/-- How many parentheses are open behind a run of tokens in which no prelude ends. -/
def depthThrough (depth : Nat) : List Token → Option Nat
  | [] => some depth
  | t :: rest =>
    match Terminator.of? depth t.kind with
    | some _ => none
    | none => depthThrough (depthAfter depth t.kind) rest

/-- A colon that a look-ahead has found stands outside parentheses, and no prelude ends
before it. -/
theorem lookaheadFrom_colon {n k : Nat} {colon : Option Nat}
    (h : (lookaheadFrom depth n colon ts).colon = some k) :
    colon = some k ∨ ∃ run c after, ts = run ++ c :: after ∧ k = n + run.length ∧
      c.kind = .colon ∧ depthThrough depth run = some 0 := by
  fun_induction lookaheadFrom depth n colon ts with
  | case1 => exact .inl h
  | case2 => exact .inl h
  | case3 depth n colon t rest hterminator here ih =>
    rcases ih h with hhere | ⟨run, c, after, rfl, hk, hc, hdepth⟩
    · by_cases hcolon : t.kind = .colon ∧ depth = 0
      · have hor : colon.or (some n) = some k := (if_pos hcolon).symm.trans hhere
        cases colon with
        | some m => exact .inl hor
        | none =>
          cases hor
          exact .inr ⟨[], t, rest, rfl, rfl, hcolon.1, by rw [depthThrough, hcolon.2]⟩
      · exact .inl ((if_neg hcolon).symm.trans hhere)
    · refine .inr ⟨t :: run, c, after, rfl, ?_, hc, ?_⟩
      · rw [hk, List.length_cons]
        omega
      · rw [depthThrough, hterminator]
        exact hdepth

theorem lookahead_colon {k : Nat} (h : (lookahead ts).colon = some k) :
    ∃ c after, ts.drop k = c :: after ∧ c.kind = .colon ∧
      depthThrough 0 (ts.take k) = some 0 := by
  rcases lookaheadFrom_colon h with hnone | ⟨run, c, after, rfl, hk, hc, hdepth⟩
  · exact nomatch hnone
  · rw [Nat.zero_add] at hk
    subst hk
    rw [List.take_left, List.drop_left]
    exact ⟨c, after, rfl, hc, hdepth⟩

/-! ## Statements -/

/-- What a statement makes of the tokens that it begins with.  The brace that opens the block of
an item is taken with its head. -/
def Statement.Formed (ts : List Token) : Statement → Prop
  | .item i rest => ∃ run, ts = run ++ rest ∧ ItemForm run i
  | .header kind head brace rest =>
    ∃ run, ts = run ++ brace :: rest ∧ HeadForm kind run head ∧ brace.kind = .openBrace

theorem Sifted.covered_isSome (h : Sifted kind run asides covered) (hkind : kind ≠ .value)
    (ht : t ∈ run) (hcomment : t.comment? = none) : covered.isSome := by
  induction h with
  | nil => exact absurd ht List.not_mem_nil
  | @aside run _ _ u _ _ haside ih =>
    rcases List.mem_append.1 ht with ht | ht
    · exact ih ht
    · rw [List.mem_singleton.1 ht] at hcomment
      cases haside with
      | comment h => exact nomatch hcomment.symm.trans h
      | flag hvalue => exact absurd hvalue hkind
  | cover => rfl

theorem atRuleTail_formed {keyword : Token} {named : List Token} {signature : List Item}
    (hkeyword : keyword.kind = .atKeyword) (hnamed : SignatureForm keyword named signature) :
    (atRuleTail (keyword.leaf .atKeyword :: signature) ts).Formed (keyword :: (named ++ ts)) := by
  obtain ⟨run, hrun, hsifted⟩ := prelude_sifted .value ts
  have hhead := HeadForm.atRule hkeyword hnamed hsifted
  have hsplit : ∀ {left}, ts = run ++ left →
      keyword :: (named ++ ts) = keyword :: (named ++ run) ++ left := by
    rintro left rfl
    simp
  unfold atRuleTail
  dsimp only
  split
  · rename_i hterminator hrest
    rw [hrest] at hrun
    exact ⟨_, hsplit hrun, hhead, prelude_brace hterminator hrest⟩
  · rename_i hterminator hrest
    rw [hrest] at hrun
    refine ⟨_, ?_, .markedAtRule hhead (prelude_mark hterminator hrest)⟩
    rw [hsplit hrun, List.append_assoc]
    rfl
  · exact ⟨_, hsplit hrun, .atRule hhead⟩

theorem atRule_formed {keyword : Token} {s : Statement} (hkeyword : keyword.kind = .atKeyword)
    (hs : atRule keyword ts = .ok s) : s.Formed (keyword :: ts) := by
  unfold atRule at hs
  split at hs
  · rename_i hcallable
    cases hsignature : signature ts with
    | error e => rw [hsignature] at hs; exact nomatch hs
    | ok named =>
      rw [hsignature] at hs
      cases hs
      obtain ⟨run, hrun, hform⟩ := signature_form hcallable hsignature
      rw [hrun]
      exact atRuleTail_formed hkeyword hform
  · cases hs
    exact atRuleTail_formed hkeyword .anonymous

theorem unknown_formed {p : Prelude} (hts : ts = run ++ p.rest)
    (hterminator : p.terminator = .semicolon → ∀ mark rest, p.rest = mark :: rest →
      mark.kind = .semicolon)
    (h : Sifted .unknown run p.comments p.covered) (hcovered : p.covered.isSome) :
    (unknown p).Formed ts := by
  unfold unknown
  split
  rename_i covered rest heq
  have hform : covered.isSome ∧ ∃ run', ts = run' ++ rest ∧
      Sifted .unknown run' p.comments covered := by
    split at heq
    · rename_i mark _ hsemicolon hrest
      cases heq
      have hmark := hterminator hsemicolon _ _ hrest
      have hcomment : mark.comment? = none := by simp [Token.comment?, hmark]
      refine ⟨rfl, run ++ [mark], ?_, h.cover hcomment⟩
      rw [hts, hrest, List.append_assoc]
      rfl
    · cases heq
      exact ⟨hcovered, run, hts, h⟩
  obtain ⟨hsome, run', hrun', hsifted⟩ := hform
  obtain ⟨span, rfl⟩ := Option.isSome_iff_exists.1 hsome
  dsimp only
  split
  · rename_i hnil
    rw [hnil] at hsifted
    exact ⟨run', hrun', .unknown hsifted⟩
  · exact ⟨run', hrun', .remarkedUnknown hsifted⟩

theorem rule_formed (hcomment : t.comment? = none) (hclose : t.kind ≠ .closeBrace)
    (hmark : t.kind ≠ .semicolon) (rest : List Token) :
    (rule (t :: rest)).Formed (t :: rest) := by
  unfold rule
  dsimp only
  split
  · rename_i hterminator hrest
    obtain ⟨run, hrun, hsifted⟩ := prelude_sifted .selector (t :: rest)
    exact ⟨run, hrest ▸ hrun, .rule hsifted, prelude_brace hterminator hrest⟩
  · rename_i hno
    obtain ⟨run, hrun, hsifted⟩ := prelude_sifted .unknown (t :: rest)
    -- at an open brace the prelude is empty, and the first case applies
    have hopen : t.kind ≠ .openBrace := by
      intro hopen
      have hp : prelude (t :: rest) = ⟨[], none, .block, t :: rest⟩ := by
        simp [prelude, preludeFrom, Terminator.of?, hopen]
      exact hno t rest (by rw [hp]) (by rw [hp])
    have ht : t ∈ run := by
      cases run with
      | nil =>
        obtain ⟨d, hof⟩ := prelude_rest hrun.symm
        cases hof.symm.trans (Terminator.of?_eq_none hclose hmark hopen)
      | cons u run => exact (List.cons.inj hrun).1 ▸ List.mem_cons_self
    refine unknown_formed hrun (fun h mark rest hrest => prelude_mark h hrest) hsifted ?_
    exact hsifted.covered_isSome (by decide) ht hcomment

theorem Sifted.append_separate (h : Sifted kind run asides covered) (more : List Token) :
    Sifted kind (run ++ more) (asides ++ (separate more).1)
      (covered.merge Span.cover (separate more).2) := by
  induction more generalizing run asides covered with
  | nil => simpa [separate, Span.coverAll] using h
  | cons t more ih =>
    cases hcomment : t.comment? with
    | some i =>
      have hrest := ih (h.aside (.comment hcomment))
      rw [List.append_assoc, List.append_assoc] at hrest
      simpa [separate, hcomment] using hrest
    | none =>
      have hassoc : (covered.merge Span.cover (some t.span)).merge Span.cover (separate more).2 =
          covered.merge Span.cover ((some t.span).merge Span.cover (separate more).2) :=
        Std.Associative.assoc _ _ _
      have hrest := ih (h.cover hcomment)
      rw [List.append_assoc, coverAll_extend, hassoc] at hrest
      simpa [separate, hcomment, Span.coverAll_cons] using hrest

theorem separate_sifted (kind : ItemKind) (run : List Token) :
    Sifted kind run (separate run).1 (separate run).2 := by
  have hnil : Sifted kind [] [] none := .nil
  simpa using hnil.append_separate run

theorem propertyDeclaration_formed {name after : List Token} {colon : Token} {s : Statement}
    (ht : t ∈ name) (hcomment : t.comment? = none) (hcolon : colon.kind = .colon)
    (hs : propertyDeclaration name (colon :: after) = .ok s) :
    s.Formed (name ++ colon :: after) := by
  have hsifted := separate_sifted .propertyName name
  obtain ⟨span, hspan⟩ := Option.isSome_iff_exists.1
    (hsifted.covered_isSome (by decide) ht hcomment)
  unfold propertyDeclaration at hs
  cases hv : value after with
  | error e => simp only [hv] at hs; exact nomatch hs
  | ok v =>
    simp only [hv, hspan] at hs
    rw [hspan] at hsifted
    cases hs
    obtain ⟨run, hrun, hform⟩ := value_form hv
    refine ⟨name ++ colon :: run, ?_, .propertyDeclaration hsifted hcolon hform⟩
    rw [hrun, List.append_assoc]
    rfl

theorem ruleOrDeclaration_formed (hcomment : t.comment? = none) (hclose : t.kind ≠ .closeBrace)
    (hmark : t.kind ≠ .semicolon) {s : Statement}
    (hs : ruleOrDeclaration (t :: rest) = .ok s) : s.Formed (t :: rest) := by
  unfold ruleOrDeclaration at hs
  dsimp only at hs
  split at hs
  · rename_i n hcolon
    split at hs
    · cases hs
      exact rule_formed hcomment hclose hmark rest
    · obtain ⟨c, after, hdrop, hc, -⟩ := lookahead_colon hcolon
      rw [hdrop] at hs
      rw [← List.take_append_drop (n + 1) (t :: rest), hdrop]
      have ht : t ∈ (t :: rest).take (n + 1) := by
        rw [List.take_succ_cons]
        exact List.mem_cons_self
      exact propertyDeclaration_formed ht hcomment hc hs
  · cases hs
    exact rule_formed hcomment hclose hmark rest

theorem variableDeclaration_formed {name colon : Token} {s : Statement}
    (hname : name.kind = .variable) (hcolon : colon.kind = .colon)
    (hs : variableDeclaration name colon ts = .ok s) : s.Formed (name :: colon :: ts) := by
  unfold variableDeclaration at hs
  cases hv : value ts with
  | error e => rw [hv] at hs; exact nomatch hs
  | ok v =>
    rw [hv] at hs
    cases hs
    obtain ⟨run, hrun, hform⟩ := value_form hv
    exact ⟨name :: colon :: run, congrArg (name :: colon :: ·) hrun,
      .variableDeclaration hname hcolon hform⟩

theorem statement_formed (hcomment : t.comment? = none) (hclose : t.kind ≠ .closeBrace)
    (hmark : t.kind ≠ .semicolon) {s : Statement} (hs : statement t rest = .ok s) :
    s.Formed (t :: rest) := by
  unfold statement at hs
  split at hs
  · rename_i hkeyword
    exact atRule_formed hkeyword hs
  · rename_i hname
    split at hs
    · rename_i hcolon
      exact variableDeclaration_formed hname hcolon hs
    · exact ruleOrDeclaration_formed hcomment hclose hmark hs
  · exact ruleOrDeclaration_formed hcomment hclose hmark hs

/-! ## Properties of runs and their items -/

theorem Aside.comment_or_flag (h : Aside kind t i) :
    t.comment? = some i ∨ kind = .value ∧ i = t.leaf .flag := by
  cases h with
  | comment hcomment => exact .inl hcomment
  | flag hvalue _ => exact .inr ⟨hvalue, rfl⟩

/-- Every aside has no kind, unless it is a flag in a value. -/
theorem Sifted.kind_of_aside (h : Sifted kind run asides covered) :
    ∀ i ∈ asides, i.kind? = none ∨ kind = .value ∧ i.kind? = some .flag := by
  induction h with
  | nil => exact List.forall_mem_nil _
  | cover _ _ ih => exact ih
  | aside _ haside ih =>
    refine List.forall_mem_append.2 ⟨ih, fun i hi => ?_⟩
    rw [List.mem_singleton.1 hi]
    rcases haside.comment_or_flag with hcomment | ⟨hvalue, rfl⟩
    · unfold Token.comment? at hcomment
      split at hcomment <;> cases hcomment <;> exact .inl rfl
    · exact .inr ⟨hvalue, rfl⟩

theorem HeadForm.ne_nil (h : HeadForm .atRule run items) : items ≠ [] := by
  cases h
  exact List.cons_ne_nil _ _

theorem HeadForm.kind_mem (h : HeadForm kind run items) : kind ∈ Item.nodeKinds := by
  cases h <;> decide

/-- A property of runs of tokens and of the items read from them, which is kept in all the ways
in which items without blocks are put together. -/
structure Compositional (P : List Token → List Item → Prop) : Prop where
  nil : P [] []
  append {run run' : List Token} {items items' : List Item} :
    P run items → P run' items' → P (run ++ run') (items ++ items')
  perm {run : List Token} {items items' : List Item} :
    P run items → items'.Perm items → P run items'
  comment {t : Token} {i : Item} : t.comment? = some i → P [t] [i]
  token {t : Token} {kind : ItemKind} : kind ≠ .block → kind ≠ .arguments → P [t] [t.leaf kind]
  widen {run : List Token} {asides : List Item} {t : Token} {kind : ItemKind} {s : Span} :
    P run (asides ++ [.leaf kind s]) → kind ∈ Item.coverKinds →
    (∀ i ∈ asides, i.kind? = none ∨ kind = .value ∧ i.kind? = some .flag) →
    P (run ++ [t]) (asides ++ [.leaf kind (s.cover t.span)])
  callable {name opening closing : Token} {inner : List Token} {arguments : Span} :
    name.kind = .identifier → opening.kind = .openParen → closing.kind = .closeParen →
    Span.coverAll ((opening :: (inner ++ [closing])).map Token.span) = some arguments →
    P (name :: opening :: (inner ++ [closing]))
      [name.leaf .identifier, .leaf .arguments arguments]
  gather {run : List Token} {items : List Item} {kind : ItemKind} :
    P run items → items ≠ [] → kind ∈ Item.nodeKinds → P run [.gather kind items]

namespace Compositional

variable {P : List Token → List Item → Prop}

theorem aside (hP : Compositional P) (h : Aside kind t i) : P [t] [i] := by
  rcases h.comment_or_flag with hcomment | ⟨-, rfl⟩
  · exact hP.comment hcomment
  · exact hP.token (by decide) (by decide)

theorem sifted (hP : Compositional P) (h : Sifted kind run asides covered)
    (hkind : kind ∈ Item.coverKinds) : P run (asides ++ covering kind covered) := by
  induction h with
  | nil => exact hP.nil
  | @aside run asides covered t i _ haside ih =>
    refine hP.perm (hP.append ih (hP.aside haside)) ?_
    rw [List.append_assoc, List.append_assoc]
    exact List.perm_append_comm.append_left _
  | @cover run asides covered t hsifted _ ih =>
    cases covered with
    | none =>
      have hfront : P run asides := by simpa [covering] using ih
      obtain ⟨hblock, harguments, -⟩ := Item.ne_of_mem_coverKinds hkind
      exact hP.append hfront (hP.token hblock harguments)
    | some s => exact hP.widen ih hkind hsifted.kind_of_aside

theorem value (hP : Compositional P) (h : ValueForm run items) : P run items := by
  cases h with
  | unmarked hsifted => exact hP.sifted hsifted (by decide)
  | marked hsifted _ =>
    exact hP.append (hP.sifted hsifted (by decide)) (hP.token (by decide) (by decide))

theorem signature (hP : Compositional P) {keyword : Token} (h : SignatureForm keyword run items) :
    P run items := by
  cases h with
  | anonymous => exact hP.nil
  | named => exact hP.token (by decide) (by decide)
  | callable _ hname hopening hclosing _ hcover =>
    exact hP.callable hname hopening hclosing hcover

theorem head (hP : Compositional P) (h : HeadForm kind run items) : P run items := by
  cases h with
  | @atRule keyword named run signature asides covered _ hsignature hsifted =>
    have htail := hP.append (hP.signature hsignature) (hP.sifted hsifted (by decide))
    rw [List.cons_append, List.cons_append, List.append_assoc]
    exact hP.append (hP.token (by decide) (by decide)) htail
  | rule hsifted => exact hP.sifted hsifted (by decide)

theorem item (hP : Compositional P) (h : ItemForm run i) : P run [i] := by
  cases h with
  | comment hcomment => exact hP.comment hcomment
  | mark => exact hP.token (by decide) (by decide)
  | @variableDeclaration name colon run items _ _ hvalue =>
    have hcolon : P [colon] [colon.leaf .punctuation] := hP.token (by decide) (by decide)
    have hmarked := hP.append hcolon (hP.value hvalue)
    exact hP.gather (hP.append (hP.token (by decide) (by decide)) hmarked)
      (List.cons_ne_nil _ _) (by decide)
  | @propertyDeclaration run after asides items name colon hsifted _ hvalue =>
    have hcolon : P [colon] [colon.leaf .punctuation] := hP.token (by decide) (by decide)
    have hmarked := hP.append hcolon (hP.value hvalue)
    have hall := hP.append (hP.sifted hsifted (by decide)) hmarked
    rw [← List.append_assoc (_ ++ _)] at hall
    exact hP.gather hall (by simp) (by decide)
  | atRule hhead => exact hP.gather (hP.head hhead) hhead.ne_nil (by decide)
  | markedAtRule hhead _ =>
    exact hP.gather (hP.append (hP.head hhead) (hP.token (by decide) (by decide))) (by simp)
      (by decide)
  | unknown hsifted => exact hP.sifted hsifted (by decide)
  | remarkedUnknown hsifted =>
    refine hP.gather (hP.sifted hsifted (by decide)) ?_ (by decide)
    exact List.append_ne_nil_of_right_ne_nil _ (List.cons_ne_nil _ _)

/-- If what stands between two braces may be put into a block as well, then the property holds
of every sheet. -/
theorem sheet (hP : Compositional P)
    (hblock : ∀ {brace close : Token} {inner : List Token} {children : List Item},
      brace.kind = .openBrace → close.kind = .closeBrace → P inner children →
      P (brace :: (inner ++ [close])) [.node .block (brace.span.cover close.span) children])
    (h : SheetForm run items) : P run items := by
  induction h with
  | nil => exact hP.nil
  | item _ hform ih => exact hP.append ih (hP.item hform)
  | block _ hhead hopen hclose _ ih ihinner =>
    have hitem := hP.append (hP.head hhead) (hblock hopen hclose ihinner)
    exact hP.append ih (hP.gather hitem (by simp) hhead.kind_mem)

end Compositional

end Grammar
end LiveSheet
