import LiveSheet.Proofs.Statements
import LiveSheet.Proofs.Watched
import Mathlib.Data.List.Forall2
import Mathlib.Order.MinMax

/-!
# Moving tokens

What is read from tokens depends on their kinds, their characters and their order.  Where they
stand shows only in the spans of what is read and in the offset of an error: if tokens move and
stay in order, then all of that moves along.
-/

namespace LiveSheet

/-- Where the offsets of a text go.  What starts at an offset and what ends there may go to
different places, but nothing changes its order. -/
structure Move where
  start : Nat → Nat
  stop : Nat → Nat
  start_strictMono : StrictMono start
  stop_mono : Monotone stop

variable {m : Move}

namespace Span

structure Moves (m : Move) (s s' : Span) : Prop where
  start : s'.start = m.start s.start
  stop : s'.stop = m.stop s.stop

theorem Moves.cover {s s' u u' : Span} (hs : s.Moves m s') (hu : u.Moves m u') :
    (s.cover u).Moves m (s'.cover u') := by
  refine ⟨?_, ?_⟩
  · rw [cover_start, cover_start, hs.start, hu.start, m.start_strictMono.monotone.map_min]
  · rw [cover_stop, cover_stop, hs.stop, hu.stop, m.stop_mono.map_max]

theorem coverAll_moves {spans spans' : List Span} (h : List.Forall₂ (Moves m) spans spans') :
    Option.Rel (Moves m) (coverAll spans) (coverAll spans') := by
  cases h with
  | nil => exact .none
  | cons hs hrest => exact .some (List.rel_foldl (fun _ _ hs _ _ hu => hs.cover hu) hs hrest)

theorem exists_coverAll_moves {spans spans' : List Span}
    (h : List.Forall₂ (Moves m) spans spans') (hne : spans ≠ []) :
    ∃ s s', coverAll spans = some s ∧ coverAll spans' = some s' ∧ s.Moves m s' := by
  have hcover := coverAll_moves h
  generalize hs : coverAll spans = covered at hcover
  generalize coverAll spans' = covered' at hcover
  cases hcover with
  | none => exact absurd (coverAll_eq_none_iff.1 hs) hne
  | some hmoves => exact ⟨_, _, rfl, rfl, hmoves⟩

end Span

/-- Both results are values that are related, or the same error, which moves along. -/
inductive Agree {α β : Type} (m : Move) (R : α → β → Prop) :
    Except SyntaxError α → Except SyntaxError β → Prop
  | ok {a : α} {b : β} : R a b → Agree m R (.ok a) (.ok b)
  | error (fault : SyntaxFault) (offset : Nat) :
    Agree m R (.error ⟨fault, offset⟩) (.error ⟨fault, m.start offset⟩)

theorem Agree.bind {α β γ δ : Type} {R : α → β → Prop} {S : γ → δ → Prop}
    {x : Except SyntaxError α} {y : Except SyntaxError β} {f : α → Except SyntaxError γ}
    {g : β → Except SyntaxError δ} (h : Agree m R x y)
    (hfg : ∀ a b, R a b → Agree m S (f a) (g b)) : Agree m S (x >>= f) (y >>= g) := by
  cases h with
  | ok hab => exact hfg _ _ hab
  | error fault offset => exact .error fault offset

theorem Agree.mono {α β : Type} {R S : α → β → Prop} {x : Except SyntaxError α}
    {y : Except SyntaxError β} (h : Agree m R x y) (hRS : ∀ a b, R a b → S a b) : Agree m S x y := by
  cases h with
  | ok hab => exact .ok (hRS _ _ hab)
  | error fault offset => exact .error fault offset

namespace Item

/-- The items have the same shape, and the spans in them move. -/
inductive Moves (m : Move) : Item → Item → Prop
  | leaf {kind : ItemKind} {s s' : Span} : s.Moves m s' → Moves m (.leaf kind s) (.leaf kind s')
  | comment {style : CommentStyle} {s s' : Span} :
    s.Moves m s' → Moves m (.comment style s) (.comment style s')
  | node {kind : ItemKind} {s s' : Span} {children children' : List Item} :
    s.Moves m s' → List.Forall₂ (Moves m) children children' →
      Moves m (.node kind s children) (.node kind s' children')

variable {items items' : List Item}

theorem Moves.span {i i' : Item} (h : i.Moves m i') : i.span.Moves m i'.span := by
  cases h with
  | leaf hs => exact hs
  | comment hs => exact hs
  | node hs _ => exact hs

theorem Moves.start_le_iff {i i' j j' : Item} (hi : i.Moves m i') (hj : j.Moves m j') :
    i'.start ≤ j'.start ↔ i.start ≤ j.start := by
  rw [start, start, hi.span.start, hj.span.start, m.start_strictMono.le_iff_le]
  rfl

theorem map_span_moves (h : List.Forall₂ (Moves m) items items') :
    List.Forall₂ (Span.Moves m) (items.map span) (items'.map span) :=
  List.rel_map (fun _ _ hi => hi.span) h

end Item

theorem insertSorted_rel {α : Type} {R : α → α → Prop} {le le' : α → α → Bool} {x x' : α}
    {l l' : List α} (hle : ∀ a a' b b', R a a' → R b b' → le' a' b' = le a b) (hx : R x x')
    (h : List.Forall₂ R l l') :
    List.Forall₂ R (insertSorted le x l) (insertSorted le' x' l') := by
  induction h with
  | nil => exact .cons hx .nil
  | cons hy hrest ih =>
    rw [insertSorted, insertSorted, hle _ _ _ _ hx hy]
    split
    · exact .cons hx (.cons hy hrest)
    · exact .cons hy ih

theorem stableSort_rel {α : Type} {R : α → α → Prop} {le le' : α → α → Bool} {l l' : List α}
    (hle : ∀ a a' b b', R a a' → R b b' → le' a' b' = le a b) (h : List.Forall₂ R l l') :
    List.Forall₂ R (stableSort le l) (stableSort le' l') := by
  induction h with
  | nil => exact .nil
  | cons hx _ ih => exact insertSorted_rel hle hx ih

namespace Item

variable {items items' : List Item}

/-- A node that is gathered over items moves with them.  There must be some, because a node
without children has no place. -/
theorem gather_moves (kind : ItemKind) (h : List.Forall₂ (Moves m) items items')
    (hne : items ≠ []) : (gather kind items).Moves m (gather kind items') := by
  have hsorted : List.Forall₂ (Moves m) (stableSort (fun a b => a.start ≤ b.start) items)
      (stableSort (fun a b => a.start ≤ b.start) items') :=
    stableSort_rel (fun _ _ _ _ ha hb => decide_eq_decide.2 (ha.start_le_iff hb)) h
  obtain ⟨s, s', hs, hs', hmoves⟩ := Span.exists_coverAll_moves (map_span_moves h)
    fun hnil => hne (List.map_eq_nil_iff.1 hnil)
  show (node kind (gather kind items).span _).Moves m (node kind (gather kind items').span _)
  rw [gather_span hs, gather_span hs']
  exact .node hmoves hsorted

end Item

namespace Token

/-- The same token in another place. -/
structure Moves (m : Move) (t t' : Token) : Prop where
  kind : t'.kind = t.kind
  lexeme : t'.lexeme = t.lexeme
  span : t.span.Moves m t'.span

variable {t t' : Token}

theorem Moves.leaf (h : t.Moves m t') (kind : ItemKind) :
    (t.leaf kind).Moves m (t'.leaf kind) :=
  .leaf h.span

theorem Moves.comment? (h : t.Moves m t') : Option.Rel (Item.Moves m) t.comment? t'.comment? := by
  unfold Token.comment?
  rw [h.kind]
  split
  · exact .some (.comment h.span)
  · exact .some (.comment h.span)
  · exact .none

theorem Moves.comment?_isNone (h : t.Moves m t') : t'.comment?.isNone = t.comment?.isNone := by
  unfold Token.comment?
  rw [h.kind]
  split <;> rfl

end Token

namespace Grammar

variable {ts ts' : List Token} {t t' : Token} {depth : Nat} {covered covered' : Option Span}

theorem extend_moves (h : Option.Rel (Span.Moves m) covered covered') (ht : t.Moves m t') :
    Option.Rel (Span.Moves m) (extend covered t) (extend covered' t') := by
  cases h with
  | none => exact .some ht.span
  | some hs => exact .some (hs.cover ht.span)

theorem covering_moves (kind : ItemKind) (h : Option.Rel (Span.Moves m) covered covered') :
    List.Forall₂ (Item.Moves m) (covering kind covered) (covering kind covered') := by
  cases h with
  | none => exact .nil
  | some hs => exact .cons (.leaf hs) .nil

/-! ## Preludes -/

structure Prelude.Moves (m : Move) (p p' : Prelude) : Prop where
  comments : List.Forall₂ (Item.Moves m) p.comments p'.comments
  covered : Option.Rel (Span.Moves m) p.covered p'.covered
  terminator : p'.terminator = p.terminator
  rest : List.Forall₂ (Token.Moves m) p.rest p'.rest

theorem preludeFrom_moves {comments comments' : List Item}
    (hcomments : List.Forall₂ (Item.Moves m) comments comments')
    (hcovered : Option.Rel (Span.Moves m) covered covered')
    (h : List.Forall₂ (Token.Moves m) ts ts') :
    (preludeFrom depth comments covered ts).Moves m (preludeFrom depth comments' covered' ts') := by
  induction h generalizing depth comments comments' covered covered' with
  | nil => exact ⟨List.forall₂_reverse_iff.2 hcomments, hcovered, rfl, .nil⟩
  | @cons t t' rest rest' ht hrest ih =>
    rw [preludeFrom, preludeFrom, ht.kind]
    split
    · exact ⟨List.forall₂_reverse_iff.2 hcomments, hcovered, rfl, .cons ht hrest⟩
    · have hcomment := ht.comment?
      cases hc : t.comment? <;> cases hc' : t'.comment? <;> rw [hc, hc'] at hcomment
      · exact ih hcomments (extend_moves hcovered ht)
      · cases hcomment
      · cases hcomment
      · cases hcomment with
        | some hi => exact ih (.cons hi hcomments) hcovered

theorem prelude_moves (h : List.Forall₂ (Token.Moves m) ts ts') :
    (prelude ts).Moves m (prelude ts') :=
  preludeFrom_moves .nil .none h

theorem lookaheadFrom_moves (h : List.Forall₂ (Token.Moves m) ts ts') (n : Nat)
    (colon : Option Nat) : lookaheadFrom depth n colon ts' = lookaheadFrom depth n colon ts := by
  induction h generalizing depth n colon with
  | nil => rfl
  | cons ht hrest ih =>
    rw [lookaheadFrom, lookaheadFrom, ht.kind]
    split
    · rfl
    · exact ih _ _

/-! ## Values -/

structure Value.Moves (m : Move) (v v' : Value) : Prop where
  children : List.Forall₂ (Item.Moves m) v.children v'.children
  rest : List.Forall₂ (Token.Moves m) v.rest v'.rest

theorem value_finish_moves {parts parts' : List Item}
    (hparts : List.Forall₂ (Item.Moves m) parts parts')
    (hcovered : Option.Rel (Span.Moves m) covered covered')
    (h : List.Forall₂ (Token.Moves m) ts ts') :
    (Value.finish parts covered ts).Moves m (Value.finish parts' covered' ts') := by
  have hchildren : List.Forall₂ (Item.Moves m) (parts.reverse ++ covering .value covered)
      (parts'.reverse ++ covering .value covered') :=
    List.rel_append (List.forall₂_reverse_iff.2 hparts) (covering_moves .value hcovered)
  cases h with
  | nil => exact ⟨hchildren, .nil⟩
  | cons ht hrest =>
    rw [Value.finish, Value.finish, ht.kind]
    split
    · exact ⟨List.rel_append hchildren (.cons (ht.leaf _) .nil), hrest⟩
    · exact ⟨hchildren, .cons ht hrest⟩

/-- A value that ends inside parentheses has covered the first of them. -/
theorem valueFrom_moves {parts parts' : List Item} (hdepth : 0 < depth → covered.isSome)
    (hparts : List.Forall₂ (Item.Moves m) parts parts')
    (hcovered : Option.Rel (Span.Moves m) covered covered')
    (h : List.Forall₂ (Token.Moves m) ts ts') :
    Agree m (Value.Moves m) (valueFrom depth parts covered ts)
      (valueFrom depth parts' covered' ts') := by
  induction h generalizing depth parts parts' covered covered' with
  | nil =>
    rw [valueFrom, valueFrom]
    split
    · rename_i hopen
      cases hcovered with
      | none => exact absurd (hdepth hopen) Bool.false_ne_true
      | @some s s' hs =>
        show Agree m _ (.error ⟨_, s.start⟩) (.error ⟨_, s'.start⟩)
        rw [hs.start]
        exact .error _ _
    · exact .ok (value_finish_moves hparts hcovered .nil)
  | @cons t t' rest rest' ht hrest ih =>
    rw [valueFrom, valueFrom, ht.kind]
    split
    · exact .ok (value_finish_moves hparts hcovered (.cons ht hrest))
    · have hcomment := ht.comment?
      cases hc : t.comment? <;> cases hc' : t'.comment? <;> rw [hc, hc'] at hcomment
      · dsimp only
        split
        · exact ih hdepth (.cons (ht.leaf _) hparts) hcovered
        · exact ih (fun _ => rfl) hparts (extend_moves hcovered ht)
      · cases hcomment
      · cases hcomment
      · cases hcomment with
        | some hi => exact ih hdepth (.cons hi hparts) hcovered

theorem value_moves (h : List.Forall₂ (Token.Moves m) ts ts') :
    Agree m (Value.Moves m) (value ts) (value ts') :=
  valueFrom_moves (fun hopen => absurd hopen (Nat.lt_irrefl 0)) .nil .none h

/-! ## Parentheses and signatures -/

theorem parenthesesFrom_moves {opened opened' : Nat} {s s' : Span}
    (hopened : opened' = m.start opened) (hs : s.Moves m s')
    (h : List.Forall₂ (Token.Moves m) ts ts') :
    Agree m (fun r r' => r.1.Moves m r'.1 ∧ List.Forall₂ (Token.Moves m) r.2 r'.2)
      (parenthesesFrom opened depth s ts) (parenthesesFrom opened' depth s' ts') := by
  induction h generalizing depth s s' with
  | nil =>
    rw [parenthesesFrom, parenthesesFrom, hopened]
    exact .error _ _
  | cons ht hrest ih =>
    have hnext := hs.cover ht.span
    rw [parenthesesFrom.eq_def, parenthesesFrom.eq_def]
    dsimp only
    rw [ht.kind]
    split
    · exact ih hnext
    · exact .ok ⟨hnext, hrest⟩
    · exact ih hnext
    · exact ih hnext

/-- What was taken from the front of some tokens, and the tokens after it, move together. -/
def TakenMoves (m : Move) (r r' : List Item × List Token) : Prop :=
  List.Forall₂ (Item.Moves m) r.1 r'.1 ∧ List.Forall₂ (Token.Moves m) r.2 r'.2

theorem signature_moves (h : List.Forall₂ (Token.Moves m) ts ts') :
    Agree m (TakenMoves m) (signature ts) (signature ts') := by
  cases h with
  | nil => exact .ok ⟨.nil, .nil⟩
  | @cons name name' rest rest' hname hrest =>
    have hleaf : List.Forall₂ (Item.Moves m) [name.leaf .identifier] [name'.leaf .identifier] :=
      .cons (hname.leaf _) .nil
    unfold signature
    dsimp only
    rw [hname.kind]
    split
    · cases hrest with
      | nil => exact .ok ⟨hleaf, .nil⟩
      | cons hparen hinner =>
        dsimp only
        rw [hparen.kind]
        split
        · refine (parenthesesFrom_moves hparen.span.start hparen.span hinner).bind ?_
          rintro ⟨arguments, rest⟩ ⟨arguments', rest'⟩ ⟨harguments, hrest⟩
          exact .ok ⟨.cons (hname.leaf _) (.cons (.leaf harguments) .nil), hrest⟩
        · exact .ok ⟨hleaf, .cons hparen hinner⟩
    · exact .ok ⟨.nil, .cons hname hrest⟩

/-! ## Statements -/

inductive Statement.Moves (m : Move) : Statement → Statement → Prop
  | item {i i' : Item} {rest rest' : List Token} :
    i.Moves m i' → List.Forall₂ (Token.Moves m) rest rest' →
      Moves m (.item i rest) (.item i' rest')
  | header {kind : ItemKind} {head head' : List Item} {brace brace' : Token}
    {rest rest' : List Token} :
    List.Forall₂ (Item.Moves m) head head' → brace.Moves m brace' →
      List.Forall₂ (Token.Moves m) rest rest' →
      Moves m (.header kind head brace rest) (.header kind head' brace' rest')

theorem atRuleTail_moves {head head' : List Item} (hhead : List.Forall₂ (Item.Moves m) head head')
    (hne : head ≠ []) (h : List.Forall₂ (Token.Moves m) ts ts') :
    (atRuleTail head ts).Moves m (atRuleTail head' ts') := by
  obtain ⟨hcomments, hcovered, hterminator, hrest⟩ := prelude_moves h
  have hall : List.Forall₂ (Item.Moves m)
      (head ++ (prelude ts).comments ++ covering .value (prelude ts).covered)
      (head' ++ (prelude ts').comments ++ covering .value (prelude ts').covered) :=
    List.rel_append (List.rel_append hhead hcomments) (covering_moves .value hcovered)
  have hne' : head ++ (prelude ts).comments ++ covering .value (prelude ts).covered ≠ [] := by
    simp [hne]
  unfold atRuleTail
  dsimp only
  rw [hterminator]
  generalize (prelude ts).rest = rest at hrest ⊢
  generalize (prelude ts').rest = rest' at hrest ⊢
  cases hrest with
  | nil =>
    cases (prelude ts).terminator <;> exact .item (Item.gather_moves .atRule hall hne') .nil
  | cons ht hrest =>
    cases (prelude ts).terminator with
    | block => exact .header hall ht hrest
    | semicolon =>
      refine .item (Item.gather_moves .atRule (List.rel_append hall (.cons (ht.leaf _) .nil)) ?_)
        hrest
      exact List.append_ne_nil_of_right_ne_nil _ (List.cons_ne_nil _ _)
    | closeBrace => exact .item (Item.gather_moves .atRule hall hne') (.cons ht hrest)
    | endOfInput => exact .item (Item.gather_moves .atRule hall hne') (.cons ht hrest)

theorem atRule_moves {keyword keyword' : Token} (hkeyword : keyword.Moves m keyword')
    (h : List.Forall₂ (Token.Moves m) ts ts') :
    Agree m (Statement.Moves m) (atRule keyword ts) (atRule keyword' ts') := by
  unfold atRule
  rw [hkeyword.lexeme]
  split
  · refine (signature_moves h).bind ?_
    rintro ⟨named, rest⟩ ⟨named', rest'⟩ ⟨hnamed, hrest⟩
    exact .ok (atRuleTail_moves (.cons (hkeyword.leaf _) hnamed) (List.cons_ne_nil _ _) hrest)
  · exact .ok (atRuleTail_moves (.cons (hkeyword.leaf _) .nil) (List.cons_ne_nil _ _) h)

theorem separate_moves (h : List.Forall₂ (Token.Moves m) ts ts') :
    List.Forall₂ (Item.Moves m) (separate ts).1 (separate ts').1 ∧
      Option.Rel (Span.Moves m) (separate ts).2 (separate ts').2 := by
  refine ⟨List.rel_filterMap (fun _ _ ht => ht.comment?) h, Span.coverAll_moves ?_⟩
  refine List.rel_map (fun _ _ ht => ht.span) (List.rel_filter (fun t t' ht => ?_) h)
  show t.comment?.isNone = true ↔ t'.comment?.isNone = true
  rw [ht.comment?_isNone]

theorem propertyDeclaration_moves {name name' after after' : List Token} {colon colon' : Token}
    (hname : List.Forall₂ (Token.Moves m) name name') (hcolon : colon.Moves m colon')
    (h : List.Forall₂ (Token.Moves m) after after') :
    Agree m (Statement.Moves m) (propertyDeclaration name (colon :: after))
      (propertyDeclaration name' (colon' :: after')) := by
  obtain ⟨hcomments, hcovered⟩ := separate_moves hname
  have hnamed := List.rel_append hcomments (covering_moves .propertyName hcovered)
  unfold propertyDeclaration
  refine (value_moves h).bind ?_
  rintro v v' ⟨hchildren, hrest⟩
  refine .ok (.item (Item.gather_moves .propertyDeclaration ?_ ?_) hrest)
  · exact List.rel_append (List.rel_append hnamed (.cons (hcolon.leaf _) .nil)) hchildren
  · simp

theorem unknown_moves {p p' : Prelude} (h : p.Moves m p') (hcovered : p.covered.isSome) :
    (unknown p).Moves m (unknown p') := by
  obtain ⟨comments, covered, terminator, rest⟩ := p
  obtain ⟨comments', covered', terminator', rest'⟩ := p'
  obtain ⟨hcomments, hcover, hterminator, hrest⟩ := h
  dsimp only at hcomments hcover hterminator hrest hcovered
  subst hterminator
  cases hcover with
  | none => exact absurd hcovered Bool.false_ne_true
  | some hs =>
    cases hcomments with
    | nil =>
      cases hrest with
      | nil => cases terminator' <;> exact .item (.leaf hs) .nil
      | cons ht hrest =>
        cases terminator' with
        | semicolon => exact .item (.leaf (hs.cover ht.span)) hrest
        | _ => exact .item (.leaf hs) (.cons ht hrest)
    | @cons i i' more more' hi hmore =>
      have hgather : ∀ {s s' : Span}, s.Moves m s' →
          (Item.gather .unknown (i :: more ++ [.leaf .unknown s])).Moves m
            (Item.gather .unknown (i' :: more' ++ [.leaf .unknown s'])) := fun hs =>
        Item.gather_moves .unknown (.cons hi (List.rel_append hmore (.cons (.leaf hs) .nil)))
          (List.cons_ne_nil _ _)
      cases hrest with
      | nil => cases terminator' <;> exact .item (hgather hs) .nil
      | cons ht hrest =>
        cases terminator' with
        | semicolon => exact .item (hgather (hs.cover ht.span)) hrest
        | _ => exact .item (hgather hs) (.cons ht hrest)

theorem rule_moves (ht : t.Moves m t') (hcomment : t.comment? = none)
    (hclose : t.kind ≠ .closeBrace) (hmark : t.kind ≠ .semicolon)
    (h : List.Forall₂ (Token.Moves m) ts ts') :
    (rule (t :: ts)).Moves m (rule (t' :: ts')) := by
  have hp := prelude_moves (.cons ht h)
  by_cases hopen : t.kind = .openBrace
  · have hnil : ∀ {t : Token} {ts : List Token}, t.kind = .openBrace →
        rule (t :: ts) = .header .ruleBlock [] t ts := by
      intro t ts hopen
      simp [rule, prelude, preludeFrom, Terminator.of?, hopen]
    rw [hnil hopen, hnil (ht.kind.trans hopen)]
    exact .header .nil ht h
  · have hcovered : (prelude (t :: ts)).covered.isSome := by
      rw [prelude, preludeFrom, Terminator.of?_eq_none hclose hmark hopen, hcomment]
      exact preludeFrom_covered_isSome rfl
    have hunknown := unknown_moves hp hcovered
    obtain ⟨hcomments, hcover, hterminator, hrest⟩ := hp
    have hhead := List.rel_append hcomments (covering_moves .selector hcover)
    unfold rule
    dsimp only
    rw [hterminator]
    generalize (prelude (t :: ts)).rest = rest at hrest ⊢
    generalize (prelude (t' :: ts')).rest = rest' at hrest ⊢
    cases hrest with
    | nil => cases (prelude (t :: ts)).terminator <;> exact hunknown
    | cons hbrace hrest =>
      cases (prelude (t :: ts)).terminator with
      | block => exact .header hhead hbrace hrest
      | _ => exact hunknown

theorem ruleOrDeclaration_moves (ht : t.Moves m t') (hcomment : t.comment? = none)
    (hclose : t.kind ≠ .closeBrace) (hmark : t.kind ≠ .semicolon)
    (h : List.Forall₂ (Token.Moves m) ts ts') :
    Agree m (Statement.Moves m) (ruleOrDeclaration (t :: ts)) (ruleOrDeclaration (t' :: ts')) := by
  have hrule := rule_moves ht hcomment hclose hmark h
  have hall : List.Forall₂ (Token.Moves m) (t :: ts) (t' :: ts') := .cons ht h
  have hsame : lookahead (t' :: ts') = lookahead (t :: ts) := lookaheadFrom_moves hall 0 none
  unfold ruleOrDeclaration
  dsimp only
  rw [hsame]
  split
  · rename_i n hcolon
    split
    · exact .ok hrule
    · obtain ⟨c, after, hdrop, -, -⟩ := lookahead_colon hcolon
      have hafter := List.forall₂_drop (n + 1) hall
      rw [hdrop] at hafter ⊢
      generalize (t' :: ts').drop (n + 1) = rest' at hafter ⊢
      cases hafter with
      | cons hc hafter =>
        exact propertyDeclaration_moves (List.forall₂_take (n + 1) hall) hc hafter
  · exact .ok hrule

theorem variableDeclaration_moves {name name' colon colon' : Token} (hname : name.Moves m name')
    (hcolon : colon.Moves m colon') (h : List.Forall₂ (Token.Moves m) ts ts') :
    Agree m (Statement.Moves m) (variableDeclaration name colon ts)
      (variableDeclaration name' colon' ts') := by
  unfold variableDeclaration
  refine (value_moves h).bind ?_
  rintro v v' ⟨hchildren, hrest⟩
  refine .ok (.item (Item.gather_moves .variableDeclaration ?_ (List.cons_ne_nil _ _)) hrest)
  exact .cons (hname.leaf _) (.cons (hcolon.leaf _) hchildren)

theorem statement_moves (ht : t.Moves m t') (hcomment : t.comment? = none)
    (hclose : t.kind ≠ .closeBrace) (hmark : t.kind ≠ .semicolon)
    (h : List.Forall₂ (Token.Moves m) ts ts') :
    Agree m (Statement.Moves m) (statement t ts) (statement t' ts') := by
  have hother := ruleOrDeclaration_moves ht hcomment hclose hmark h
  have hat := atRule_moves ht h
  unfold statement
  rw [ht.kind]
  cases h with
  | nil =>
    cases t.kind with
    | atKeyword => exact hat
    | _ => exact hother
  | cons hnext hafter =>
    cases t.kind with
    | atKeyword => exact hat
    | «variable» =>
      dsimp only
      rw [hnext.kind]
      split
      · exact variableDeclaration_moves ht hnext hafter
      · exact hother
    | _ => exact hother

/-! ## Readings -/

/-- The open blocks and the items around and in them move, and further items come before all
of them.  All lists are listed latest first. -/
inductive Around (m : Move) (old : List Item) :
    List OpenBlock → List Item → List OpenBlock → List Item → Prop
  | top {items items' : List Item} :
    List.Forall₂ (Item.Moves m) items items' → Around m old [] items [] (items' ++ old)
  | block {b b' : OpenBlock} {outer outer' : List OpenBlock} {items items' : List Item} :
    b'.kind = b.kind → List.Forall₂ (Item.Moves m) b.head b'.head → b.brace.Moves m b'.brace →
      Around m old outer b.before outer' b'.before → List.Forall₂ (Item.Moves m) items items' →
      Around m old (b :: outer) items (b' :: outer') items'

namespace Around

variable {old items items' : List Item} {blocks blocks' : List OpenBlock}

theorem push {i i' : Item} (h : Around m old blocks items blocks' items') (hi : i.Moves m i') :
    Around m old blocks (i :: items) blocks' (i' :: items') := by
  cases h with
  | top hitems => exact .top (.cons hi hitems)
  | block hkind hhead hbrace hbefore hitems =>
    exact .block hkind hhead hbrace hbefore (.cons hi hitems)

theorem length_eq (h : Around m old blocks items blocks' items') :
    blocks'.length = blocks.length := by
  induction h with
  | top => rfl
  | block _ _ _ _ _ ih => exact congrArg (· + 1) ih

end Around

theorem close_moves {b b' : OpenBlock} {items items' : List Item} (hkind : b'.kind = b.kind)
    (hhead : List.Forall₂ (Item.Moves m) b.head b'.head) (hbrace : b.brace.Moves m b'.brace)
    (hitems : List.Forall₂ (Item.Moves m) items items') (ht : t.Moves m t') :
    (b.close items t).Moves m (b'.close items' t') := by
  unfold OpenBlock.close
  rw [hkind]
  refine Item.gather_moves b.kind (List.rel_append hhead (.cons ?_ .nil)) ?_
  · exact .node (hbrace.span.cover ht.span) (List.forall₂_reverse_iff.2 hitems)
  · exact List.append_ne_nil_of_right_ne_nil _ (List.cons_ne_nil _ _)

namespace Reading

structure Moves (m : Move) (old : List Item) (r r' : Reading) : Prop where
  around : Around m old r.blocks r.items r'.blocks r'.items
  rest : List.Forall₂ (Token.Moves m) r.rest r'.rest

inductive Step.Moves (m : Move) (old : List Item) : Step → Step → Prop
  | finished {items items' : List Item} :
    List.Forall₂ (Item.Moves m) items items' →
      Moves m old (.finished items) (.finished (old.reverse ++ items'))
  | more {next next' : Reading} : next.Moves m old next' → Moves m old (.more next) (.more next')
  | fault (fault : SyntaxFault) (offset : Nat) :
    Moves m old (.fault ⟨fault, offset⟩) (.fault ⟨fault, m.start offset⟩)

variable {old : List Item} {r r' : Reading}

theorem Moves.openBlock {kind : ItemKind} {head head' : List Item} {brace brace' : Token}
    (h : r.Moves m old r') (hhead : List.Forall₂ (Item.Moves m) head head')
    (hbrace : brace.Moves m brace') (hrest : List.Forall₂ (Token.Moves m) ts ts') :
    (r.openBlock kind head brace ts).Moves m old (r'.openBlock kind head' brace' ts') := by
  unfold Reading.openBlock
  rw [h.around.length_eq]
  split
  · have hstart : brace'.start = m.start brace.start := hbrace.span.start
    rw [hstart]
    exact .fault _ _
  · exact .more ⟨.block rfl hhead hbrace h.around .nil, hrest⟩

theorem Moves.closeBlock (h : r.Moves m old r') (ht : t.Moves m t')
    (hrest : List.Forall₂ (Token.Moves m) ts ts') :
    (r.closeBlock t ts).Moves m old (r'.closeBlock t' ts') := by
  obtain ⟨blocks, items, rest⟩ := r
  obtain ⟨blocks', items', rest'⟩ := r'
  have haround := h.around
  cases haround with
  | top =>
    have hstart : t'.start = m.start t.start := ht.span.start
    unfold Reading.closeBlock
    dsimp only
    rw [hstart]
    exact .fault _ _
  | block hkind hhead hbrace hbefore hitems =>
    exact .more ⟨hbefore.push (close_moves hkind hhead hbrace hitems ht), hrest⟩

theorem Moves.atEnd (h : r.Moves m old r') : r.atEnd.Moves m old r'.atEnd := by
  obtain ⟨blocks, items, rest⟩ := r
  obtain ⟨blocks', items', rest'⟩ := r'
  have haround := h.around
  cases haround with
  | @top _ moved hitems =>
    show Step.Moves m old (.finished items.reverse) (.finished (moved ++ old).reverse)
    rw [List.reverse_append]
    exact .finished (List.forall₂_reverse_iff.2 hitems)
  | @block b b' outer outer' _ _ _ _ hbrace =>
    have hstart : b'.brace.start = m.start b.brace.start := hbrace.span.start
    unfold Reading.atEnd
    dsimp only
    rw [hstart]
    exact .fault _ _

theorem Moves.step (h : r.Moves m old r') : r.step.Moves m old r'.step := by
  have hall := h.rest
  unfold Reading.step
  generalize hts : r.rest = ts at hall
  generalize hts' : r'.rest = ts' at hall
  cases hall with
  | nil => exact h.atEnd
  | @cons t t' rest rest' ht hrest =>
    have hcomment := ht.comment?
    dsimp only
    cases hc : t.comment? <;> cases hc' : t'.comment? <;> rw [hc, hc'] at hcomment
    · dsimp only
      rw [ht.kind]
      split
      · exact h.closeBlock ht hrest
      · rename_i hclose
        split
        · exact .more ⟨h.around.push (ht.leaf _), hrest⟩
        · rename_i hmark
          have hstatement := statement_moves ht hc hclose hmark hrest
          cases hs : statement t rest <;> cases hs' : statement t' rest' <;>
            rw [hs, hs'] at hstatement
          · cases hstatement with
            | error fault offset => exact .fault fault offset
          · cases hstatement
          · cases hstatement
          · cases hstatement with
            | ok hmoves =>
              cases hmoves with
              | item hi hrest => exact .more ⟨h.around.push hi, hrest⟩
              | header hhead hbrace hrest => exact h.openBlock hhead hbrace hrest
    · cases hcomment
    · cases hcomment
    · cases hcomment with
      | some hi => exact .more ⟨h.around.push hi, hrest⟩

/-- A reading of moved tokens, over items that were there before, gives those and then the
same items in their new places. -/
theorem Moves.run (h : r.Moves m old r') :
    Agree m (fun items items' => ∃ moved, List.Forall₂ (Item.Moves m) items moved ∧
      items' = old.reverse ++ moved) r.run r'.run := by
  rw [Reading.run_eq r']
  fun_induction Reading.run r generalizing r' with
  | case1 r items hstep =>
    have hmoves := h.step
    rw [hstep] at hmoves
    generalize r'.step = step' at hmoves ⊢
    cases hmoves with
    | finished hitems => exact .ok ⟨_, hitems, rfl⟩
  | case2 r e hstep =>
    have hmoves := h.step
    rw [hstep] at hmoves
    generalize r'.step = step' at hmoves ⊢
    cases hmoves with
    | fault fault offset => exact .error fault offset
  | case3 r next hstep ih =>
    have hmoves := h.step
    rw [hstep] at hmoves
    generalize r'.step = step' at hmoves ⊢
    cases hmoves with
    | @more _ next' hnext =>
      have hrun := ih hnext
      rwa [← Reading.run_eq next'] at hrun

end Reading
end Grammar
end LiveSheet
