import LiveSheet.Proofs.Acceptance
import LiveSheet.Proofs.Descent
import LiveSheet.Proofs.Spelling

/-!
# Faults

Where a fault shows.  Every fault but that of an open parenthesis stands at its mark: the brace
that is too many or that is never closed, or the first character of what is never ended.  A
parenthesis that is never closed is found only at the end of the text, and the fault is told of
the value around it, so the parenthesis stands there or further on.
-/

namespace LiveSheet

/-- What can stand where a fault shows, if the fault has marks of its own. -/
def SyntaxFault.marks : SyntaxFault → List Text
  | unexpectedBrace => [['\x7d']]
  | unclosedBlock => [['\x7b']]
  | nestingTooDeep => [['\x7b']]
  | unterminatedComment => [['/', '*']]
  | unterminatedString => [['"'], ['\'']]
  | unterminatedInterpolation => [['#', '\x7b']]
  | unclosedParenthesis => []
  | other _ => []

theorem SyntaxFault.mark_ne_nil {fault : SyntaxFault} {mark : Text} (h : mark ∈ fault.marks) :
    mark ≠ [] := by
  rintro rfl
  cases fault <;> simp [marks] at h

namespace Token

variable {w rest : Text} {c : Char} {cause : SyntaxFault} {tokens found : List Token}

/-! ## Faults of the lexer -/

/-- A scan that fails begins with a mark of its fault. -/
def Scan.Marked (t : Text) : Scan → Prop
  | .fault cause => ∃ mark ∈ cause.marks, mark <+: t
  | _ => True

theorem Scan.marked_closed {kind : TokenKind} {t : Text} {length : Option Nat}
    (h : ∃ mark ∈ cause.marks, mark <+: t) : (Scan.closed kind cause length).Marked t := by
  cases length with
  | none => exact h
  | some more => trivial

theorem Scan.marked_sigil {kind : TokenKind} {t : Text} : (Scan.sigil kind rest).Marked t := by
  unfold Scan.sigil
  split <;> trivial

theorem prefix_of_head? {d : Char} (h : rest.head? = some d) : [c, d] <+: c :: rest := by
  cases rest with
  | nil => cases h
  | cons e after =>
    cases h
    exact ⟨after, rfl⟩

theorem scan_marked (c : Char) (rest : Text) : (scan (c :: rest)).Marked (c :: rest) := by
  unfold scan
  refine iteInduction (fun _ => trivial) fun _ => ?_
  refine iteInduction (fun _ => trivial) fun _ => ?_
  refine iteInduction (fun h => ?_) fun _ => ?_
  · refine Scan.marked_closed ⟨_, List.mem_singleton_self _, ?_⟩
    rw [h.1]
    exact prefix_of_head? h.2
  refine iteInduction (fun _ => Scan.marked_sigil) fun _ => ?_
  refine iteInduction (fun _ => Scan.marked_sigil) fun _ => ?_
  refine iteInduction (fun _ => Scan.marked_sigil) fun _ => ?_
  refine iteInduction (fun h => ?_) fun _ => ?_
  · refine Scan.marked_closed ⟨[c], ?_, rest, rfl⟩
    rcases h with rfl | rfl <;> decide
  refine iteInduction (fun h => ?_) fun _ => ?_
  · refine Scan.marked_closed ⟨_, List.mem_singleton_self _, ?_⟩
    rw [h.1]
    exact prefix_of_head? h.2
  split
  · trivial
  · refine iteInduction (fun _ => trivial) fun _ => ?_
    exact iteInduction (fun _ => trivial) fun _ => trivial

/-- The lexer fails at a mark of the fault. -/
theorem lexFrom_error {offset : Nat} {e : SyntaxError} (h : lexFrom offset found rest = .error e)
    (hw : w.drop offset = rest) : ∃ mark ∈ e.fault.marks, mark <+: w.drop e.offset := by
  fun_induction lexFrom offset found rest with
  | case1 => cases h
  | case2 => cases h
  | case3 offset found c rest hscan ih => exact ih h (of_drop_eq_cons hw).2.2
  | case4 offset found c rest kind more hscan ih =>
    exact ih h (lexFrom_step hw hscan).2.2.2.2
  | case5 offset found c rest cause hscan =>
    cases h
    have hmarked := scan_marked c rest
    rw [hscan] at hmarked
    rw [hw]
    exact hmarked

end Token

namespace Grammar

/-! ## Parentheses that are never closed -/

/-- Nothing in these tokens closes a parenthesis that was opened in front of them. -/
def NeverClosed (ts : List Token) : Prop := ∀ run, run <+: ts → 0 ≤ parenDepth run

/-- At the offset begins a token such that this token, or one further on, opens a parenthesis which
is not closed up to the end. -/
def Dangles (tokens : List Token) (offset : Nat) : Prop :=
  ∃ before run paren behind, tokens = before ++ (run ++ paren :: behind) ∧
    (run ++ [paren]).head?.map Token.start = some offset ∧
    paren.kind = .openParen ∧ NeverClosed behind

variable {ts rest : List Token} {t : Token} {depth offset : Nat} {e : SyntaxError}

theorem Dangles.append (h : Dangles ts offset) (before : List Token) :
    Dangles (before ++ ts) offset := by
  obtain ⟨before', run, paren, behind, rfl, hstart, hkind, hnever⟩ := h
  exact ⟨before ++ before', run, paren, behind, (List.append_assoc _ _ _).symm, hstart, hkind,
    hnever⟩

theorem parenDepth_cons (t : Token) (ts : List Token) :
    parenDepth (t :: ts) = parenDepth [t] + parenDepth ts := surplus_cons _ _ t ts

theorem parenDepth_nil : parenDepth [] = 0 := rfl

/-- One of `depth` parentheses that are open, or of those that are opened in the tokens, is not
closed in them. -/
def StaysOpen (depth : Nat) (ts : List Token) : Prop :=
  (∀ run, run <+: ts → 0 < depth + parenDepth run) ∨
    ∃ run paren behind, ts = run ++ paren :: behind ∧ paren.kind = .openParen ∧ NeverClosed behind

theorem staysOpen_nil (h : 0 < depth) : StaysOpen depth [] := by
  left
  intro run hrun
  rw [List.prefix_nil.1 hrun, parenDepth_nil]
  omega

theorem depthAfter_of_pos (h : 0 < depth) (t : Token) :
    (depthAfter depth t.kind : Int) = depth + parenDepth [t] := by
  have hone : [t].countP (fun t => t.kind == .closeParen) ≤ 1 := List.countP_le_length
  have hlow : -1 ≤ parenDepth [t] := by
    unfold parenDepth surplus
    omega
  exact (depthAfter_eq (by omega)).2

theorem opens_of_depthAfter_zero (h : 0 < depthAfter 0 t.kind) : t.kind = .openParen := by
  by_cases hopen : t.kind = .openParen
  · exact hopen
  · by_cases hclose : t.kind = .closeParen
    · rw [hclose] at h
      exact absurd h (Nat.lt_irrefl 0)
    · rw [depthAfter_other hopen hclose] at h
      exact absurd h (Nat.lt_irrefl 0)

theorem StaysOpen.cons (h : StaysOpen (depthAfter depth t.kind) ts) :
    StaysOpen depth (t :: ts) := by
  rcases h with hopen | ⟨run, paren, behind, rfl, hkind, hnever⟩
  · rcases Nat.eq_zero_or_pos depth with rfl | hpos
    · -- none was open in front of the token, so it is the one that stays open
      have hfirst := hopen [] List.nil_prefix
      rw [parenDepth_nil, Int.add_zero] at hfirst
      have hkind : t.kind = .openParen := opens_of_depthAfter_zero (Int.ofNat_lt.1 hfirst)
      refine .inr ⟨[], t, ts, rfl, hkind, fun run hrun => ?_⟩
      have hrun := hopen run hrun
      rw [hkind] at hrun
      have hone : depthAfter 0 .openParen = 1 := rfl
      omega
    · left
      intro run hrun
      rcases List.prefix_cons_iff.1 hrun with rfl | ⟨inner, rfl, hinner⟩
      · rw [parenDepth_nil]
        omega
      · have hinner := hopen inner hinner
        rw [depthAfter_of_pos hpos] at hinner
        rw [parenDepth_cons]
        omega
  · exact .inr ⟨t :: run, paren, behind, rfl, hkind, hnever⟩

theorem StaysOpen.dangles (h : StaysOpen 0 (t :: ts)) : Dangles (t :: ts) t.start := by
  rcases h with hopen | ⟨run, paren, behind, hsplit, hkind, hnever⟩
  · exact absurd (hopen [] List.nil_prefix) (by decide)
  · refine ⟨[], run, paren, behind, hsplit, ?_, hkind, hnever⟩
    cases run with
    | nil =>
      cases hsplit
      rfl
    | cons first run =>
      cases hsplit
      rfl

/-! ## Faults of statements -/

/-- The tokens begin one behind the other. -/
def Ascending (ts : List Token) : Prop := ts.Pairwise fun a b => a.start ≤ b.start

/-- The fault is that of a parenthesis in these tokens that is never closed. -/
structure Unclosing (ts : List Token) (e : SyntaxError) : Prop where
  fault : e.fault = .unclosedParenthesis
  dangles : Dangles ts e.offset

theorem Unclosing.append (h : Unclosing ts e) (before : List Token) :
    Unclosing (before ++ ts) e :=
  ⟨h.fault, h.dangles.append before⟩

theorem Unclosing.cons (h : Unclosing ts e) (t : Token) : Unclosing (t :: ts) e := h.append [t]

variable {parts : List Item} {s : Span}

/-- A value that has begun at a token is blamed there for what stays open in it. -/
theorem valueFrom_error_of_some (hstart : ∀ t ∈ ts, s.start ≤ t.start)
    (h : valueFrom depth parts (some s) ts = .error e) :
    e = ⟨.unclosedParenthesis, s.start⟩ ∧ StaysOpen depth ts := by
  induction ts generalizing depth parts s with
  | nil =>
    rw [valueFrom] at h
    by_cases hdepth : 0 < depth
    · rw [if_pos hdepth] at h
      cases h
      exact ⟨rfl, staysOpen_nil hdepth⟩
    · rw [if_neg hdepth] at h
      cases h
  | cons t rest ih =>
    obtain ⟨ht, hrest⟩ := List.forall_mem_cons.1 hstart
    rw [valueFrom] at h
    split at h
    · cases h
    · split at h
      · rename_i comment hcomment
        obtain ⟨he, hopen⟩ := ih hrest h
        rw [← depthAfter_of_comment? hcomment depth] at hopen
        exact ⟨he, hopen.cons⟩
      · by_cases hflag : t.kind = .flag ∧ depth = 0
        · rw [if_pos hflag] at h
          obtain ⟨he, hopen⟩ := ih hrest h
          have hdepth : depthAfter depth t.kind = depth := by
            rw [hflag.1]
            rfl
          rw [← hdepth] at hopen
          exact ⟨he, hopen.cons⟩
        · rw [if_neg hflag] at h
          have hsame : (s.cover t.span).start = s.start := by
            rw [Span.cover_start]
            exact Nat.min_eq_left ht
          obtain ⟨he, hopen⟩ := ih (s := s.cover t.span) (fun u hu => hsame ▸ hrest u hu) h
          rw [hsame] at he
          exact ⟨he, hopen.cons⟩

theorem valueFrom_error (hascending : Ascending ts) (h : valueFrom 0 parts none ts = .error e) :
    Unclosing ts e := by
  induction ts generalizing parts with
  | nil => cases h
  | cons t rest ih =>
    obtain ⟨ht, hrest⟩ := List.pairwise_cons.1 hascending
    rw [valueFrom] at h
    split at h
    · cases h
    · split at h
      · exact (ih hrest h).cons t
      · by_cases hflag : t.kind = .flag ∧ 0 = 0
        · rw [if_pos hflag] at h
          exact (ih hrest h).cons t
        · rw [if_neg hflag] at h
          obtain ⟨rfl, hopen⟩ := valueFrom_error_of_some (s := t.span) ht h
          exact ⟨rfl, hopen.cons.dangles⟩

/-- None of `depth` parentheses that are open is the last to be closed in the tokens. -/
def Lasts (depth : Nat) (ts : List Token) : Prop :=
  ∀ run, run <+: ts → 0 ≤ depth + parenDepth run

theorem Lasts.cons {inner : Nat} (h : Lasts inner ts)
    (hdepth : (inner : Int) = depth + parenDepth [t]) : Lasts depth (t :: ts) := by
  intro run hrun
  rcases List.prefix_cons_iff.1 hrun with rfl | ⟨more, rfl, hmore⟩
  · rw [parenDepth_nil]
    omega
  · have hlow := h more hmore
    rw [parenDepth_cons]
    omega

theorem parenthesesFrom_error {opened : Nat} (h : parenthesesFrom opened depth s ts = .error e) :
    e = ⟨.unclosedParenthesis, opened⟩ ∧ Lasts depth ts := by
  fun_induction parenthesesFrom opened depth s ts with
  | case1 depth =>
    cases h
    refine ⟨rfl, fun run hrun => ?_⟩
    rw [List.prefix_nil.1 hrun, parenDepth_nil]
    omega
  | case2 depth _ t rest hkind ih =>
    obtain ⟨he, hlasts⟩ := ih h
    have hone : parenDepth [t] = 1 := surplus_singleton_opens (by decide) hkind
    exact ⟨he, hlasts.cons (by omega)⟩
  | case3 => cases h
  | case4 _ t rest outer hkind ih =>
    obtain ⟨he, hlasts⟩ := ih h
    have hone : parenDepth [t] = -1 := surplus_singleton_closes (by decide) hkind
    exact ⟨he, hlasts.cons (by omega)⟩
  | case5 depth _ t rest hopen hclose hclose' ih =>
    have hother : t.kind ≠ .closeParen := by
      intro hkind
      cases depth with
      | zero => exact hclose hkind rfl
      | succ outer => exact hclose' outer hkind rfl
    obtain ⟨he, hlasts⟩ := ih h
    have hzero : parenDepth [t] = 0 := surplus_singleton_other hopen hother
    exact ⟨he, hlasts.cons (by omega)⟩

theorem signature_error (h : signature ts = .error e) :
    Unclosing ts e := by
  unfold signature at h
  split at h
  · rename_i name after
    split at h
    · split at h
      · rename_i paren inner
        split at h
        · rename_i hparen
          cases htaken : parenthesesFrom paren.start 0 paren.span inner with
          | error fault =>
            rw [htaken] at h
            cases h
            obtain ⟨rfl, hlasts⟩ := parenthesesFrom_error htaken
            refine ⟨rfl, [name], [], paren, inner, rfl, rfl, hparen, fun run hrun => ?_⟩
            have hlow := hlasts run hrun
            omega
          | ok taken =>
            rw [htaken] at h
            cases h
        · cases h
      · cases h
    · cases h
  · cases h

theorem atRule_error {keyword : Token} (h : atRule keyword ts = .error e) :
    Unclosing ts e := by
  unfold atRule at h
  split at h
  · cases hnamed : signature ts with
    | error fault =>
      rw [hnamed] at h
      cases h
      exact signature_error hnamed
    | ok named =>
      rw [hnamed] at h
      cases h
  · cases h

theorem propertyDeclaration_error {name : List Token} (hascending : Ascending ts)
    (h : propertyDeclaration name ts = .error e) :
    Unclosing ts e := by
  unfold propertyDeclaration at h
  cases ts with
  | nil => cases h
  | cons colon after =>
    cases hvalue : value after with
    | error fault =>
      simp only [hvalue] at h
      cases h
      exact (valueFrom_error hascending.of_cons hvalue).cons colon
    | ok v =>
      simp only [hvalue] at h
      cases h

theorem ruleOrDeclaration_error (hascending : Ascending ts)
    (h : ruleOrDeclaration ts = .error e) :
    Unclosing ts e := by
  unfold ruleOrDeclaration at h
  dsimp only at h
  split at h
  · rename_i n hcolon
    split at h
    · cases h
    · have hbehind : Ascending (ts.drop (n + 1)) := hascending.drop
      have hwhole := (propertyDeclaration_error hbehind h).append (ts.take (n + 1))
      rw [List.take_append_drop] at hwhole
      exact hwhole
  · cases h

theorem variableDeclaration_error {name colon : Token} (hascending : Ascending ts)
    (h : variableDeclaration name colon ts = .error e) :
    Unclosing ts e := by
  unfold variableDeclaration at h
  cases hvalue : value ts with
  | error fault =>
    rw [hvalue] at h
    cases h
    exact valueFrom_error hascending hvalue
  | ok v =>
    rw [hvalue] at h
    cases h

/-- A statement fails only if a parenthesis is never closed. -/
theorem statement_error (hascending : Ascending (t :: rest)) (h : statement t rest = .error e) :
    Unclosing (t :: rest) e := by
  unfold statement at h
  split at h
  · exact (atRule_error h).cons t
  · rename_i next after _
    split at h
    · have hafter : Ascending after := hascending.of_cons.of_cons
      exact ((variableDeclaration_error hafter h).cons next).cons t
    · exact ruleOrDeclaration_error hascending h
  · exact ruleOrDeclaration_error hascending h

/-! ## Faults of readings -/

/-- The faults of a reading, each at a token. -/
inductive Faulty (tokens : List Token) : SyntaxError → Prop
  | unexpectedBrace {t : Token} :
      t ∈ tokens → t.kind = .closeBrace → Faulty tokens ⟨.unexpectedBrace, t.start⟩
  | unclosedBlock {t : Token} :
      t ∈ tokens → t.kind = .openBrace → Faulty tokens ⟨.unclosedBlock, t.start⟩
  | nestingTooDeep {t : Token} :
      t ∈ tokens → t.kind = .openBrace → Faulty tokens ⟨.nestingTooDeep, t.start⟩
  | unclosing {e : SyntaxError} : Unclosing tokens e → Faulty tokens e

namespace Reading

variable {tokens done : List Token} {r : Reading} {b : OpenBlock} {outer : List OpenBlock}
  {items : List Item}

theorem Stacked.brace (h : Stacked done (b :: outer) items) :
    b.brace ∈ done ∧ b.brace.kind = .openBrace := by
  cases h with
  | block _ _ hbrace _ =>
    refine ⟨?_, hbrace⟩
    simp

theorem step_fault (hsound : r.Sound tokens) (hascending : Ascending tokens)
    (h : r.step = .fault e) : Faulty tokens e := by
  obtain ⟨done, rfl, hstacked⟩ := hsound
  have hrest : ∀ {u}, u ∈ r.rest → u ∈ done ++ r.rest := fun hu => List.mem_append_right _ hu
  unfold step at h
  split at h
  · unfold atEnd at h
    split at h
    · cases h
    · rename_i b outer hblocks
      rw [hblocks] at hstacked
      obtain ⟨hmem, hbrace⟩ := hstacked.brace
      cases h
      exact .unclosedBlock (List.mem_append_left _ hmem) hbrace
  · rename_i t rest hcons
    split at h
    · cases h
    · rename_i hcomment
      by_cases hclose : t.kind = .closeBrace
      · rw [if_pos hclose, closeBlock] at h
        split at h
        · cases h
          refine .unexpectedBrace (hrest ?_) hclose
          rw [hcons]
          exact List.mem_cons_self
        · cases h
      · rw [if_neg hclose] at h
        by_cases hmark : t.kind = .semicolon
        · rw [if_pos hmark] at h
          cases h
        · rw [if_neg hmark] at h
          rw [hcons] at hascending ⊢
          cases hstatement : statement t rest with
          | error fault =>
            rw [hstatement] at h
            cases h
            have hbehind : Ascending (t :: rest) := (List.pairwise_append.1 hascending).2.1
            exact .unclosing ((statement_error hbehind hstatement).append done)
          | ok s =>
            have hformed := statement_formed hcomment hclose hmark hstatement
            rw [hstatement] at h
            cases s with
            | item => cases h
            | header kind head brace behind =>
              obtain ⟨run, hrun, -, hbrace⟩ := hformed
              dsimp only [openBlock] at h
              split at h
              · cases h
                refine .nestingTooDeep (List.mem_append_right _ ?_) hbrace
                rw [hrun]
                exact List.mem_append_right _ List.mem_cons_self
              · cases h

theorem run_fault (hsound : r.Sound tokens) (hascending : Ascending tokens)
    (h : r.run = .error e) : Faulty tokens e := by
  fun_induction Reading.run r with
  | case1 => cases h
  | case2 r fault hstep =>
    cases h
    exact step_fault hsound hascending hstep
  | case3 r next hstep ih => exact ih (hsound.step hstep) h

end Reading

/-! ## Faults of sheets -/

/-- The text shows the fault at its offset: one of its marks stands there, or there begins a token
from which on a parenthesis is never closed. -/
structure Shows (w : Text) (e : SyntaxError) : Prop where
  inside : e.offset < w.length
  mark : (∃ mark ∈ e.fault.marks, mark <+: w.drop e.offset) ∨
    e.fault = .unclosedParenthesis ∧ ∃ tokens, Token.lex w = .ok tokens ∧ Dangles tokens e.offset

variable {w : Text} {tokens : List Token}

theorem shows_of_mark (h : ∃ mark ∈ e.fault.marks, mark <+: w.drop e.offset) : Shows w e := by
  refine ⟨?_, .inl h⟩
  obtain ⟨mark, hmark, hprefix⟩ := h
  have hpos := List.length_pos_iff.2 (SyntaxFault.mark_ne_nil hmark)
  have hle := hprefix.length_le
  rw [List.length_drop] at hle
  omega

/-- A token of one character shows the faults that have this character as a mark. -/
theorem shows_of_token {fault : SyntaxFault} {c : Char} (hlex : Token.lex w = .ok tokens)
    (ht : t ∈ tokens) (hkind : Token.punctuation? c = some t.kind) (hmark : [c] ∈ fault.marks) :
    Shows w ⟨fault, t.start⟩ := by
  have hlexeme := (Token.lexical_of_lex hlex t ht).mark c hkind
  obtain ⟨-, hat⟩ := (((Token.lex_tiling hlex).2 t ht).1).getElem? hlexeme
  refine shows_of_mark ⟨[c], hmark, w.drop (t.start + 1), ?_⟩
  obtain ⟨hlt, hc⟩ := List.getElem?_eq_some_iff.1 hat
  rw [List.drop_eq_getElem_cons hlt, hc]
  rfl

theorem Dangles.lt_length (h : Dangles tokens offset) (hlex : Token.lex w = .ok tokens) :
    offset < w.length := by
  obtain ⟨before, run, paren, behind, rfl, hstart, -, -⟩ := h
  obtain ⟨first, hfirst, rfl⟩ := Option.map_eq_some_iff.1 hstart
  have hmem : first ∈ before ++ (run ++ paren :: behind) := by
    have hrun := List.mem_of_head? hfirst
    refine List.mem_append_right _ ?_
    rcases List.mem_append.1 hrun with hrun | hparen
    · exact List.mem_append_left _ hrun
    · rw [List.mem_singleton.1 hparen]
      exact List.mem_append_right _ List.mem_cons_self
  have hinside := (Token.lex_tiling hlex).1.inside first.span (List.mem_map_of_mem hmem)
  exact Nat.lt_of_lt_of_le hinside.2.1 hinside.2.2

theorem Faulty.shows (h : Faulty tokens e) (hlex : Token.lex w = .ok tokens) : Shows w e := by
  cases h with
  | unexpectedBrace ht hkind =>
    exact shows_of_token hlex ht (hkind ▸ rfl) (List.mem_singleton_self ['\x7d'])
  | unclosedBlock ht hkind =>
    exact shows_of_token hlex ht (hkind ▸ rfl) (List.mem_singleton_self ['\x7b'])
  | nestingTooDeep ht hkind =>
    exact shows_of_token hlex ht (hkind ▸ rfl) (List.mem_singleton_self ['\x7b'])
  | unclosing hunclosing =>
    have hdangles := hunclosing.dangles
    exact ⟨hdangles.lt_length hlex, .inr ⟨hunclosing.fault, tokens, hlex, hdangles⟩⟩

theorem ascending_of_lex (hlex : Token.lex w = .ok tokens) : Ascending tokens := by
  have horder := Token.lex_inOrder hlex
  refine horder.ordered.imp fun hstop => ?_
  exact Nat.le_trans (Nat.le_add_right _ _) hstop

theorem shows_of_parse_error (h : parse w = .error e) : Shows w e := by
  unfold parse at h
  cases hlex : Token.lex w with
  | error fault =>
    rw [hlex] at h
    cases h
    exact shows_of_mark (Token.lexFrom_error hlex List.drop_zero)
  | ok tokens =>
    rw [hlex] at h
    have hsound : (Reading.start tokens).Sound tokens := ⟨[], rfl, .top .nil⟩
    exact (Reading.run_fault hsound (ascending_of_lex hlex) h).shows hlex

/-- Where no sheet is read from a text, the error is never an internal one.  It is a fault at an
offset inside the text, at which stands one of the marks of the fault, or, if the fault is that of
a parenthesis, at which begins a token such that this one or one further on opens a parenthesis
that nothing closes up to the end of the text. -/
theorem parse_error_shown (w : Text) :
    (descend w).result = reported (parse w) ∧
    (∀ message, (descend w).result ≠ .error (.internal message)) ∧
    ∀ e, (descend w).result = .error e → ∃ fault offset, e = .malformed ⟨fault, offset⟩ ∧
      offset < w.length ∧
      ((∃ mark ∈ fault.marks, mark <+: w.drop offset) ∨
        fault = .unclosedParenthesis ∧
          ∃ tokens, Token.lex w = .ok tokens ∧ Dangles tokens offset) := by
  have hdescend := descend_result w
  refine ⟨hdescend, ?_, ?_⟩
  · intro message
    rw [hdescend]
    exact reported_ne_internal (parse w) message
  · intro e he
    rw [hdescend] at he
    cases hparse : parse w with
    | ok items =>
      rw [hparse] at he
      cases he
    | error fault =>
      rw [hparse] at he
      cases he
      have hshows := shows_of_parse_error hparse
      exact ⟨fault.fault, fault.offset, rfl, hshows.inside, hshows.mark⟩

/-- The value begins at the comma, and the parenthesis behind that is never closed. -/
theorem parse_error_shown_comma :
    let w := "$b:,(;".toList
    parse w = .error ⟨.unclosedParenthesis, 3⟩ ∧ 3 < w.length ∧
      ∃ tokens, Token.lex w = .ok tokens ∧ Dangles tokens 3 := by
  intro w
  have hparse : parse w = .error ⟨.unclosedParenthesis, 3⟩ :=
    eq_error_of_failure? (by decide +kernel)
  obtain ⟨hdescend, -, hshown⟩ := parse_error_shown w
  rw [hparse] at hdescend
  obtain ⟨fault, offset, he, hlt, hmark | ⟨-, hdangles⟩⟩ := hshown _ hdescend
  · cases he
    obtain ⟨mark, hmark, -⟩ := hmark
    exact absurd hmark List.not_mem_nil
  · cases he
    exact ⟨hparse, hlt, hdangles⟩

end Grammar
end LiveSheet
