import LiveSheet.Proofs.Blanking

/-!
# Statements without comments

A production that takes comments along ends at the same token when there are none: no comment is a
terminator, opens or closes a parenthesis, or is a colon.  Only what stands in front of the colon
of a variable, and what belongs to the name of an at-rule, is looked for right behind the token
before it.
-/

namespace LiveSheet

namespace Grammar

open Token (uncommented uncommented_cons_of_some uncommented_cons_of_none uncommented_append)

variable {ts run rest : List Token} {t : Token} {depth behind : Nat} {covered : Option Span}
  {kind : TokenKind} {i : Item}

theorem Terminator.of?_of_comment? (h : t.comment? = some i) : of? depth t.kind = none := by
  unfold Token.comment? at h
  split at h
  · rename_i hkind
    rw [hkind]
    rfl
  · rename_i hkind
    rw [hkind]
    rfl
  · cases h

theorem Terminator.comment?_of_of? {terminator : Terminator}
    (h : of? depth t.kind = some terminator) : t.comment? = none := by
  cases hcomment : t.comment? with
  | none => rfl
  | some i => cases (of?_of_comment? hcomment).symm.trans h

/-! ## Where preludes end -/

/-- The terminator of a prelude and the tokens from it on. -/
def endFrom (depth : Nat) : List Token → Terminator × List Token
  | [] => (.endOfInput, [])
  | t :: rest =>
    match Terminator.of? depth t.kind with
    | some terminator => (terminator, t :: rest)
    | none => endFrom (depthAfter depth t.kind) rest

theorem preludeFrom_end (depth : Nat) (comments : List Item) (covered : Option Span)
    (ts : List Token) :
    let p := preludeFrom depth comments covered ts
    (p.terminator, p.rest) = endFrom depth ts := by
  fun_induction preludeFrom depth comments covered ts with
  | case1 => rfl
  | case2 depth _ _ t rest terminator hterminator => rw [endFrom, hterminator]
  | case3 depth _ _ t rest hterminator comment hcomment ih =>
    rw [endFrom, hterminator]
    dsimp only
    rw [depthAfter_of_comment? hcomment]
    exact ih
  | case4 depth _ _ t rest hterminator _ ih =>
    rw [endFrom, hterminator]
    exact ih

theorem prelude_end (ts : List Token) :
    ((prelude ts).terminator, (prelude ts).rest) = endFrom 0 ts :=
  preludeFrom_end 0 [] none ts

theorem endFrom_uncommented (depth : Nat) (ts : List Token) :
    endFrom depth (uncommented ts) = (endFrom depth ts).map id uncommented := by
  induction ts generalizing depth with
  | nil => rfl
  | cons t ts ih =>
    cases hterminator : Terminator.of? depth t.kind with
    | some terminator =>
      have hcomment := Terminator.comment?_of_of? hterminator
      rw [uncommented_cons_of_none hcomment, endFrom, endFrom, hterminator]
      dsimp only
      rw [Prod.map_apply, uncommented_cons_of_none hcomment]
      rfl
    | none =>
      cases hcomment : t.comment? with
      | some comment =>
        rw [uncommented_cons_of_some hcomment, ih, endFrom, hterminator]
        dsimp only
        rw [depthAfter_of_comment? hcomment]
      | none =>
        rw [uncommented_cons_of_none hcomment, endFrom, endFrom, hterminator]
        exact ih _

theorem endFrom_through (h : depthThrough depth run = some behind) (ts : List Token) :
    endFrom depth (run ++ ts) = endFrom behind ts := by
  induction run generalizing depth with
  | nil =>
    cases h
    rfl
  | cons t run ih =>
    rw [depthThrough] at h
    cases hterminator : Terminator.of? depth t.kind with
    | some terminator =>
      rw [hterminator] at h
      cases h
    | none =>
      rw [hterminator] at h
      rw [List.cons_append, endFrom, hterminator]
      exact ih h

/-! ## Colons -/

/-- The tokens in front of the first colon outside parentheses, and the tokens from it on. -/
def cutFrom (depth : Nat) : List Token → Option (List Token × List Token)
  | [] => none
  | t :: rest =>
    match Terminator.of? depth t.kind with
    | some _ => none
    | none =>
      if t.kind = .colon ∧ depth = 0 then some ([], t :: rest)
      else (cutFrom (depthAfter depth t.kind) rest).map (Prod.map (t :: ·) id)

theorem cutFrom_append {front back : List Token} (h : cutFrom depth ts = some (front, back)) :
    ts = front ++ back ∧ ∃ colon after, back = colon :: after ∧ colon.kind = .colon := by
  fun_induction cutFrom depth ts generalizing front with
  | case1 => cases h
  | case2 => cases h
  | case3 depth t rest _ hcolon =>
    cases h
    exact ⟨rfl, t, rest, rfl, hcolon.1⟩
  | case4 depth t rest _ _ ih =>
    obtain ⟨⟨front', back'⟩, hcut, hpair⟩ := Option.map_eq_some_iff.1 h
    cases hpair
    obtain ⟨rfl, hback⟩ := ih hcut
    exact ⟨rfl, hback⟩

theorem cutFrom_uncommented (depth : Nat) (ts : List Token) :
    cutFrom depth (uncommented ts) = (cutFrom depth ts).map (Prod.map uncommented uncommented) := by
  induction ts generalizing depth with
  | nil => rfl
  | cons t ts ih =>
    cases hcomment : t.comment? with
    | some comment =>
      have hcolon : ¬(t.kind = .colon ∧ depth = 0) := by
        rintro ⟨hcolon, -⟩
        rw [Token.comment?, hcolon] at hcomment
        cases hcomment
      rw [uncommented_cons_of_some hcomment, ih, cutFrom, Terminator.of?_of_comment? hcomment,
        if_neg hcolon, depthAfter_of_comment? hcomment]
      dsimp only
      rw [Option.map_map]
      refine Option.map_congr fun cut _ => ?_
      exact Prod.ext (uncommented_cons_of_some hcomment _).symm rfl
    | none =>
      rw [uncommented_cons_of_none hcomment, cutFrom, cutFrom]
      cases Terminator.of? depth t.kind with
      | some terminator => rfl
      | none =>
        dsimp only
        split
        · exact congrArg some (Prod.ext rfl (uncommented_cons_of_none hcomment ts).symm)
        · rw [ih, Option.map_map, Option.map_map]
          refine Option.map_congr fun cut _ => ?_
          exact Prod.ext (uncommented_cons_of_none hcomment _).symm rfl

theorem lookaheadFrom_end (depth n : Nat) (colon : Option Nat) (ts : List Token) :
    (lookaheadFrom depth n colon ts).terminator = (endFrom depth ts).1 := by
  fun_induction lookaheadFrom depth n colon ts with
  | case1 => rfl
  | case2 depth n colon t rest terminator hterminator => rw [endFrom, hterminator]
  | case3 depth n colon t rest hterminator here ih =>
    rw [endFrom, hterminator]
    exact ih

theorem lookaheadFrom_cut (depth n : Nat) (colon : Option Nat) (ts : List Token) :
    (lookaheadFrom depth n colon ts).colon =
      colon.or ((cutFrom depth ts).map fun cut => n + cut.1.length) := by
  fun_induction lookaheadFrom depth n colon ts with
  | case1 => rw [cutFrom, Option.map_none, Option.or_none]
  | case2 depth n colon t rest terminator hterminator =>
    rw [cutFrom, hterminator]
    exact (Option.or_none).symm
  | case3 depth n colon t rest hterminator here ih =>
    rw [ih, cutFrom, hterminator]
    dsimp only
    by_cases hcolon : t.kind = .colon ∧ depth = 0
    · have hhere : here = colon.or (some n) := if_pos hcolon
      rw [if_pos hcolon, hhere, Option.or_assoc, Option.some_or]
      rfl
    · have hhere : here = colon := if_neg hcolon
      have hlength : ∀ cut : List Token × List Token,
          n + 1 + cut.1.length = n + (Prod.map (t :: ·) id cut).1.length := fun cut => by
        rw [Prod.map_fst, List.length_cons, Nat.add_assoc, Nat.add_comm 1]
      rw [if_neg hcolon, hhere, Option.map_map]
      exact congrArg _ (Option.map_congr fun cut _ => hlength cut)

/-- A declaration is a statement with a colon and no block. -/
theorem ruleOrDeclaration_eq (ts : List Token) :
    ruleOrDeclaration ts =
      match cutFrom 0 ts with
      | some (t :: front, back) =>
        if (endFrom 0 ts).1 = .block then .ok (rule ts) else propertyDeclaration (t :: front) back
      | _ => .ok (rule ts) := by
  have hcolon := lookaheadFrom_cut 0 0 none ts
  rw [Option.none_or] at hcolon
  unfold ruleOrDeclaration lookahead
  dsimp only
  rw [hcolon, lookaheadFrom_end]
  cases hcut : cutFrom 0 ts with
  | none => rfl
  | some cut =>
    obtain ⟨front, back⟩ := cut
    obtain ⟨rfl, -⟩ := cutFrom_append hcut
    rw [Option.map_some, Nat.zero_add]
    cases front with
    | nil => rfl
    | cons t front =>
      rw [List.length_cons]
      dsimp only
      rw [← List.length_cons, List.take_left, List.drop_left]
      rfl

/-! ## Values and argument lists -/

/-- The tokens behind a semicolon, if one comes first. -/
def behindMark : List Token → List Token
  | t :: rest => if t.kind = .semicolon then rest else t :: rest
  | [] => []

theorem value_finish_rest (parts : List Item) (covered : Option Span) (ts : List Token) :
    (Value.finish parts covered ts).rest = behindMark ts := by
  cases ts with
  | nil => rfl
  | cons t rest =>
    rw [Value.finish, behindMark]
    split <;> rfl

theorem behindMark_uncommented (h : ∀ t ∈ ts.head?, t.comment? = none) :
    behindMark (uncommented ts) = uncommented (behindMark ts) := by
  cases ts with
  | nil => rfl
  | cons t rest =>
    have hcomment := h t rfl
    rw [uncommented_cons_of_none hcomment, behindMark, behindMark]
    split
    · rfl
    · exact (uncommented_cons_of_none hcomment rest).symm

theorem valueFrom_uncommented {parts : List Item} {v : Value}
    (h : valueFrom depth parts covered ts = .ok v) (parts' : List Item)
    (covered' : Option Span) :
    ∃ v', valueFrom depth parts' covered' (uncommented ts) = .ok v' ∧
      v'.rest = uncommented v.rest := by
  fun_induction valueFrom depth parts covered ts generalizing parts' covered' with
  | case1 => cases h
  | case2 depth parts covered hclosed =>
    cases h
    refine ⟨_, if_neg hclosed, ?_⟩
    rw [value_finish_rest, value_finish_rest]
    rfl
  | case3 depth parts covered t rest terminator hterminator =>
    cases h
    have hcomment := Terminator.comment?_of_of? hterminator
    rw [uncommented_cons_of_none hcomment, valueFrom, hterminator]
    refine ⟨_, rfl, ?_⟩
    rw [value_finish_rest, value_finish_rest, ← uncommented_cons_of_none hcomment]
    exact behindMark_uncommented fun u hu => Option.some.inj hu ▸ hcomment
  | case4 depth parts covered t rest _ comment hcomment ih =>
    rw [uncommented_cons_of_some hcomment]
    exact ih h _ _
  | case5 depth parts covered t rest hterminator hcomment hflag ih =>
    rw [uncommented_cons_of_none hcomment, valueFrom, hterminator, hcomment]
    dsimp only
    rw [if_pos hflag]
    exact ih h _ _
  | case6 depth parts covered t rest hterminator hcomment hflag ih =>
    rw [uncommented_cons_of_none hcomment, valueFrom, hterminator, hcomment]
    dsimp only
    rw [if_neg hflag]
    exact ih h _ _

theorem ParensClosed.uncommented (h : ParensClosed depth ts) :
    ParensClosed depth (uncommented ts) := by
  induction ts generalizing depth with
  | nil => exact h
  | cons t ts ih =>
    obtain ⟨hclose, hrest⟩ := h
    cases hcomment : t.comment? with
    | some comment =>
      rw [uncommented_cons_of_some hcomment]
      rw [depthAfter_of_comment? hcomment] at hrest
      exact ih hrest
    | none =>
      rw [uncommented_cons_of_none hcomment]
      exact ⟨hclose, ih hrest⟩

/-- An argument list ends where its parenthesis is closed. -/
theorem parenthesesFrom_of_closed {closing : Token} (opened : Nat) (span : Span)
    (h : ParensClosed depth run) (hclosing : closing.kind = .closeParen) (rest : List Token) :
    ∃ s, parenthesesFrom opened depth span (run ++ closing :: rest) = .ok (s, rest) := by
  induction run generalizing depth span with
  | nil =>
    obtain rfl : depth = 0 := h
    refine ⟨span.cover closing.span, ?_⟩
    simp only [List.nil_append, parenthesesFrom, hclosing]
  | cons t run ih =>
    obtain ⟨hclose, hrun⟩ := h
    have hrest := ih (span.cover t.span) hrun
    rw [List.cons_append, parenthesesFrom.eq_def]
    dsimp only
    split
    · rename_i hopen
      rwa [hopen] at hrest
    · rename_i hclosed
      exact absurd (hclose hclosed) (Nat.lt_irrefl 0)
    · rename_i outer hclosed
      rwa [hclosed] at hrest
    · rename_i hopen _ houter
      have hnot : t.kind ≠ .closeParen := by
        intro hclosed
        obtain ⟨outer, hdepth⟩ := Nat.exists_eq_succ_of_ne_zero (Nat.ne_of_gt (hclose hclosed))
        exact houter outer hclosed hdepth
      rwa [depthAfter_other hopen hnot] at hrest

/-! ## Names of at-rules -/

/-- A token of the kind comes next, but for comments in front of it. -/
def Hidden (kind : TokenKind) (ts : List Token) : Prop :=
  (uncommented ts).head?.map Token.kind = some kind ∧ ts.head?.map Token.kind ≠ some kind

instance (kind : TokenKind) : DecidablePred (Hidden kind) :=
  fun ts => inferInstanceAs (Decidable (_ = some kind ∧ ts.head?.map Token.kind ≠ some kind))

/-- Comments stand in front of the name of an at-rule, or between the name and its argument
list. -/
def Parted (ts : List Token) : Prop :=
  Hidden .identifier ts ∨ ts.head?.map Token.kind = some .identifier ∧ Hidden .openParen ts.tail

instance : DecidablePred Parted := fun ts =>
  inferInstanceAs (Decidable (Hidden .identifier ts ∨ _ = some TokenKind.identifier ∧
    Hidden .openParen ts.tail))

/-- The tokens in front of the parenthesis that closes a list in which `depth` further ones are
open. -/
def listFrom (depth : Nat) : List Token → Option (List Token)
  | [] => none
  | t :: rest =>
    if t.kind = .closeParen ∧ depth = 0 then some []
    else (listFrom (depthAfter depth t.kind) rest).map (t :: ·)

/-- The tokens between the parentheses behind a name. -/
def listed? : List Token → Option (List Token)
  | name :: opening :: rest =>
    if name.kind = .identifier ∧ opening.kind = .openParen then listFrom 0 rest else none
  | _ => none

/-- An argument list behind a name is closed before a brace closes a block. -/
def Closes (ts : List Token) : Prop :=
  ts.tail.head?.map Token.kind = some .openParen →
    ∃ inner ∈ listed? ts, ∀ tok ∈ inner, tok.kind ≠ .closeBrace

instance : DecidablePred Closes := fun ts =>
  inferInstanceAs (Decidable (ts.tail.head?.map Token.kind = some .openParen →
    ∃ inner ∈ listed? ts, ∀ tok ∈ inner, tok.kind ≠ .closeBrace))

variable {name opening closing : Token} {inner after : List Token} {named : List Item}

theorem listFrom_append (h : ParensClosed depth inner) (hclosing : closing.kind = .closeParen)
    (after : List Token) : listFrom depth (inner ++ closing :: after) = some inner := by
  induction inner generalizing depth with
  | nil =>
    obtain rfl : depth = 0 := h
    exact if_pos ⟨hclosing, rfl⟩
  | cons t inner ih =>
    obtain ⟨hclose, hrest⟩ := h
    have hopen : ¬(t.kind = .closeParen ∧ depth = 0) := by
      rintro ⟨hkind, rfl⟩
      exact absurd (hclose hkind) (Nat.lt_irrefl 0)
    rw [List.cons_append, listFrom, if_neg hopen, ih hrest]
    rfl

theorem of_listFrom (h : listFrom depth ts = some inner) :
    ∃ closing after, ts = inner ++ closing :: after ∧ closing.kind = .closeParen ∧
      ParensClosed depth inner := by
  fun_induction listFrom depth ts generalizing inner with
  | case1 => cases h
  | case2 depth t rest hclose =>
    cases h
    exact ⟨t, rest, rfl, hclose.1, hclose.2⟩
  | case3 depth t rest hopen ih =>
    obtain ⟨inner', hinner, rfl⟩ := Option.map_eq_some_iff.1 h
    obtain ⟨closing, after, rfl, hclosing, hclosed⟩ := ih hinner
    exact ⟨closing, after, rfl, hclosing,
      fun hkind => Nat.pos_of_ne_zero fun hzero => hopen ⟨hkind, hzero⟩, hclosed⟩

theorem listFrom_append_right (h : listFrom depth ts = some inner) (rest : List Token) :
    listFrom depth (ts ++ rest) = some inner := by
  obtain ⟨closing, after, rfl, hclosing, hclosed⟩ := of_listFrom h
  rw [List.append_assoc]
  exact listFrom_append hclosed hclosing (after ++ rest)

theorem listed?_append (h : listed? ts = some inner) (rest : List Token) :
    listed? (ts ++ rest) = some inner := by
  match ts with
  | [] => cases h
  | [name] => cases h
  | name :: opening :: more =>
    rw [listed?] at h
    split at h
    · rename_i hcall
      exact (if_pos hcall).trans (listFrom_append_right h rest)
    · cases h

theorem listed?_call (hname : name.kind = .identifier) (hopen : opening.kind = .openParen)
    (rest : List Token) : listed? (name :: opening :: rest) = listFrom 0 rest :=
  if_pos ⟨hname, hopen⟩

theorem comment?_of_kind (ht : t.kind = kind) (h : kind ≠ .lineComment ∧ kind ≠ .blockComment) :
    t.comment? = none := by
  unfold Token.comment?
  split
  · exact absurd (ht.symm.trans ‹_›) h.1
  · exact absurd (ht.symm.trans ‹_›) h.2
  · rfl

theorem signature_of_lead (h : ts.head?.map Token.kind ≠ some .identifier) :
    signature ts = .ok ([], ts) := by
  cases ts with
  | nil => rfl
  | cons t rest => exact if_neg fun hkind => h (congrArg some hkind)

theorem signature_of_name (hname : name.kind = .identifier)
    (h : rest.head?.map Token.kind ≠ some .openParen) :
    signature (name :: rest) = .ok ([name.leaf .identifier], rest) := by
  cases rest with
  | nil => exact if_pos hname
  | cons t rest => exact (if_pos hname).trans (if_neg fun hkind => h (congrArg some hkind))

theorem signature_of_list {s : Span} (hname : name.kind = .identifier)
    (hopen : opening.kind = .openParen)
    (h : parenthesesFrom opening.start 0 opening.span inner = .ok (s, rest)) :
    signature (name :: opening :: inner) =
      .ok ([name.leaf .identifier, .leaf .arguments s], rest) := by
  refine (if_pos hname).trans ((if_pos hopen).trans ?_)
  rw [h]
  rfl

theorem signature_list_uncommented (hname : name.kind = .identifier)
    (hopen : opening.kind = .openParen) (horder : Token.InOrder (opening :: inner))
    (h : signature (name :: opening :: inner) = .ok (named, rest)) :
    signature (name :: opening :: uncommented inner) = .ok (named, uncommented rest) := by
  cases hp : parenthesesFrom opening.start 0 opening.span inner with
  | error e =>
    have herror : signature (name :: opening :: inner) = .error e := by
      refine (if_pos hname).trans ((if_pos hopen).trans ?_)
      rw [hp]
      rfl
    cases herror.symm.trans h
  | ok taken =>
    obtain ⟨s, behind⟩ := taken
    cases (signature_of_list hname hopen hp).symm.trans h
    obtain ⟨run, closing, rfl, hclosing, hclosed, hcover⟩ := parenthesesFrom_form hp
    obtain ⟨s', hp'⟩ := parenthesesFrom_of_closed opening.start opening.span
      hclosed.uncommented hclosing (uncommented rest)
    obtain ⟨run', closing', hsplit, -, -, hcover'⟩ := parenthesesFrom_form hp'
    -- both lists reach from the one parenthesis to the other
    have hjoined : run' ++ [closing'] ++ uncommented rest =
        uncommented run ++ [closing] ++ uncommented rest := by
      simpa using hsplit.symm
    have hsame : run' ++ [closing'] = uncommented run ++ [closing] :=
      List.append_cancel_right hjoined
    have hspan := Token.coverAll_uncommented (horder.sublist (by simp)) hcover
    rw [List.map_cons, ← hsame] at hspan
    cases hcover'.symm.trans hspan
    rw [uncommented_append, uncommented_cons_of_none (comment?_of_kind hclosing (by decide))]
    exact signature_of_list hname hopen hp'

/-- No comment parts a name from its keyword or from its list, so the same is found without
comments. -/
theorem signature_uncommented (horder : Token.InOrder ts)
    (h : signature ts = .ok (named, rest)) (hnot : ¬Parted ts) :
    signature (uncommented ts) = .ok (named, uncommented rest) := by
  by_cases hname : ts.head?.map Token.kind = some .identifier
  · cases ts with
    | nil => cases hname
    | cons name ts =>
      replace hname := Option.some.inj hname
      rw [uncommented_cons_of_none (comment?_of_kind hname (by decide))]
      by_cases hopen : ts.head?.map Token.kind = some .openParen
      · cases ts with
        | nil => cases hopen
        | cons opening inner =>
          replace hopen := Option.some.inj hopen
          rw [uncommented_cons_of_none (comment?_of_kind hopen (by decide))]
          exact signature_list_uncommented hname hopen (horder.sublist (List.sublist_cons_self _ _)) h
      · cases (signature_of_name hname hopen).symm.trans h
        exact signature_of_name hname fun hlist =>
          hnot (.inr ⟨congrArg some hname, hlist, hopen⟩)
  · cases (signature_of_lead hname).symm.trans h
    exact signature_of_lead fun hfirst => hnot (.inl ⟨hfirst, hname⟩)

/-! ### Names behind comments -/

theorem depthThrough_of_closed (h : ParensClosed depth run)
    (hbrace : ∀ tok ∈ run, tok.kind ≠ .closeBrace) : depthThrough (depth + 1) run = some 1 := by
  induction run generalizing depth with
  | nil =>
    obtain rfl : depth = 0 := h
    rfl
  | cons t run ih =>
    obtain ⟨hclose, hrun⟩ := h
    obtain ⟨ht, hbrace⟩ := List.forall_mem_cons.1 hbrace
    have hnone : Terminator.of? (depth + 1) t.kind = none := by
      unfold Terminator.of?
      split
      · exact if_neg (Nat.succ_ne_zero _)
      · exact if_neg (Nat.succ_ne_zero _)
      · exact absurd ‹_› ht
      · rfl
    have hdepth : depthAfter (depth + 1) t.kind = depthAfter depth t.kind + 1 := by
      unfold depthAfter
      split
      · rfl
      · have := hclose ‹_›
        omega
      · rfl
    rw [depthThrough, hnone]
    dsimp only
    rw [hdepth]
    exact ih hrun hbrace

theorem endFrom_name (h : name.kind = .identifier) (rest : List Token) :
    endFrom 0 (name :: rest) = endFrom 0 rest := by
  rw [endFrom, h]
  rfl

theorem endFrom_list (hopen : opening.kind = .openParen) (hclosing : closing.kind = .closeParen)
    (hinner : ParensClosed 0 inner) (hbrace : ∀ tok ∈ inner, tok.kind ≠ .closeBrace)
    (after : List Token) : endFrom 0 (opening :: (inner ++ closing :: after)) = endFrom 0 after := by
  have hthrough := endFrom_through (depthThrough_of_closed hinner hbrace) (closing :: after)
  have hlast : endFrom 1 (closing :: after) = endFrom 0 after := by
    rw [endFrom, hclosing]
    rfl
  rw [endFrom, hopen, ← hlast, ← hthrough]
  rfl

theorem exists_signature (hname : name.kind = .identifier) {ts : List Token}
    (hcloses : Closes (name :: ts)) :
    ∃ named rest, signature (name :: ts) = .ok (named, rest) ∧ endFrom 0 rest = endFrom 0 ts := by
  by_cases hopen : ts.head?.map Token.kind = some .openParen
  · obtain ⟨inner, hlisted, hbrace⟩ := hcloses hopen
    cases ts with
    | nil => cases hopen
    | cons opening rest =>
      replace hopen := Option.some.inj hopen
      rw [listed?_call hname hopen] at hlisted
      obtain ⟨closing, after, rfl, hclosing, hinner⟩ := of_listFrom hlisted
      obtain ⟨s, hs⟩ := parenthesesFrom_of_closed opening.start opening.span hinner hclosing after
      exact ⟨_, _, signature_of_list hname hopen hs,
        (endFrom_list hopen hclosing hinner hbrace after).symm⟩
  · exact ⟨_, _, signature_of_name hname hopen, rfl⟩

/-- A name that was not seen for a comment is seen without it.  The statement ends at the same
token, as long as the argument list does not reach over the end of a block. -/
theorem signature_of_parted (h : signature ts = .ok (named, rest)) (hparted : Parted ts)
    (hcloses : Closes (uncommented ts)) :
    ∃ named' rest', signature (uncommented ts) = .ok (named', rest') ∧
      endFrom 0 rest' = endFrom 0 (uncommented rest) := by
  rcases hparted with ⟨hlead, hfirst⟩ | ⟨hname, -, hfirst⟩
  · cases (signature_of_lead hfirst).symm.trans h
    cases hts : uncommented ts with
    | nil =>
      rw [hts] at hlead
      cases hlead
    | cons name us =>
      rw [hts] at hlead hcloses
      have hname : name.kind = .identifier := Option.some.inj hlead
      obtain ⟨named', rest', hsignature, hend⟩ := exists_signature hname hcloses
      exact ⟨named', rest', hsignature, hend.trans (endFrom_name hname us).symm⟩
  · cases ts with
    | nil => cases hname
    | cons name ts =>
      replace hname := Option.some.inj hname
      cases (signature_of_name hname hfirst).symm.trans h
      rw [uncommented_cons_of_none (comment?_of_kind hname (by decide))] at hcloses ⊢
      exact exists_signature hname hcloses

end Grammar
end LiveSheet
