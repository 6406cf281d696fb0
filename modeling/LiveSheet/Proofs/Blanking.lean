import LiveSheet.Proofs.Acceptance
import LiveSheet.Proofs.Parameters
import LiveSheet.Proofs.Spacing

/-!
# Texts without comments

If blanks are put in the place of its comments, a text has the same tokens as before, but for the
comments.  No token needs a comment behind it to end where it does, and none goes on over a blank.
-/

namespace LiveSheet

namespace Token

/-- The tokens that are no comments. -/
def uncommented (tokens : List Token) : List Token := tokens.filter (·.comment?.isNone)

variable {tok : Token} {tokens ts ts' : List Token}

theorem uncommented_cons_of_some {i : Item} (h : tok.comment? = some i) (ts : List Token) :
    uncommented (tok :: ts) = uncommented ts :=
  List.filter_cons_of_neg (by simp [h])

theorem uncommented_cons_of_none (h : tok.comment? = none) (ts : List Token) :
    uncommented (tok :: ts) = tok :: uncommented ts :=
  List.filter_cons_of_pos (by simp [h])

theorem uncommented_append (ts ts' : List Token) :
    uncommented (ts ++ ts') = uncommented ts ++ uncommented ts' :=
  List.filter_append ts ts'

theorem mem_uncommented : tok ∈ uncommented ts ↔ tok ∈ ts ∧ tok.comment? = none := by
  rw [uncommented, List.mem_filter, Option.isNone_iff_eq_none]

theorem InOrder.eq_of_contains (h : InOrder tokens) {u : Token} (htok : tok ∈ tokens)
    (hu : u ∈ tokens) {k : Nat} (hk : tok.start ≤ k ∧ k < tok.stop)
    (hk' : u.start ≤ k ∧ k < u.stop) : tok = u := by
  rcases eq_or_rel_of_pairwise h.ordered htok hu with heq | hlt | hlt
  · exact heq
  · omega
  · omega

/-- Whether an offset lies in a comment. -/
def commented (tokens : List Token) (k : Nat) : Bool :=
  tokens.any fun tok => tok.comment?.isSome && tok.span.contains k

theorem commented_iff {k : Nat} : commented tokens k = true ↔
    ∃ tok ∈ tokens, tok.comment?.isSome ∧ tok.start ≤ k ∧ k < tok.stop := by
  simp only [commented, List.any_eq_true, Bool.and_eq_true, Span.contains_iff]
  rfl

end Token

namespace Text

/-- A blank in the place of a character that is hidden, unless it breaks the line. -/
def veiled (hide : Bool) (c : Char) : Char := if hide && !isLineBreak c then ' ' else c

/-- A text that stands at `offset`, with blanks in its hidden places. -/
def veil (hidden : Nat → Bool) (offset : Nat) (t : Text) : Text :=
  t.mapIdx fun k => veiled (hidden (offset + k))

/-- A text with blanks in the place of its comments, one for each character but for line
breaks. -/
def uncommented (tokens : List Token) (t : Text) : Text := t.veil (Token.commented tokens) 0

variable {hidden : Nat → Bool} {hide : Bool} {offset : Nat} {t x y : Text} {c d : Char}

theorem isBlank_of_isLineBreak (h : isLineBreak c = true) : isBlank c = true := by
  simp only [isLineBreak, isBlank, Bool.or_eq_true, Bool.and_eq_true, decide_eq_true_eq,
    beq_iff_eq] at h ⊢
  omega

theorem isBlank_veiled (c : Char) : isBlank (veiled true c) = true := by
  unfold veiled
  split
  · rfl
  · rename_i hbreak
    exact isBlank_of_isLineBreak (by simpa using hbreak)

theorem veiled_eq_or (hide : Bool) (c : Char) :
    veiled hide c = c ∨ isBlank (veiled hide c) = true := by
  cases hide with
  | false => exact .inl rfl
  | true => exact .inr (isBlank_veiled c)

theorem veil_cons (hidden : Nat → Bool) (offset : Nat) (c : Char) (t : Text) :
    veil hidden offset (c :: t) = veiled (hidden offset) c :: t.veil hidden (offset + 1) := by
  simp only [veil, List.mapIdx_cons, Nat.add_zero, Nat.add_assoc, Nat.add_comm 1]

theorem veil_append (hidden : Nat → Bool) (offset : Nat) (x y : Text) :
    veil hidden offset (x ++ y) = x.veil hidden offset ++ y.veil hidden (offset + x.length) := by
  simp only [veil, List.mapIdx_append, Nat.add_assoc, Nat.add_comm x.length]

theorem length_veil : (t.veil hidden offset).length = t.length := List.length_mapIdx

theorem getElem?_veil (k : Nat) :
    (t.veil hidden offset)[k]? = t[k]?.map (veiled (hidden (offset + k))) :=
  List.getElem?_mapIdx

/-- What is not hidden stays. -/
theorem veil_of_not (h : ∀ k < x.length, hidden (offset + k) = false) :
    x.veil hidden offset = x := by
  refine List.ext_getElem? fun k => ?_
  rw [getElem?_veil]
  cases hk : x[k]? with
  | none => rfl
  | some c =>
    rw [h k (List.getElem?_eq_some_iff.1 hk).1]
    rfl

theorem isBlank_of_veil (h : ∀ k < x.length, hidden (offset + k) = true) :
    ∀ d ∈ x.veil hidden offset, isBlank d = true := by
  intro d hd
  obtain ⟨k, hk⟩ := List.mem_iff_getElem?.1 hd
  rw [getElem?_veil, Option.map_eq_some_iff] at hk
  obtain ⟨c, hc, rfl⟩ := hk
  rw [h k (List.getElem?_eq_some_iff.1 hc).1]
  exact isBlank_veiled c

/-- A veiled text begins as the text does, or with a blank. -/
theorem head?_veil (hd : d ∈ (t.veil hidden offset).head?) :
    d ∈ t.head? ∨ isBlank d = true := by
  cases t with
  | nil => cases hd
  | cons c t =>
    rw [veil_cons] at hd
    obtain rfl : veiled (hidden offset) c = d := Option.some.inj hd
    rcases veiled_eq_or (hidden offset) c with hsame | hblank
    · rw [hsame]
      exact .inl rfl
    · exact .inr hblank

end Text

namespace Token

variable {hidden : Nat → Bool} {offset : Nat} {found tokens : List Token} {rest : Text}

theorem lexFrom_blanks {x : Text} (hx : ∀ c ∈ x, Text.isBlank c = true) (offset : Nat)
    (found : List Token) (rest : Text) :
    lexFrom offset found (x ++ rest) = lexFrom (offset + x.length) found rest := by
  induction x generalizing offset with
  | nil => rfl
  | cons c x ih =>
    obtain ⟨hc, hx⟩ := List.forall_mem_cons.1 hx
    rw [List.cons_append, lexFrom, scan_eq_blank_iff.2 hc]
    dsimp only
    rw [ih hx, List.length_cons, Nat.add_right_comm, Nat.add_assoc]

/-- If just the comments are hidden, then all other tokens are found. -/
theorem lexFrom_veil (hlex : lexFrom offset found rest = .ok tokens)
    (hcomment : ∀ tok ∈ tokens, tok.comment?.isSome → ∀ k, tok.start ≤ k → k < tok.stop →
      hidden k = true)
    (hother : ∀ tok ∈ tokens, tok.comment? = none → ∀ k, tok.start ≤ k → k < tok.stop →
      hidden k = false) :
    lexFrom offset (uncommented found) (rest.veil hidden offset) = .ok (uncommented tokens) := by
  fun_induction lexFrom offset found rest with
  | case1 offset found =>
    cases hlex
    rw [uncommented, uncommented, List.filter_reverse, Text.veil, List.mapIdx_nil, lexFrom]
  | case2 offset found c rest hscan =>
    have hfits := scan_fits c rest
    rw [hscan] at hfits
    exact hfits.elim
  | case3 offset found c rest hscan ih =>
    have hblank : Text.isBlank (Text.veiled (hidden offset) c) = true := by
      rcases Text.veiled_eq_or (hidden offset) c with hsame | hblank
      · rw [hsame]
        exact scan_eq_blank_iff.1 hscan
      · exact hblank
    rw [Text.veil_cons, lexFrom, scan_eq_blank_iff.2 hblank]
    exact ih hlex
  | case4 offset found c rest kind more hscan ih =>
    have hfits := scan_fits c rest
    rw [hscan] at hfits
    have hlength : (rest.take more).length = more := List.length_take_of_le hfits.1
    let tok : Token := ⟨kind, offset, c :: rest.take more⟩
    have htok : tok ∈ tokens := mem_of_lexFrom hlex _ List.mem_cons_self
    have hplace : ∀ k < (c :: rest.take more).length,
        tok.start ≤ offset + k ∧ offset + k < tok.stop :=
      fun k hk => ⟨Nat.le_add_right _ _, Nat.add_lt_add_left hk _⟩
    have hsplit : c :: rest = (c :: rest.take more) ++ rest.drop more := by
      rw [List.cons_append, List.take_append_drop]
    have hbehind : offset + (c :: rest.take more).length = offset + 1 + more := by
      rw [List.length_cons, hlength]
      omega
    have hrest := ih hlex
    rw [hsplit, Text.veil_append, hbehind]
    cases hkind : tok.comment? with
    | some i =>
      -- the lexer goes over the blanks that are left of a comment
      have hblanks := Text.isBlank_of_veil (x := c :: rest.take more) fun k hk =>
        hcomment tok htok (Option.isSome_of_eq_some hkind) _ (hplace k hk).1 (hplace k hk).2
      rw [lexFrom_blanks hblanks, Text.length_veil, hbehind]
      rwa [uncommented_cons_of_some hkind] at hrest
    | none =>
      have hshown := Text.veil_of_not (x := c :: rest.take more) fun k hk =>
        hother tok htok hkind _ (hplace k hk).1 (hplace k hk).2
      have happart : Apart kind (rest.drop more)
          (Text.veil hidden (offset + 1 + more) (rest.drop more)) := by
        intro d hd
        refine (Text.head?_veil hd).imp_right fun hblank => ⟨hblank, ?_⟩
        rintro rfl
        cases hkind
      rw [hshown, List.cons_append, lexFrom_kept hscan happart]
      rwa [uncommented_cons_of_none hkind] at hrest
  | case5 => cases hlex

/-- The tokens of a text without its comments. -/
theorem lex_uncommented {t : Text} (hlex : lex t = .ok tokens) :
    lex (t.uncommented tokens) = .ok (uncommented tokens) := by
  have horder := lex_inOrder hlex
  show lexFrom 0 (uncommented []) (t.veil (commented tokens) 0) = _
  refine lexFrom_veil hlex (fun tok htok hkind k hstart hstop => commented_iff.2
    ⟨tok, htok, hkind, hstart, hstop⟩) fun tok htok hkind k hstart hstop => ?_
  rw [← Bool.not_eq_true, commented_iff]
  rintro ⟨u, hu, hsome, hk⟩
  rw [← horder.eq_of_contains htok hu ⟨hstart, hstop⟩ hk, hkind] at hsome
  cases hsome

/-- Where no comment is, there stands the same. -/
theorem between_uncommented {t : Text} {lo hi : Nat}
    (h : ∀ tok ∈ tokens, tok.comment?.isSome → tok.stop ≤ lo ∨ hi ≤ tok.start) :
    (t.uncommented tokens).between lo hi = t.between lo hi := by
  refine List.ext_getElem? fun k => ?_
  simp only [Text.between, Text.slice, List.getElem?_take, List.getElem?_drop, Text.uncommented,
    Text.getElem?_veil, Nat.zero_add]
  split
  · rename_i hk
    have hshown : commented tokens (lo + k) = false := by
      rw [← Bool.not_eq_true, commented_iff]
      rintro ⟨tok, htok, hsome, hstart, hstop⟩
      have := h tok htok hsome
      omega
    rw [hshown]
    exact Option.map_id'
  · rfl

/-! ## Argument lists -/

variable {inner : List Token} {s : Span}

/-- A list without its comments reaches from the same parenthesis to the same one. -/
theorem coverAll_uncommented {opening closing : Token}
    (horder : InOrder (opening :: (inner ++ [closing])))
    (hcover : Span.coverAll ((opening :: (inner ++ [closing])).map span) = some s) :
    Span.coverAll ((opening :: (uncommented inner ++ [closing])).map span) = some s := by
  have hsub : (opening :: (uncommented inner ++ [closing])).Sublist
      (opening :: (inner ++ [closing])) := (List.filter_sublist.append_right _).cons_cons _
  obtain ⟨s', hs'⟩ : ∃ s', Span.coverAll
      ((opening :: (uncommented inner ++ [closing])).map span) = some s' :=
    Span.exists_coverAll (by simp)
  obtain ⟨hstart, hstop⟩ := horder.ends_coverAll hcover
  obtain ⟨hstart', hstop'⟩ := (horder.sublist hsub).ends_coverAll hs'
  rw [hs', Span.ext_ends (hstart'.trans hstart.symm) (hstop'.trans hstop.symm)]

theorem Parenthesized.uncommented (h : Parenthesized tokens inner s) (horder : InOrder tokens) :
    Parenthesized (uncommented tokens) (uncommented inner) s := by
  obtain ⟨opening, closing, hrun, hopening, hclosing, hcover⟩ := h
  have hkept : Token.uncommented (opening :: (inner ++ [closing])) =
      opening :: (Token.uncommented inner ++ [closing]) := by
    have hlast : Token.uncommented [closing] = [closing] :=
      uncommented_cons_of_none (by rw [comment?, hclosing]) []
    rw [uncommented_cons_of_none (by rw [comment?, hopening]), uncommented_append, hlast]
  have hrun' := hrun.filter (·.comment?.isNone)
  rw [← Token.uncommented, hkept] at hrun'
  exact ⟨opening, closing, hrun', hopening, hclosing,
    coverAll_uncommented (horder.sublist hrun.sublist) hcover⟩

end Token

namespace Declaration

variable {t : Text} {tokens inner ts entry : List Token} {i : Item}

theorem entriesFrom_uncommented (depth : Nat) (ts : List Token) :
    entriesFrom depth (Token.uncommented ts) = (entriesFrom depth ts).map Token.uncommented := by
  induction ts generalizing depth with
  | nil => rfl
  | cons tok ts ih =>
    cases hkind : tok.comment? with
    | some c =>
      have hcomma : ¬(depth = 0 ∧ tok.kind = .comma) := by
        rintro ⟨-, hcomma⟩
        rw [Token.comment?, hcomma] at hkind
        cases hkind
      rw [Token.uncommented_cons_of_some hkind, ih, entriesFrom, if_neg hcomma,
        Grammar.depthAfter_of_comment? hkind]
      cases entriesFrom depth ts with
      | nil => rfl
      | cons entry more =>
        rw [List.modifyHead_cons, List.map_cons, List.map_cons, Token.uncommented_cons_of_some hkind]
    | none =>
      rw [Token.uncommented_cons_of_none hkind, entriesFrom, entriesFrom]
      split
      · rw [ih]
        rfl
      · rw [ih]
        cases entriesFrom (Grammar.depthAfter depth tok.kind) ts with
        | nil => rfl
        | cons entry more =>
          rw [List.modifyHead_cons, List.map_cons, List.map_cons, List.modifyHead_cons,
            Token.uncommented_cons_of_none hkind]

theorem declared?_uncommented (entry : List Token) :
    declared? (Token.uncommented entry) = declared? entry := by
  induction entry with
  | nil => rfl
  | cons tok entry ih =>
    cases hkind : tok.comment? with
    | some c =>
      rw [Token.uncommented_cons_of_some hkind, ih, declared?, declared?,
        List.dropWhile_cons_of_pos (by rw [hkind]; rfl)]
    | none =>
      have hstop : ∀ rest : List Token, (tok :: rest).dropWhile (·.comment?.isSome) = tok :: rest :=
        fun rest => List.dropWhile_cons_of_neg (by rw [hkind]; exact Bool.false_ne_true)
      rw [Token.uncommented_cons_of_none hkind, declared?, declared?, hstop, hstop]
      rfl

/-- Comments in an argument list that change nothing in what is read off its characters: there
are none, or the list is legible with them and without them. -/
def Spared (t : Text) (tokens inner : List Token) : Prop :=
  (∀ tok ∈ inner, tok.comment? = none) ∨
    Legible t inner ∧ Legible (t.uncommented tokens) (Token.uncommented inner)

instance (t : Text) (tokens : List Token) : DecidablePred (Spared t tokens) := fun inner =>
  inferInstanceAs (Decidable ((∀ tok ∈ inner, tok.comment? = none) ∨
    Legible t inner ∧ Legible (t.uncommented tokens) (Token.uncommented inner)))

theorem textIn_uncommented (hlex : Token.lex t = .ok tokens)
    (hparens : Token.Parenthesized tokens inner i.span)
    (h : ∀ tok ∈ inner, tok.comment? = none) : i.textIn (t.uncommented tokens) = i.textIn t := by
  have horder := Token.lex_inOrder hlex
  obtain ⟨opening, closing, hrun, hopening, hclosing, hcover⟩ := hparens
  obtain ⟨hstart, hstop⟩ := (horder.sublist hrun.sublist).ends_coverAll hcover
  have hnone : ∀ tok ∈ opening :: (inner ++ [closing]), tok.comment? = none := by
    refine List.forall_mem_cons.2 ⟨by rw [Token.comment?, hopening], List.forall_mem_append.2
      ⟨h, List.forall_mem_singleton.2 (by rw [Token.comment?, hclosing])⟩⟩
  refine congrArg Text.trim (Token.between_uncommented fun tok htok hsome => ?_)
  obtain ⟨before, after, rfl⟩ := hrun
  rcases List.mem_append.1 htok with hleft | hright
  · rcases List.mem_append.1 hleft with hbefore | hin
    · have := (List.pairwise_append.1 horder.left.ordered).2.2 tok hbefore opening
        List.mem_cons_self
      exact .inl (this.trans_eq hstart.symm)
    · rw [hnone tok hin] at hsome
      cases hsome
  · have := (List.pairwise_append.1 horder.ordered).2.2 closing (by simp) tok hright
    exact .inr (hstop.trans_le this)

/-- The parameters that are read off a list whose comments change nothing. -/
theorem parameterNames_uncommented (hlex : Token.lex t = .ok tokens)
    (hparens : Token.Parenthesized tokens inner i.span) (h : Spared t tokens inner) :
    parameterNames (i.textIn (t.uncommented tokens)) = parameterNames (i.textIn t) := by
  rcases h with hnone | ⟨hlegible, hlegible'⟩
  · rw [textIn_uncommented hlex hparens hnone]
  · have hparens' := hparens.uncommented (Token.lex_inOrder hlex)
    rw [parameterNames_textIn hlex hparens hlegible,
      parameterNames_textIn (Token.lex_uncommented hlex) hparens' hlegible', entries,
      entriesFrom_uncommented, List.filterMap_map]
    exact congrArg (List.filterMap · _) (funext declared?_uncommented)

end Declaration
end LiveSheet
