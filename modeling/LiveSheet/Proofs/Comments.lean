import LiveSheet.Proofs.Completions

/-!
# Places in comments

Every comment of a sheet is held by the items around it, down to a comment of the tree, unless
a leaf encloses it: values, selectors, property names, argument lists and whatever is not
understood reach over the comments in them.  The way down to a place in a comment ends at
the comment in the first case, and completions are kept away there.
-/

namespace LiveSheet

/-! ## Tokens and their places -/

namespace Token

variable {w rest : Text} {c : Char} {kind : TokenKind} {more : Nat} {tokens : List Token}

theorem scan_not_blank (h : scan (c :: rest) = .token kind more) : Text.isBlank c = false := by
  cases hc : Text.isBlank c with
  | false => rfl
  | true => cases (scan_eq_blank_iff.2 hc).symm.trans h

theorem punctuation?_ne_lineComment : punctuation? c ≠ some .lineComment := by
  unfold punctuation?
  grind

theorem sigil_ne_lineComment (hkind : kind ≠ .lineComment) :
    Scan.sigil kind rest ≠ .token .lineComment more := by
  unfold Scan.sigil
  split <;> simp [hkind]

theorem closed_ne_lineComment (hkind : kind ≠ .lineComment) (cause : SyntaxFault)
    (length : Option Nat) : Scan.closed kind cause length ≠ .token .lineComment more := by
  cases length <;> simp [Scan.closed, hkind]

/-- A line comment goes on until the line ends. -/
theorem scan_lineComment (h : scan (c :: rest) = .token .lineComment more) :
    more = (rest.takeWhile (· != '\n')).length := by
  unfold scan at h
  dsimp only at h
  split at h
  · cases h
  split at h
  · cases h
    rfl
  split at h
  · exact absurd h (closed_ne_lineComment (by decide) _ _)
  split at h
  · exact absurd h (sigil_ne_lineComment (by decide))
  split at h
  · exact absurd h (sigil_ne_lineComment (by decide))
  split at h
  · exact absurd h (sigil_ne_lineComment (by decide))
  split at h
  · exact absurd h (closed_ne_lineComment (by decide) _ _)
  split at h
  · exact absurd h (closed_ne_lineComment (by decide) _ _)
  split at h
  · rename_i found hfound
    cases h
    exact absurd hfound punctuation?_ne_lineComment
  · split at h
    · cases h
    · split at h <;> cases h

/-- The lexer has found the token where it stands. -/
def FoundIn (w : Text) (tok : Token) : Prop :=
  ∃ c rest more, w.drop tok.start = c :: rest ∧ scan (c :: rest) = .token tok.kind more ∧
    tok.stop = tok.start + 1 + more

theorem lexFrom_found {offset : Nat} {found : List Token}
    (h : lexFrom offset found rest = .ok tokens) (hw : w.drop offset = rest) :
    ∀ tok ∈ tokens, tok ∈ found ∨ tok.FoundIn w := by
  fun_induction lexFrom offset found rest with
  | case1 =>
    cases h
    exact fun tok htok => .inl (List.mem_reverse.1 htok)
  | case2 =>
    cases h
    exact fun tok htok => .inl (List.mem_reverse.1 htok)
  | case3 offset found c rest hscan ih => exact ih h (of_drop_eq_cons hw).2.2
  | case4 offset found c rest kind more hscan ih =>
    obtain ⟨hstop, -, -, -, hdrop⟩ := lexFrom_step hw hscan
    intro tok htok
    rcases ih h hdrop tok htok with hfound | hnew
    · rcases List.mem_cons.1 hfound with rfl | hfound
      · exact .inr ⟨c, rest, more, hw, hscan, hstop⟩
      · exact .inl hfound
    · exact .inr hnew
  | case5 => cases h

theorem lex_found (h : lex w = .ok tokens) : ∀ tok ∈ tokens, tok.FoundIn w := by
  intro tok htok
  rcases lexFrom_found h List.drop_zero tok htok with hnil | hfound
  · exact absurd hnil List.not_mem_nil
  · exact hfound

/-- No token begins where a line comment ends. -/
theorem start_ne_stop_of_lineComment {tok u : Token} (htok : tok.FoundIn w) (hu : u.FoundIn w)
    (hkind : tok.kind = .lineComment) : u.start ≠ tok.stop := by
  intro hstart
  obtain ⟨c, rest, more, hdrop, hscan, hstop⟩ := htok
  obtain ⟨d, after, more', hdrop', hscan', -⟩ := hu
  rw [hkind] at hscan
  have hbehind : rest.dropWhile (· != '\n') = d :: after := by
    calc rest.dropWhile (· != '\n')
        = (rest.takeWhile (· != '\n') ++ rest.dropWhile (· != '\n')).drop more := by
          rw [scan_lineComment hscan, List.drop_left]
      _ = rest.drop more := by rw [List.takeWhile_append_dropWhile]
      _ = w.drop (tok.start + 1 + more) := by
          rw [← List.drop_drop, ← List.drop_drop, hdrop, List.drop_one, List.tail_cons]
      _ = d :: after := by rw [← hstop, ← hstart, hdrop']
  have hbreak := List.head?_dropWhile_not (· != '\n') rest
  rw [hbehind] at hbreak
  have hd : d = '\n' := by simpa using hbreak
  have hblank := scan_not_blank hscan'
  rw [hd] at hblank
  exact absurd hblank (by decide)

/-- The tokens stand one behind the other, and none of them is empty. -/
structure InOrder (tokens : List Token) : Prop where
  ordered : tokens.Pairwise fun a b => a.stop ≤ b.start
  nonempty : ∀ tok ∈ tokens, tok.start < tok.stop

theorem lex_inOrder (h : lex w = .ok tokens) : InOrder tokens := by
  obtain ⟨htiling, -⟩ := lex_tiling h
  exact ⟨List.pairwise_map.1 htiling.ordered,
    fun tok htok => (htiling.inside tok.span (List.mem_map_of_mem htok)).2.1⟩

namespace InOrder

variable {tok u : Token} {s : Span}

/-- A token inside what a run of tokens covers is one of the run. -/
theorem mem_run (h : InOrder tokens) {run : List Token} (hrun : run <:+: tokens)
    (hends : s.Ends run) (htok : tok ∈ tokens) (hwithin : tok.span.Within s) : tok ∈ run := by
  obtain ⟨before, after, rfl⟩ := hrun
  obtain ⟨⟨a, ha, hstart⟩, b, hb, hstop⟩ := hends
  have hne := h.nonempty tok htok
  have hordered := h.ordered
  rw [List.append_assoc, List.pairwise_append, List.pairwise_append] at hordered
  obtain ⟨-, ⟨-, -, hbehind⟩, hbefore⟩ := hordered
  have hlo : s.start ≤ tok.start := hwithin.1
  have hhi : tok.stop ≤ s.stop := hwithin.2
  rw [List.append_assoc, List.mem_append, List.mem_append] at htok
  rcases htok with htok | htok | htok
  · have hle := hbefore tok htok a (List.mem_append_left _ ha)
    omega
  · exact htok
  · have hle := hbehind b hb tok htok
    omega

/-- What stands between two tokens lies in the span over the two. -/
theorem within_cover (h : InOrder tokens) {a b : Token} {between : List Token}
    (hrun : a :: (between ++ [b]) <:+: tokens) :
    ∀ tok ∈ a :: (between ++ [b]), tok.span.Within (a.span.cover b.span) := by
  have hordered := h.ordered.sublist hrun.sublist
  rw [List.pairwise_cons, List.pairwise_append] at hordered
  obtain ⟨hfirst, -, -, hlast⟩ := hordered
  intro tok htok
  rcases List.mem_cons.1 htok with rfl | htok
  · exact Span.within_cover_left _ _
  · rcases List.mem_append.1 htok with htok | htok
    · have hafter := hfirst tok (List.mem_append_left _ htok)
      have hbefore := hlast tok htok b (List.mem_singleton_self _)
      have hstart : a.start ≤ a.stop := a.span.start_le_stop
      have hstop : b.start ≤ b.stop := b.span.start_le_stop
      refine ⟨?_, ?_⟩
      · show min a.start b.start ≤ tok.start
        omega
      · show tok.stop ≤ max a.stop b.stop
        omega
    · rw [List.mem_singleton.1 htok]
      exact Span.within_cover_right _ _

theorem eq_of_within (h : InOrder tokens) (htok : tok ∈ tokens) (hu : u ∈ tokens)
    (hwithin : tok.span.Within u.span) : tok = u := by
  have hlo : u.start ≤ tok.start := hwithin.1
  have hhi : tok.stop ≤ u.stop := hwithin.2
  have hne := h.nonempty tok htok
  rcases eq_or_rel_of_pairwise h.ordered htok hu with heq | hlt | hlt
  · exact heq
  · omega
  · omega

end InOrder

theorem not_comment_of_brace {t : Token} (h : t.kind = .openBrace ∨ t.kind = .closeBrace) :
    ¬t.comment?.isSome := by
  rcases h with hkind | hkind <;> simp [comment?, hkind]

/-- The place is in the token or at its end, and no other token begins there. -/
structure Surrounds (tokens : List Token) (place : Nat) (tok : Token) : Prop where
  mem : tok ∈ tokens
  start : tok.start < place
  stop : place ≤ tok.stop
  fresh : ∀ u ∈ tokens, u.start ≠ place

theorem surrounds_of_comment {tok : Token} {style : CommentStyle} {s : Span} {place : Nat}
    (hlex : lex w = .ok tokens) (htok : tok ∈ tokens)
    (hcomment : tok.comment? = some (.comment style s)) (hstart : s.start < place)
    (hstop : place < s.stop ∨ style = .line ∧ place = s.stop) : Surrounds tokens place tok := by
  have hinOrder := lex_inOrder hlex
  have hspan : s = tok.span := comment?_span hcomment
  subst hspan
  have hlo : tok.start < place := hstart
  rcases hstop with hlt | ⟨rfl, rfl⟩
  · have hhi : place < tok.stop := hlt
    refine ⟨htok, hlo, Nat.le_of_lt hhi, fun u hu heq => ?_⟩
    have hne := hinOrder.nonempty u hu
    rcases eq_or_rel_of_pairwise hinOrder.ordered htok hu with rfl | hbehind | hbefore
    · omega
    · omega
    · omega
  · have hkind : tok.kind = .lineComment := by
      unfold comment? at hcomment
      split at hcomment
      · assumption
      · cases hcomment
      · cases hcomment
    exact ⟨htok, hlo, Nat.le_refl _, fun u hu =>
      start_ne_stop_of_lineComment (lex_found hlex tok htok) (lex_found hlex u hu) hkind⟩

theorem Surrounds.touches {place : Nat} {tok : Token} {s : Span} (h : Surrounds tokens place tok)
    (hwithin : tok.span.Within s) : s.touches place = true := by
  obtain ⟨hlo, hhi⟩ := hwithin
  exact (s.touches_iff place).2 ⟨Nat.le_trans hlo (Nat.le_of_lt h.start), Nat.le_trans h.stop hhi⟩

/-- A span of whole tokens that reaches the place encloses the token there. -/
theorem Surrounds.within {place : Nat} {tok : Token} {s : Span} (h : Surrounds tokens place tok)
    (hinOrder : InOrder tokens) (hends : s.Ends tokens) (htouches : s.touches place = true) :
    tok.span.Within s := by
  obtain ⟨hmem, hstart, hstop, hfresh⟩ := h
  obtain ⟨⟨a, ha, hastart⟩, b, hb, hbstop⟩ := hends
  obtain ⟨hlo, hhi⟩ := (s.touches_iff place).1 htouches
  have hane := hfresh a ha
  have halt := hinOrder.nonempty a ha
  have hblt := hinOrder.nonempty b hb
  refine ⟨?_, ?_⟩
  · show s.start ≤ tok.start
    rcases eq_or_rel_of_pairwise hinOrder.ordered ha hmem with rfl | hlt | hlt
    · omega
    · omega
    · omega
  · show tok.stop ≤ s.stop
    rcases eq_or_rel_of_pairwise hinOrder.ordered hb hmem with rfl | hlt | hlt
    · omega
    · omega
    · omega

end Token

/-! ## Woven items -/

namespace Grammar

/-- The items hold every token of a run, and all that occurs in them is woven of the tokens. -/
structure Laid (tokens run : List Token) (items : List Item) : Prop where
  holds : ∀ tok ∈ run, ∃ i ∈ items, tok.span.Within i.span
  woven : ∀ i ∈ items, i.Throughout (Item.Woven tokens)

variable {tokens taken : List Token} {items : List Item} {i : Item}

theorem laid_nil (tokens : List Token) : Laid tokens [] [] :=
  ⟨List.forall_mem_nil _, List.forall_mem_nil _⟩

theorem Laid.push {done : List Token} (h : Laid tokens done items)
    (htaken : ∀ tok ∈ taken, tok.span.Within i.span) (hi : i.Throughout (Item.Woven tokens)) :
    Laid tokens (done ++ taken) (i :: items) := by
  refine ⟨fun tok htok => ?_, List.forall_mem_cons.2 ⟨hi, h.woven⟩⟩
  rcases List.mem_append.1 htok with htok | htok
  · obtain ⟨j, hj, hwithin⟩ := h.holds tok htok
    exact ⟨j, List.mem_cons_of_mem _ hj, hwithin⟩
  · exact ⟨i, List.mem_cons_self, htaken tok htok⟩

theorem MadeOf.laid {ts rest : List Token} (h : MadeOf ts items rest) (hts : ts <:+ tokens) :
    ∃ run, ts = run ++ rest ∧ Laid tokens run items ∧
      Span.coverAll (run.map Token.span) = Span.coverAll (items.map Item.span) := by
  obtain ⟨⟨run, hrun, hcover, hholds⟩, hplain⟩ := h
  exact ⟨run, hrun, ⟨hholds, fun i hi => (hplain i hi).imp fun _ hplain =>
    (hplain.mono hts.isInfix).woven⟩, hcover⟩

/-- A block is woven of the tokens from brace to brace. -/
theorem block_woven {brace close : Token} {inner : List Token}
    (hrun : brace :: (inner ++ [close]) <:+: tokens) (hinner : Laid tokens inner items)
    (hopen : brace.kind = .openBrace) (hclose : close.kind = .closeBrace) :
    (Item.node .block (brace.span.cover close.span) items.reverse).Throughout
      (Item.Woven tokens) := by
  have hends : (brace.span.cover close.span).Ends (brace :: (inner ++ [close])) :=
    (Span.ends_token List.mem_cons_self).cover (Span.ends_token (by simp))
  refine Item.throughout_node ⟨_, hrun, hends, fun tok htok hcomment => ?_⟩
    fun c hc => hinner.woven c (List.mem_reverse.1 hc)
  -- a comment between the braces is none of them
  rcases List.mem_cons.1 htok with rfl | htok
  · exact absurd hcomment (Token.not_comment_of_brace (.inl hopen))
  · rcases List.mem_append.1 htok with htok | htok
    · obtain ⟨i, hi, hwithin⟩ := hinner.holds tok htok
      exact ⟨i, List.mem_reverse.2 hi, hwithin⟩
    · rw [List.mem_singleton.1 htok] at hcomment
      exact absurd hcomment (Token.not_comment_of_brace (.inr hclose))

/-- The item that owns a block is woven of the tokens of its head and those from brace to
brace, and holds all of them. -/
theorem OpenBlock.close_woven {b : OpenBlock} {close : Token} {head inner : List Token}
    (hinOrder : Token.InOrder tokens)
    (hrun : head ++ b.brace :: (inner ++ [close]) <:+: tokens)
    (hhead : Laid tokens head b.head)
    (hcover : Span.coverAll (head.map Token.span) = Span.coverAll (b.head.map Item.span))
    (hinner : Laid tokens inner items) (hopen : b.brace.kind = .openBrace)
    (hclose : close.kind = .closeBrace) :
    (b.close items close).Throughout (Item.Woven tokens) ∧
      ∀ tok ∈ head ++ b.brace :: (inner ++ [close]),
        tok.span.Within (b.close items close).span := by
  let block := Item.node .block (b.brace.span.cover close.span) items.reverse
  have hbraces : b.brace :: (inner ++ [close]) <:+: tokens :=
    (List.suffix_append head _).isInfix.trans hrun
  have hblock : block.Throughout (Item.Woven tokens) := block_woven hbraces hinner hopen hclose
  have hholds : ∀ tok ∈ head ++ b.brace :: (inner ++ [close]),
      ∃ i ∈ b.head ++ [block], tok.span.Within i.span := by
    intro tok htok
    rcases List.mem_append.1 htok with htok | htok
    · obtain ⟨i, hi, hwithin⟩ := hhead.holds tok htok
      exact ⟨i, List.mem_append_left _ hi, hwithin⟩
    · exact ⟨block, List.mem_append_right _ (List.mem_singleton_self _),
        hinOrder.within_cover hbraces tok htok⟩
  -- the item spans the tokens of its head and the two braces
  have hspan : Span.coverAll ((head ++ [b.brace, close]).map Token.span) =
      some (b.close items close).span := by
    rw [b.close_span, List.map_append, Span.coverAll_append, hcover]
    rfl
  have hends : (b.close items close).span.Ends (head ++ b.brace :: (inner ++ [close])) := by
    refine (Span.ends_coverAll_tokens hspan).mono fun tok htok => ?_
    have hbrace : tok ∈ head ∨ tok = b.brace ∨ tok = close := by simpa using htok
    rcases hbrace with hhead | rfl | rfl <;> simp [*]
  constructor
  · refine Item.throughout_gather ⟨_, hrun, hends, fun tok htok _ => ?_⟩ fun c hc => ?_
    · obtain ⟨i, hi, hwithin⟩ := hholds tok htok
      exact ⟨i, (mem_stableSort _ _ i).2 hi, hwithin⟩
    · rcases List.mem_append.1 hc with hc | hc
      · exact hhead.woven c hc
      · rw [List.mem_singleton.1 hc]
        exact hblock
  · intro tok htok
    obtain ⟨i, hi, hwithin⟩ := hholds tok htok
    exact hwithin.trans
      (Span.within_coverAll (b.coverAll_close items close) (List.mem_map_of_mem hi))

namespace Reading

/-- The tokens that are done went into the complete items.  What stands around the innermost
block is described in the same way, followed by the head of the block and its brace. -/
inductive Weave (tokens : List Token) : List Token → List OpenBlock → List Item → Prop
  | top {done : List Token} {items : List Item} :
      Laid tokens done items → Weave tokens done [] items
  | block {done head inner : List Token} {b : OpenBlock} {outer : List OpenBlock}
      {items : List Item} :
      Weave tokens done outer b.before → Laid tokens head b.head →
      Span.coverAll (head.map Token.span) = Span.coverAll (b.head.map Item.span) →
      b.brace.kind = .openBrace → Laid tokens inner items →
      Weave tokens (done ++ (head ++ b.brace :: inner)) (b :: outer) items

variable {done : List Token} {blocks : List OpenBlock} {r next : Reading}

theorem Weave.push (h : Weave tokens done blocks items)
    (htaken : ∀ tok ∈ taken, tok.span.Within i.span) (hi : i.Throughout (Item.Woven tokens)) :
    Weave tokens (done ++ taken) blocks (i :: items) := by
  cases h with
  | top hlaid => exact .top (hlaid.push htaken hi)
  | block houter hhead hcover hopen hinner =>
    rw [List.append_assoc, List.append_assoc, List.cons_append]
    exact .block houter hhead hcover hopen (hinner.push htaken hi)

/-- The tokens in front of those that are left went into what was read. -/
def Woven (tokens : List Token) (r : Reading) : Prop :=
  ∃ done, tokens = done ++ r.rest ∧ Weave tokens done r.blocks r.items

theorem Woven.step (h : r.Woven tokens) (hinOrder : Token.InOrder tokens)
    (hstep : r.step = .more next) : next.Woven tokens := by
  obtain ⟨done, hdone, hweave⟩ := h
  have hrest : r.rest <:+ tokens := ⟨done, hdone.symm⟩
  cases next_of_step hstep with
  | @item i rest hmade =>
    obtain ⟨run, hrun, hlaid, hcover⟩ := hmade.laid hrest
    refine ⟨done ++ run, by rw [hdone, hrun, List.append_assoc], hweave.push (fun tok htok => ?_)
      (hlaid.woven i (List.mem_singleton_self i))⟩
    obtain ⟨j, hj, hwithin⟩ := hlaid.holds tok htok
    rwa [List.mem_singleton.1 hj] at hwithin
  | @opened kind head brace rest _ _ hopen hmade =>
    obtain ⟨run, hrun, hlaid, hcover⟩ := hmade.laid hrest
    refine ⟨_, ?_, .block (b := ⟨kind, head, brace, r.items⟩) hweave hlaid hcover hopen
      (laid_nil tokens)⟩
    rw [hdone, hrun, List.append_assoc, List.append_assoc]
    rfl
  | @closed b outer close rest hblocks hclose hleft =>
    rw [hblocks] at hweave
    rw [hleft] at hdone
    cases hweave with
    | @block done head inner _ _ _ houter hhead hcover hopen hinner =>
      have hsplit : tokens = (done ++ (head ++ b.brace :: (inner ++ [close]))) ++ rest := by
        rw [hdone]
        simp
      have hrun : head ++ b.brace :: (inner ++ [close]) <:+: tokens := ⟨done, rest, hsplit.symm⟩
      obtain ⟨hwoven, hholds⟩ := b.close_woven hinOrder hrun hhead hcover hinner hopen hclose
      exact ⟨_, hsplit, houter.push hholds hwoven⟩

theorem Woven.run (h : r.Woven tokens) (hinOrder : Token.InOrder tokens)
    (hrun : r.run = .ok items) :
    (∀ tok ∈ tokens, ∃ i ∈ items, tok.span.Within i.span) ∧
      ∀ i ∈ items, i.Throughout (Item.Woven tokens) := by
  fun_induction Reading.run r with
  | case1 r items' hstep =>
    cases hrun
    have hr := finished_of_step hstep
    subst hr
    obtain ⟨done, hdone, hweave⟩ := h
    cases hweave with
    | top hlaid =>
      rw [List.append_nil] at hdone
      refine ⟨fun tok htok => ?_, fun i hi => hlaid.woven i (List.mem_reverse.2 hi)⟩
      obtain ⟨i, hi, hwithin⟩ := hlaid.holds tok (hdone ▸ htok)
      exact ⟨i, List.mem_reverse.1 hi, hwithin⟩
  | case2 r e hstep => cases hrun
  | case3 r next hstep ih => exact ih (h.step hinOrder hstep) hrun

end Reading

/-- Every token of a sheet lies in an item, and all items are woven of the tokens. -/
theorem woven_of_parse {t : Text} (h : parse t = .ok items) (hlex : Token.lex t = .ok tokens) :
    (∀ tok ∈ tokens, ∃ i ∈ items, tok.span.Within i.span) ∧
      ∀ i ∈ items, i.Throughout (Item.Woven tokens) := by
  unfold parse at h
  rw [hlex] at h
  have hstart : (Reading.start tokens).Woven tokens := ⟨[], rfl, .top (laid_nil tokens)⟩
  exact hstart.run (Token.lex_inOrder hlex) h

end Grammar

/-! ## The way down -/

namespace Item

/-- The item is a leaf that reaches over the span. -/
def LeafOver (s : Span) : Item → Prop
  | leaf _ inner => s.Within inner
  | _ => False

instance (s : Span) : DecidablePred (LeafOver s)
  | leaf _ _ => inferInstanceAs (Decidable (_ ∧ _))
  | comment _ _ => .isFalse id
  | node _ _ _ => .isFalse id

theorem mem_walkAll_of_mem {items : List Item} {i : Item} {e : Nat × Item} {depth : Nat}
    (hi : i ∈ items) (h : e ∈ walk depth i) : e ∈ walkAll depth items := by
  obtain ⟨before, after, rfl⟩ := List.append_of_mem hi
  rw [walkAll_append, walkAll]
  exact List.mem_append_right _ (List.mem_append_left _ h)

/-- A walk meets all that occurs in the tree. -/
theorem exists_mem_walk_of_occurs {i j : Item} (h : Occurs j i) (depth : Nat) :
    ∃ d, (d, j) ∈ walk depth i := by
  induction h generalizing depth with
  | here =>
    obtain ⟨below, hwalk⟩ := walk_head depth j
    exact ⟨depth, hwalk ▸ List.mem_cons_self⟩
  | under hc _ ih =>
    obtain ⟨d, hd⟩ := ih (depth + 1)
    refine ⟨d, ?_⟩
    rw [walk]
    exact List.mem_cons_of_mem _ (mem_walkAll_of_mem hc hd)

/-- What is read of the tokens is woven of them, and all comments in it are tokens. -/
structure ReadOf (tokens : List Token) (i : Item) : Prop where
  woven : i.Throughout (Woven tokens)
  comments : i.Throughout fun j => j.kind? = none → ∃ tok ∈ tokens, tok.comment? = some j

theorem ReadOf.of_mem {tokens : List Token} {kind : ItemKind} {span : Span}
    {children : List Item} (h : (node kind span children).ReadOf tokens) {c : Item}
    (hc : c ∈ children) : c.ReadOf tokens :=
  ⟨h.woven.of_mem hc, h.comments.of_mem hc⟩

variable {tokens : List Token} {place : Nat} {tok : Token} {a b c : Item}

mutual
/-- The way down goes on as long as there are parts, so it meets one item without parts. -/
theorem eq_of_mem_path (ha : a.children = []) (hb : b.children = []) :
    ∀ {i : Item}, a ∈ path place i → b ∈ path place i → a = b
  | .leaf _ _, hain, hbin => by
    rw [path, List.mem_singleton] at hain hbin
    rw [hain, hbin]
  | .comment _ _, hain, hbin => by
    rw [path, List.mem_singleton] at hain hbin
    rw [hain, hbin]
  | .node kind span children, hain, hbin => by
    rw [path, List.mem_cons] at hain hbin
    have hnone : children = [] → ∀ j, j ∉ pathIn place children := by
      rintro rfl j hj
      rw [pathIn] at hj
      exact List.not_mem_nil hj
    rcases hain with rfl | hain
    · rcases hbin with rfl | hbin
      · rfl
      · exact absurd hbin (hnone ha b)
    · rcases hbin with rfl | hbin
      · exact absurd hain (hnone hb a)
      · exact eq_of_mem_pathIn ha hb hain hbin

theorem eq_of_mem_pathIn (ha : a.children = []) (hb : b.children = []) :
    ∀ {items : List Item}, a ∈ pathIn place items → b ∈ pathIn place items → a = b
  | [], hain, _ => by
    rw [pathIn] at hain
    exact absurd hain List.not_mem_nil
  | i :: rest, hain, hbin => by
    rw [pathIn] at hain hbin
    by_cases htouches : i.span.touches place = true
    · rw [if_pos htouches] at hain hbin
      exact eq_of_mem_path ha hb hain hbin
    · rw [if_neg htouches] at hain hbin
      exact eq_of_mem_pathIn ha hb hain hbin
end

mutual
/-- The way down to a place in a comment leads through items that enclose the comment.  It
ends at the comment or at a leaf over it. -/
theorem mem_path_of_surrounds (h : Token.Surrounds tokens place tok)
    (hinOrder : Token.InOrder tokens) (hcomment : tok.comment? = some c) :
    ∀ {i : Item}, i.ReadOf tokens → i.span.touches place = true →
      c ∈ path place i ∨ ∃ j ∈ path place i, j.LeafOver tok.span
  | .leaf kind span, hread, htouches => by
    have hwithin : tok.span.Within span :=
      h.within hinOrder (hread.woven _ .here).ends htouches
    rw [path]
    exact .inr ⟨.leaf kind span, List.mem_singleton_self _, hwithin⟩
  | .comment style span, hread, htouches => by
    obtain ⟨u, hu, hucomment⟩ := hread.comments _ .here rfl
    have hspan : span = u.span := Token.comment?_span hucomment
    have hwithin : tok.span.Within span :=
      h.within hinOrder (hread.woven _ .here).ends htouches
    obtain rfl := hinOrder.eq_of_within h.mem hu (hspan ▸ hwithin)
    rw [path, Option.some.inj (hcomment.symm.trans hucomment)]
    exact .inl (List.mem_singleton_self _)
  | .node kind span children, hread, htouches => by
    obtain ⟨run, hrun, hends, hholds⟩ := hread.woven _ .here
    have hwithin : tok.span.Within span :=
      h.within hinOrder (hread.woven _ .here).ends htouches
    have htok := hinOrder.mem_run hrun hends h.mem hwithin
    obtain ⟨d, hd, hdwithin⟩ := hholds tok htok (by rw [hcomment]; rfl)
    rw [path]
    rcases mem_pathIn_of_surrounds h hinOrder hcomment (fun _ hc => hread.of_mem hc)
      ⟨d, hd, hdwithin⟩ with hmem | ⟨j, hj, hover⟩
    · exact .inl (List.mem_cons_of_mem _ hmem)
    · exact .inr ⟨j, List.mem_cons_of_mem _ hj, hover⟩

theorem mem_pathIn_of_surrounds (h : Token.Surrounds tokens place tok)
    (hinOrder : Token.InOrder tokens) (hcomment : tok.comment? = some c) :
    ∀ {items : List Item}, (∀ i ∈ items, i.ReadOf tokens) →
      (∃ i ∈ items, tok.span.Within i.span) →
      c ∈ pathIn place items ∨ ∃ j ∈ pathIn place items, j.LeafOver tok.span
  | [], _, hheld => by
    obtain ⟨i, hi, -⟩ := hheld
    exact absurd hi List.not_mem_nil
  | i :: rest, hread, hheld => by
    obtain ⟨hi, hrest⟩ := List.forall_mem_cons.1 hread
    rw [pathIn]
    split
    · exact mem_path_of_surrounds h hinOrder hcomment hi ‹_›
    · rename_i haside
      refine mem_pathIn_of_surrounds h hinOrder hcomment hrest ?_
      obtain ⟨j, hj, hwithin⟩ := hheld
      rcases List.mem_cons.1 hj with rfl | hj
      · exact absurd (h.touches hwithin) haside
      · exact ⟨j, hj, hwithin⟩
end

end Item

namespace Completion

variable {s : Snapshot} {items : List Item} {tokens : List Token} {tok : Token}
  {style : CommentStyle} {span : Span} {place : Nat}

/-- A place in a comment counts as such unless a leaf stands on the way down to it that reaches
over the comment. -/
theorem insideComment_iff (hparse : Grammar.parse s.text = .ok items)
    (hlex : Token.lex s.text = .ok tokens) (htok : tok ∈ tokens)
    (hcomment : tok.comment? = some (.comment style span)) (hstart : span.start < place)
    (hstop : place < span.stop ∨ style = .line ∧ place = span.stop) :
    insideComment (.parsed s items) place = true ↔
      ∀ j ∈ (Tree.parsed s items).pathAt place, ¬j.LeafOver span := by
  have hspan : span = tok.span := Token.comment?_span hcomment
  constructor
  · intro hinside j hj hover
    obtain ⟨other, inner, hmem, -⟩ := insideComment_iff_remarked.1 hinside
    have hleaf : j.children = [] := by
      cases j with
      | leaf kind inner => rfl
      | comment style inner => exact hover.elim
      | node kind inner children => exact hover.elim
    obtain rfl := Item.eq_of_mem_pathIn rfl hleaf hmem hj
    exact hover
  · intro hfree
    obtain ⟨-, tokens', hlex', hshaped⟩ := Grammar.row_of_parse hparse
    cases hlex.symm.trans hlex'
    obtain ⟨hheld, hwoven⟩ := Grammar.woven_of_parse hparse hlex
    have hsurrounds := Token.surrounds_of_comment hlex htok hcomment hstart hstop
    have hread : ∀ i ∈ items, i.ReadOf tokens := fun i hi => ⟨hwoven i hi, (hshaped i hi).comments⟩
    rcases Item.mem_pathIn_of_surrounds hsurrounds (Token.lex_inOrder hlex) hcomment hread
      (hheld tok htok) with hmem | ⟨j, hj, hover⟩
    · exact insideComment_iff_remarked.2 ⟨style, span, hmem, hstart, hstop⟩
    · exact absurd (hspan ▸ hover) (hfree j hj)

/-- Nothing is offered in a comment that no leaf of the tree reaches over. -/
theorem derive_in_comment (hparse : Grammar.parse s.text = .ok items)
    (hlex : Token.lex s.text = .ok tokens) (htok : tok ∈ tokens)
    (hcomment : tok.comment? = some (.comment style span)) (live : Text) (position : Nat)
    (hstart : span.start < min (min position live.length) s.text.length)
    (hstop : min (min position live.length) s.text.length < span.stop ∨
      style = .line ∧ min (min position live.length) s.text.length = span.stop)
    (hfree : ∀ e ∈ Item.walkAll 0 items, ¬e.2.LeafOver span) :
    derive (.parsed s items) live position = [] := by
  have hinside : insideComment (.parsed s items)
      (min (min position live.length) s.text.length) = true := by
    refine (insideComment_iff hparse hlex htok hcomment hstart hstop).2 fun j hj hover => ?_
    obtain ⟨i, hi, hoccurs⟩ := Item.exists_occurs_of_mem_pathIn hj
    obtain ⟨d, hd⟩ := Item.exists_mem_walk_of_occurs hoccurs 0
    exact hfree (d, j) (Item.mem_walkAll_of_mem hi hd) hover
  exact derive_of_insideComment hinside

/-- A sheet with a line comment in a block. -/
def remarked : Text := "$a: 1; x \x7b // b\n\x7d".toList

theorem derive_in_comment_remarked :
    ∃ items, Grammar.parse remarked = .ok items ∧ remarked.CommentAt 15 ∧
      derive (.parsed ⟨0, .buffer 0, remarked⟩ items) remarked 15 = [] ∧
      derive (.parsed ⟨0, .buffer 0, remarked⟩ items) remarked 10 ≠ [] := by
  let tok : Token := ⟨.lineComment, 11, "// b".toList⟩
  obtain ⟨tokens, hlex, hscan⟩ := exists_ok (r := Token.lex remarked) (p := (·.contains tok))
    (by decide +kernel)
  obtain ⟨items, hparse, hread⟩ := exists_ok (r := Grammar.parse remarked)
    (p := fun items => derive (.parsed ⟨0, .buffer 0, remarked⟩ items) remarked 10 != [] &&
      (Item.walkAll 0 items).all fun e => !decide (e.2.LeafOver tok.span)) (by decide +kernel)
  have htok : tok ∈ tokens := List.contains_iff_mem.1 hscan
  obtain ⟨hbefore, hleaves⟩ := Bool.and_eq_true_iff.1 hread
  have hfree : ∀ e ∈ Item.walkAll 0 items, ¬e.2.LeafOver tok.span := by
    simpa using hleaves
  refine ⟨items, hparse, ⟨tokens, hlex, tok, htok, .line, tok.span, rfl, by decide,
    .inr ⟨rfl, rfl⟩⟩, ?_, bne_iff_ne.1 hbefore⟩
  exact derive_in_comment (s := ⟨0, .buffer 0, remarked⟩) hparse hlex htok rfl remarked 15
    (by decide) (by decide) hfree

/-- A sheet with a comment in a value. -/
def valueRemarked : Text := "$a: 1 /* b */ 2;".toList

/-- The value reaches over its comment, so names are offered in the comment. -/
theorem derive_over_comment :
    ∃ items, Grammar.parse valueRemarked = .ok items ∧ valueRemarked.CommentAt 9 ∧
      derive (.parsed ⟨0, .buffer 0, valueRemarked⟩ items) valueRemarked 9 ≠ [] := by
  let tok : Token := ⟨.blockComment, 6, "/* b */".toList⟩
  obtain ⟨tokens, hlex, hscan⟩ := exists_ok (r := Token.lex valueRemarked)
    (p := (·.contains tok)) (by decide +kernel)
  obtain ⟨items, hparse, hread⟩ := exists_ok (r := Grammar.parse valueRemarked)
    (p := fun items => derive (.parsed ⟨0, .buffer 0, valueRemarked⟩ items) valueRemarked 9 != [])
    (by decide +kernel)
  have htok : tok ∈ tokens := List.contains_iff_mem.1 hscan
  exact ⟨items, hparse, ⟨tokens, hlex, tok, htok, .block, tok.span, rfl, by decide,
    .inl (by decide)⟩, bne_iff_ne.1 hread⟩

end Completion
end LiveSheet
