import LiveSheet.Proofs.Comments

/-!
# Siblings

How the parts of an item lie beside each other.  A part stands behind the part before it, or it
is a comment or a flag among the tokens that the part before it covers.  The tree as a whole is
therefore met in the order of the text, and an item spans just what its parts span.
-/

namespace LiveSheet

namespace Token

variable {tokens run run' : List Token}

theorem InOrder.sublist (h : InOrder tokens) (hsub : run.Sublist tokens) : InOrder run :=
  ⟨h.ordered.sublist hsub, fun tok htok => h.nonempty tok (hsub.subset htok)⟩

theorem InOrder.left (h : InOrder (run ++ run')) : InOrder run :=
  h.sublist (List.sublist_append_left _ _)

theorem InOrder.right (h : InOrder (run ++ run')) : InOrder run' :=
  h.sublist (List.sublist_append_right _ _)

/-- What ends with a token stands before all that begins with a later one. -/
theorem InOrder.stop_le_start {s u : Span} (h : InOrder (run ++ run')) (hs : s.Ends run)
    (hu : u.Ends run') : s.stop ≤ u.start := by
  obtain ⟨-, b, hb, hstop⟩ := hs
  obtain ⟨⟨a, ha, hstart⟩, -⟩ := hu
  rw [← hstop, ← hstart]
  exact (List.pairwise_append.1 h.ordered).2.2 b hb a ha

end Token

namespace Item

/-- A leaf that covers the tokens around the other item, which is none of what the leaf stands
for: a comment, or a flag in a value. -/
structure Encloses (a b : Item) : Prop where
  leaf : ∃ kind ∈ coverKinds, a = .leaf kind a.span
  aside : b.kind? = none ∨ a.kind? = some .value ∧ b.kind? = some .flag
  inside : b.span.Inside a.span

/-- The second item stands behind the first one, or among what the first one covers. -/
def Follows (a b : Item) : Prop := a.stop ≤ b.start ∨ a.Encloses b

def Apart (a b : Item) : Prop := a.Follows b ∨ b.Follows a

/-- The parts of the item lie in it, each following those before it, and unless the item is a
block, it spans no more than they do. -/
structure Arranged (i : Item) : Prop where
  within : ∀ c ∈ i.children, c.span.Within i.span
  follows : i.children.Pairwise Follows
  spans : ∀ kind span children, i = .node kind span children → kind ≠ .block →
    Span.coverAll (children.map Item.span) = some span

variable {a b c i : Item} {items items' : List Item}

theorem arranged_of_children_nil (h : i.children = [])
    (hi : ∀ kind span, i ≠ .node kind span []) : i.Arranged := by
  refine ⟨?_, ?_, ?_⟩
  · rw [h]
    exact List.forall_mem_nil _
  · rw [h]
    exact List.Pairwise.nil
  · rintro kind span children rfl
    obtain rfl : children = [] := h
    exact absurd rfl (hi kind span)

theorem arranged_leaf {kind : ItemKind} {span : Span} : (leaf kind span).Arranged :=
  arranged_of_children_nil rfl nofun

theorem arranged_comment {style : CommentStyle} {span : Span} : (comment style span).Arranged :=
  arranged_of_children_nil rfl nofun

/-- A block between braces is arranged, as its items tile it. -/
theorem arranged_of_braced {t : Text} (h : i.Braced t) (hblock : i.IsBlock) : i.Arranged := by
  refine ⟨fun c hc => ?_, ?_, ?_⟩
  · obtain ⟨hlo, -, hhi⟩ := h.tiling.inside c.span (List.mem_map_of_mem hc)
    have hstart : i.start = i.span.start := rfl
    have hstop : i.stop = i.span.stop := rfl
    refine ⟨?_, ?_⟩ <;> omega
  · exact (List.pairwise_map.1 h.tiling.ordered).imp fun hle => .inl hle
  · rintro kind span children rfl hkind
    exact absurd (Option.some.inj hblock) hkind

/-- Of two items apart, the one that begins first is followed by the other one. -/
theorem Apart.follows (h : a.Apart b) (hstart : a.start ≤ b.start) (hb : b.start < b.stop) :
    a.Follows b := by
  rcases h with h | hbehind | hencloses
  · exact h
  · omega
  · have hlt : b.start < a.start := hencloses.inside.1
    omega

/-- An item apart from a leaf stays so when the leaf covers one more span, behind both of
them.  If the item stood behind the leaf, then it is enclosed by it now. -/
theorem Apart.widen {kind : ItemKind} {s u : Span} (h : a.Apart (.leaf kind s))
    (hkind : kind ∈ coverKinds) (haside : a.kind? = none ∨ kind = .value ∧ a.kind? = some .flag)
    (hne : s.start < s.stop) (hs : s.stop ≤ u.start) (ha : a.stop ≤ u.start)
    (hu : u.start < u.stop) : a.Apart (.leaf kind (s.cover u)) := by
  have hstart : (s.cover u).start = s.start := Nat.min_eq_left (by omega)
  have hstop : (s.cover u).stop = u.stop := Nat.max_eq_right (by omega)
  have hencloses (hlt : s.start < a.start) : (leaf kind (s.cover u)).Encloses a := by
    refine ⟨⟨kind, hkind, rfl⟩, haside.imp_right ?_, ?_⟩
    · rintro ⟨rfl, hflag⟩
      exact ⟨rfl, hflag⟩
    · have hlo : (s.cover u).start < a.start := by omega
      have hhi : a.stop < (s.cover u).stop := by omega
      exact ⟨hlo, hhi⟩
  rcases h with (hle | hinside) | (hle | hinside)
  · have hle : a.stop ≤ s.start := hle
    exact .inl (.inl (Nat.le_trans hle (Nat.le_of_eq hstart.symm)))
  · -- the leaf is none of those that stand aside
    rcases hinside.aside with hnone | ⟨-, hflag⟩
    · cases hnone
    · exact absurd (Option.some.inj hflag) (ne_of_mem_coverKinds hkind).2.2
  · have hle : s.stop ≤ a.start := hle
    exact .inr (.inr (hencloses (Nat.lt_of_lt_of_le hne hle)))
  · exact .inr (.inr (hencloses hinside.inside.1))

theorem start_total (a b : Item) :
    decide (a.start ≤ b.start) = true ∨ decide (b.start ≤ a.start) = true := by
  simp only [decide_eq_true_eq]
  exact Nat.le_total _ _

theorem start_trans (a b c : Item) (hab : decide (a.start ≤ b.start) = true)
    (hbc : decide (b.start ≤ c.start) = true) : decide (a.start ≤ c.start) = true := by
  simp only [decide_eq_true_eq] at *
  exact Nat.le_trans hab hbc

/-- An item that is gathered from items apart is arranged. -/
theorem arranged_gather {kind : ItemKind} (hne : items ≠ [])
    (hnonempty : ∀ i ∈ items, i.start < i.stop) (hapart : items.Pairwise Apart) :
    (gather kind items).Arranged := by
  have hcover := coverAll_gather kind hne
  have hperm := stableSort_perm (fun a b : Item => a.start ≤ b.start) items
  refine ⟨fun c hc => ?_, ?_, ?_⟩
  · exact Span.within_coverAll hcover (List.mem_map_of_mem ((mem_stableSort _ _ c).1 hc))
  · -- the sort puts the one that begins first in front
    have hsorted := stableSort_pairwise start_total start_trans items
    have hboth := hsorted.imp₂ (fun a b hle hap => And.intro (of_decide_eq_true hle) hap)
      (hperm.symm.pairwise hapart fun {_ _} => Or.symm)
    exact hboth.imp_of_mem fun _ hb h => h.2.follows h.1
      (hnonempty _ ((mem_stableSort _ _ _).1 hb))
  · rintro kind' span children heq -
    cases heq
    rw [Span.coverAll_perm (hperm.map Item.span), hcover]
    rfl

end Item

namespace Grammar

/-- The items begin and end with tokens of the run, and they stand apart.  Nothing that occurs in
them is empty, and all of it is arranged. -/
structure Spread (run : List Token) (items : List Item) : Prop where
  ends : ∀ i ∈ items, i.span.Ends run
  nonempty : ∀ i ∈ items, i.Throughout fun j => j.start < j.stop
  apart : items.Pairwise Item.Apart
  arranged : ∀ i ∈ items, i.Throughout fun j => ¬j.IsBlock → j.Arranged

variable {run run' : List Token} {items items' asides : List Item} {t : Token} {i : Item}
  {kind : ItemKind} {s : Span}

namespace Spread

theorem start_lt_stop (h : Spread run items) (hi : i ∈ items) : i.start < i.stop :=
  h.nonempty i hi i .here

theorem nil : Spread [] [] :=
  ⟨List.forall_mem_nil _, List.forall_mem_nil _, List.Pairwise.nil, List.forall_mem_nil _⟩

theorem singleton (hends : i.span.Ends run) (hne : i.Throughout fun j => j.start < j.stop)
    (hi : i.Throughout fun j => ¬j.IsBlock → j.Arranged) : Spread run [i] := by
  have hmem : ∀ j ∈ [i], j = i := fun j hj => List.mem_singleton.1 hj
  exact ⟨fun j hj => hmem j hj ▸ hends, fun j hj => hmem j hj ▸ hne, List.pairwise_singleton _ _,
    fun j hj => hmem j hj ▸ hi⟩

theorem perm (h : Spread run items) (hperm : items'.Perm items) : Spread run items' :=
  ⟨fun i hi => h.ends i (hperm.mem_iff.1 hi), fun i hi => h.nonempty i (hperm.mem_iff.1 hi),
    hperm.symm.pairwise h.apart fun {_ _} => Or.symm, fun i hi => h.arranged i (hperm.mem_iff.1 hi)⟩

theorem append (hord : Token.InOrder (run ++ run')) (h : Spread run items)
    (h' : Spread run' items') : Spread (run ++ run') (items ++ items') := by
  refine ⟨fun i hi => ?_, ?_, ?_, ?_⟩
  · rcases List.mem_append.1 hi with hi | hi
    · exact (h.ends i hi).mono fun _ => List.mem_append_left _
    · exact (h'.ends i hi).mono fun _ => List.mem_append_right _
  · exact List.forall_mem_append.2 ⟨h.nonempty, h'.nonempty⟩
  · refine List.pairwise_append.2 ⟨h.apart, h'.apart, fun a ha b hb => ?_⟩
    exact .inl (.inl (hord.stop_le_start (h.ends a ha) (h'.ends b hb)))
  · exact List.forall_mem_append.2 ⟨h.arranged, h'.arranged⟩

theorem leaf (hord : Token.InOrder run) (hcover : Span.coverAll (run.map Token.span) = some s) :
    Spread run [.leaf kind s] := by
  refine singleton (Span.ends_coverAll_tokens hcover) (Item.throughout_leaf ?_)
    (Item.throughout_leaf fun _ => Item.arranged_leaf)
  -- any token of the run lies in the leaf
  obtain ⟨⟨a, ha, -⟩, -⟩ := Span.ends_coverAll_tokens hcover
  obtain ⟨hstart, hstop⟩ := Span.within_coverAll hcover (List.mem_map_of_mem ha)
  have hne := hord.nonempty a ha
  exact Nat.lt_of_le_of_lt hstart (Nat.lt_of_lt_of_le hne hstop)

theorem token (kind : ItemKind) (hord : Token.InOrder [t]) : Spread [t] [t.leaf kind] :=
  leaf hord rfl

theorem comment (hord : Token.InOrder [t]) (h : t.comment? = some i) : Spread [t] [i] := by
  have hspan := Token.comment?_span h
  have hends : i.span.Ends [t] := hspan ▸ Span.ends_token (List.mem_singleton_self t)
  have hne : i.span.start < i.span.stop := by
    rw [hspan]
    exact hord.nonempty t (List.mem_singleton_self t)
  unfold Token.comment? at h
  split at h <;> cases h <;>
    exact singleton hends (Item.throughout_comment hne)
      (Item.throughout_comment fun _ => Item.arranged_comment)

theorem gather (h : Spread run items) (hne : items ≠ []) : Spread run [.gather kind items] := by
  have hcover := Item.coverAll_gather kind hne
  have hwithin : ∀ c ∈ items, c.span.Within (Item.gather kind items).span := fun c hc =>
    Span.within_coverAll hcover (List.mem_map_of_mem hc)
  refine singleton ?_ (Item.throughout_gather ?_ h.nonempty)
    (Item.throughout_gather (fun _ => ?_) h.arranged)
  · refine Span.ends_coverAll (fun u hu => ?_) hcover
    obtain ⟨c, hc, rfl⟩ := List.mem_map.1 hu
    exact h.ends c hc
  · obtain ⟨c, hc⟩ := List.exists_mem_of_ne_nil items hne
    obtain ⟨hstart, hstop⟩ := hwithin c hc
    exact Nat.lt_of_le_of_lt hstart (Nat.lt_of_lt_of_le (h.start_lt_stop hc) hstop)
  · exact Item.arranged_gather hne (fun _ => h.start_lt_stop) h.apart

/-- One more token is covered, and what stood behind the leaf is enclosed by it. -/
theorem widen (hord : Token.InOrder (run ++ [t])) (h : Spread run (asides ++ [.leaf kind s]))
    (hkind : kind ∈ Item.coverKinds)
    (hasides : ∀ i ∈ asides, i.kind? = none ∨ kind = .value ∧ i.kind? = some .flag) :
    Spread (run ++ [t]) (asides ++ [.leaf kind (s.cover t.span)]) := by
  obtain ⟨hends, hends'⟩ := List.forall_mem_append.1 h.ends
  obtain ⟨hnonempty, -⟩ := List.forall_mem_append.1 h.nonempty
  obtain ⟨hapart, -, hapart'⟩ := List.pairwise_append.1 h.apart
  obtain ⟨harranged, -⟩ := List.forall_mem_append.1 h.arranged
  have hleaf : s.Ends run := hends' _ (List.mem_singleton_self _)
  have hne : s.start < s.stop :=
    h.start_lt_stop (i := .leaf kind s) (List.mem_append_right _ (List.mem_singleton_self _))
  have htok : t.span.Ends [t] := Span.ends_token (List.mem_singleton_self t)
  have ht : t.start < t.stop := hord.right.nonempty t (List.mem_singleton_self t)
  refine ⟨List.forall_mem_append.2 ⟨fun i hi => ?_, ?_⟩,
    List.forall_mem_append.2 ⟨hnonempty, ?_⟩, List.pairwise_append.2
      ⟨hapart, List.pairwise_singleton _ _, fun a ha b hb => ?_⟩,
    List.forall_mem_append.2 ⟨harranged, ?_⟩⟩
  · exact (hends i hi).mono fun _ => List.mem_append_left _
  · refine List.forall_mem_singleton.2 ?_
    exact (hleaf.mono fun _ => List.mem_append_left _).cover
      (htok.mono fun _ => List.mem_append_right _)
  · refine List.forall_mem_singleton.2 (Item.throughout_leaf ?_)
    exact Nat.lt_of_le_of_lt (Nat.min_le_left _ _) (Nat.lt_of_lt_of_le hne (Nat.le_max_left _ _))
  · rw [List.mem_singleton.1 hb]
    exact (hapart' a ha _ (List.mem_singleton_self _)).widen hkind (hasides a ha) hne
      (hord.stop_le_start hleaf htok) (hord.stop_le_start (hends a ha) htok) ht
  · refine List.forall_mem_singleton.2 ?_
    exact Item.throughout_leaf fun _ => Item.arranged_leaf

/-- The items between two braces, as one block. -/
theorem block {brace close : Token} {inner : List Token}
    (hord : Token.InOrder (brace :: (inner ++ [close]))) (h : Spread inner items) :
    Spread (brace :: (inner ++ [close])) [.node .block (brace.span.cover close.span) items] := by
  have hwithin := hord.within_cover (List.infix_refl _) brace List.mem_cons_self
  have hbrace := hord.nonempty brace List.mem_cons_self
  refine singleton ?_ (Item.throughout_node ?_ h.nonempty) ?_
  · exact (Span.ends_token List.mem_cons_self).cover (Span.ends_token (by simp))
  · exact Nat.lt_of_le_of_lt hwithin.1 (Nat.lt_of_lt_of_le hbrace hwithin.2)
  · exact Item.throughout_node (fun hno => absurd rfl hno) h.arranged

end Spread

/-- Whatever is read of tokens in order is spread over them. -/
theorem spread_compositional :
    Compositional fun run items => Token.InOrder run → Spread run items where
  nil _ := .nil
  append h h' hord := (h hord.left).append hord (h' hord.right)
  perm h hperm hord := (h hord).perm hperm
  comment hcomment hord := .comment hord hcomment
  token _ _ hord := .token _ hord
  widen h hkind hasides hord := (h hord.left).widen hord hkind hasides
  callable {name opening closing inner arguments} _ _ _ hcover hord := by
    have hsplit : Token.InOrder ([name] ++ (opening :: (inner ++ [closing]))) := hord
    exact Spread.append hsplit (.token _ hsplit.left) (.leaf hsplit.right hcover)
  gather h hne _ hord := (h hord).gather hne

theorem SheetForm.spread (h : SheetForm run items) : Token.InOrder run → Spread run items :=
  spread_compositional.sheet
    (fun _ _ hinner hord => .block hord (hinner (hord.sublist (by simp)))) h

theorem spread_of_parse {t : Text} (h : parse t = .ok items) :
    ∃ tokens, Token.lex t = .ok tokens ∧ Spread tokens items := by
  obtain ⟨tokens, hlex⟩ := exists_lex_of_parse h
  exact ⟨tokens, hlex, (sheetForm_of_parse h hlex).spread (Token.lex_inOrder hlex)⟩

/-- All that occurs in a sheet is arranged. -/
theorem arranged_of_parse {t : Text} (h : parse t = .ok items) :
    ∀ i ∈ items, i.Throughout Item.Arranged := by
  obtain ⟨tokens, -, hspread⟩ := spread_of_parse h
  obtain ⟨hrow, -⟩ := row_of_parse h
  intro i hi j hj
  by_cases hblock : j.IsBlock
  · exact Item.arranged_of_braced (hrow.sound i hi j hj hblock) hblock
  · exact hspread.arranged i hi j hj hblock

end Grammar

/-! ## The walk -/

namespace Item

theorem Follows.start_le {a b : Item} (h : a.Follows b) : a.start ≤ b.start := by
  rcases h with hle | hencloses
  · exact Nat.le_trans a.span.start_le_stop hle
  · exact Nat.le_of_lt hencloses.inside.1

theorem Occurs.within {i j : Item} (h : Occurs j i) (hi : i.Throughout Arranged) :
    j.span.Within i.span := by
  induction h with
  | here => exact Span.within_refl _
  | @under kind span children c hc _ ih =>
    exact (ih (hi.of_mem hc)).trans ((hi _ .here).within c hc)

mutual
/-- A walk over an arranged item meets what begins first before all else. -/
theorem walk_pairwise {depth : Nat} :
    ∀ {i : Item}, i.Throughout Arranged →
      (walk depth i).Pairwise fun e f => e.2.start ≤ f.2.start
  | .leaf _ _, _ => by
    rw [walk]
    exact List.pairwise_singleton _ _
  | .comment _ _, _ => by
    rw [walk]
    exact List.pairwise_singleton _ _
  | .node kind span children, h => by
    rw [walk]
    refine List.pairwise_cons.2 ⟨fun e he => ?_, ?_⟩
    · obtain ⟨c, hc, hoccurs⟩ := exists_occurs_of_mem_walkAll he
      exact (Occurs.within (.under hc hoccurs) h).1
    · exact walkAll_pairwise (fun _ hc => h.of_mem hc) (h _ .here).follows

theorem walkAll_pairwise {depth : Nat} :
    ∀ {items : List Item}, (∀ i ∈ items, i.Throughout Arranged) → items.Pairwise Follows →
      (walkAll depth items).Pairwise fun e f => e.2.start ≤ f.2.start
  | [], _, _ => by
    rw [walkAll]
    exact List.Pairwise.nil
  | i :: rest, h, hfollows => by
    obtain ⟨hi, hrest⟩ := List.forall_mem_cons.1 h
    obtain ⟨hfirst, hfollows⟩ := List.pairwise_cons.1 hfollows
    rw [walkAll]
    refine List.pairwise_append.2
      ⟨walk_pairwise hi, walkAll_pairwise hrest hfollows, fun e he f hf => ?_⟩
    obtain ⟨c, hc, hoccurs⟩ := exists_occurs_of_mem_walkAll hf
    have hstart : c.start ≤ f.2.start := (hoccurs.within (hrest c hc)).1
    rcases hfirst c hc with hbehind | hencloses
    · have hwithin := (occurs_of_mem_walk he).within hi
      have hbefore : e.2.start ≤ i.stop := Nat.le_trans e.2.span.start_le_stop hwithin.2
      omega
    · -- a leaf is all that a walk over it meets
      obtain ⟨kind, -, hleaf⟩ := hencloses.leaf
      rw [hleaf, walk, List.mem_singleton] at he
      have hbefore : i.start ≤ c.start := Follows.start_le (.inr hencloses)
      rw [he]
      exact Nat.le_trans hbefore hstart
end

/-- The span begins with the first of the parts and ends with the part that ends last. -/
structure SpansParts (span : Span) (parts : List Item) : Prop where
  begins : ∃ first ∈ parts.head?, span.start = first.start
  ends : ∃ last ∈ parts, span.stop = last.stop
  reaches : ∀ c ∈ parts, c.stop ≤ span.stop

theorem spansParts_of_coverAll {span : Span} {parts : List Item}
    (hcover : Span.coverAll (parts.map Item.span) = some span) (hfollows : parts.Pairwise Follows) :
    SpansParts span parts := by
  obtain ⟨⟨s, hs, hstart⟩, u, hu, hstop⟩ := Span.mem_of_coverAll hcover
  obtain ⟨a, ha, rfl⟩ := List.mem_map.1 hs
  obtain ⟨b, hb, rfl⟩ := List.mem_map.1 hu
  refine ⟨?_, ⟨b, hb, hstop.symm⟩, fun c hc => (Span.within_coverAll hcover
    (List.mem_map_of_mem hc)).2⟩
  cases parts with
  | nil => exact absurd ha List.not_mem_nil
  | cons first rest =>
    refine ⟨first, rfl, Nat.le_antisymm ?_ ?_⟩
    · exact (Span.within_coverAll hcover (List.mem_map_of_mem List.mem_cons_self)).1
    · rw [← hstart]
      rcases List.mem_cons.1 ha with rfl | ha
      · exact Nat.le_refl _
      · exact ((List.pairwise_cons.1 hfollows).1 a ha).start_le

end Item

namespace Grammar

variable {t : Text} {items : List Item}

/-- Siblings.  The parts of an item follow each other: a part begins behind the one before it,
or the one before it is a leaf that covers tokens on both sides of it, and it is a comment or a
flag.  In a block each part begins behind the one before it. -/
theorem parse_siblings (h : parse t = .ok items) :
    ∀ e ∈ Item.walkAll 0 items, e.2.children.Pairwise Item.Follows ∧
      (e.2.IsBlock → e.2.children.Pairwise fun a b => a.stop ≤ b.start) := by
  intro e he
  obtain ⟨i, hi, hoccurs⟩ := Item.exists_occurs_of_mem_walkAll he
  obtain ⟨hrow, -⟩ := row_of_parse h
  exact ⟨(arranged_of_parse h i hi e.2 hoccurs).follows,
    fun hblock => List.pairwise_map.1 (hrow.sound i hi e.2 hoccurs hblock).tiling.ordered⟩

/-- A value with a comment in it. -/
def remarkedValue : Text := "$x: 1 /* c */ 2;".toList

/-- Where its name, colon, value, comment and mark begin and end. -/
def remarkedValueEnds : List (Nat × Nat) := [(0, 2), (2, 3), (4, 15), (6, 13), (15, 16)]

theorem exists_parts_remarkedValue :
    ∃ items, parse remarkedValue = .ok items ∧ ∃ e ∈ Item.walkAll 0 items,
      e.2.children.map (fun c => (c.start, c.stop)) = remarkedValueEnds := by
  obtain ⟨items, hparse, hread⟩ := exists_ok (r := parse remarkedValue)
    (p := fun items => (Item.walkAll 0 items).any fun e =>
      e.2.children.map (fun c => (c.start, c.stop)) == remarkedValueEnds) (by decide +kernel)
  obtain ⟨e, he, hparts⟩ := List.any_eq_true.1 hread
  exact ⟨items, hparse, e, he, beq_iff_eq.1 hparts⟩

theorem parse_siblings_remarkedValue :
    ∃ items, parse remarkedValue = .ok items ∧ ∃ e ∈ Item.walkAll 0 items,
      e.2.children.map (fun c => (c.start, c.stop)) = remarkedValueEnds ∧
        e.2.children.Pairwise Item.Follows := by
  obtain ⟨items, hparse, e, he, hparts⟩ := exists_parts_remarkedValue
  exact ⟨items, hparse, e, he, hparts, (parse_siblings hparse e he).1⟩

/-- The value reaches over its comment, so the two overlap. -/
theorem parse_overlap :
    ∃ items, parse remarkedValue = .ok items ∧ ∃ e ∈ Item.walkAll 0 items,
      ¬e.2.children.Pairwise fun a b => a.stop ≤ b.start := by
  obtain ⟨items, hparse, e, he, hparts⟩ := exists_parts_remarkedValue
  refine ⟨items, hparse, e, he, fun hpairwise => ?_⟩
  have hends : (e.2.children.map fun c => (c.start, c.stop)).Pairwise fun a b => a.2 ≤ b.1 :=
    List.pairwise_map.2 hpairwise
  rw [hparts] at hends
  exact absurd hends (by decide)

/-- Order and containment.  A walk over a sheet meets its items in the order in which they begin.
The parts of an item lie in it, and an item other than a block spans just what its parts
span. -/
theorem parse_order (h : parse t = .ok items) :
    (Item.walkAll 0 items).Pairwise (fun e f => e.2.start ≤ f.2.start) ∧
      ∀ e ∈ Item.walkAll 0 items, (∀ c ∈ e.2.children, c.span.Within e.2.span) ∧
        ∀ kind span parts, e.2 = .node kind span parts → kind ≠ .block →
          Item.SpansParts span parts := by
  have harranged := arranged_of_parse h
  obtain ⟨hrow, -⟩ := row_of_parse h
  refine ⟨Item.walkAll_pairwise harranged ?_, fun e he => ?_⟩
  · exact (List.pairwise_map.1 hrow.tiling.ordered).imp fun hle => .inl hle
  · obtain ⟨i, hi, hoccurs⟩ := Item.exists_occurs_of_mem_walkAll he
    have hitem := harranged i hi e.2 hoccurs
    refine ⟨hitem.within, fun kind span parts heq hkind => ?_⟩
    have hfollows := hitem.follows
    rw [heq] at hfollows
    exact Item.spansParts_of_coverAll (hitem.spans kind span parts heq hkind) hfollows

/-- A rule with a comment in its selector and a flag in a value. -/
def remarkedRule : Text := "a /*x*/ b \x7b c: d !e f; \x7d".toList

theorem parse_order_remarkedRule :
    ∃ items, parse remarkedRule = .ok items ∧
      (Item.walkAll 0 items).map (fun e => e.2.start) = [0, 0, 2, 10, 12, 12, 13, 15, 17, 21] ∧
      (Item.walkAll 0 items).Pairwise (fun e f => e.2.start ≤ f.2.start) ∧
      ∃ e ∈ Item.walkAll 0 items,
        e.2.children.map (fun c => (c.start, c.stop)) =
          [(12, 13), (13, 14), (15, 21), (17, 19), (21, 22)] ∧
        Item.SpansParts ⟨12, 22, by decide⟩ e.2.children := by
  obtain ⟨items, hparse, hread⟩ := exists_ok (r := parse remarkedRule)
    (p := fun items => (Item.walkAll 0 items).map (fun e => e.2.start) ==
        [0, 0, 2, 10, 12, 12, 13, 15, 17, 21] &&
      (Item.walkAll 0 items).any fun e => e.2.kind? == some .propertyDeclaration &&
        e.2.span == ⟨12, 22, by decide⟩ && e.2.children.map (fun c => (c.start, c.stop)) ==
          [(12, 13), (13, 14), (15, 21), (17, 19), (21, 22)]) (by decide +kernel)
  obtain ⟨hstarts, hdeclaration⟩ := Bool.and_eq_true_iff.1 hread
  obtain ⟨⟨depth, i⟩, he, hends⟩ := List.any_eq_true.1 hdeclaration
  simp only [Bool.and_eq_true, beq_iff_eq] at hends
  obtain ⟨⟨hkind, hspan⟩, hparts⟩ := hends
  obtain ⟨horder, hitems⟩ := parse_order hparse
  refine ⟨items, hparse, beq_iff_eq.1 hstarts, horder, _, he, hparts, ?_⟩
  cases i with
  | leaf kind span => cases hparts
  | comment style span => cases hparts
  | node kind span children =>
    have hspan : span = ⟨12, 22, by decide⟩ := hspan
    have hkind : some kind = some ItemKind.propertyDeclaration := hkind
    subst hspan
    cases hkind
    exact (hitems _ he).2 _ _ _ rfl (by decide)

end Grammar
end LiveSheet
