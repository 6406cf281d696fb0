import LiveSheet.Proofs.Forms
import LiveSheet.Proofs.Items

/-!
# What statements take

The items of every form cover exactly what its run of tokens covers.  The comments among the
items are comments of the run.  No form but that of a whole sheet has a block: that is left to
the reading, which closes what a header has opened.
-/

namespace LiveSheet

/-- The span begins with one of the tokens and ends with one. -/
structure Span.Ends (run : List Token) (s : Span) : Prop where
  start : ∃ a ∈ run, a.start = s.start
  stop : ∃ b ∈ run, b.stop = s.stop

namespace Span

variable {run run' : List Token} {s u : Span}

theorem ends_token {t : Token} (h : t ∈ run) : t.span.Ends run :=
  ⟨⟨t, h, rfl⟩, ⟨t, h, rfl⟩⟩

theorem Ends.mono (h : s.Ends run) (hsub : ∀ tok ∈ run, tok ∈ run') : s.Ends run' := by
  obtain ⟨⟨a, ha, hstart⟩, b, hb, hstop⟩ := h
  exact ⟨⟨a, hsub a ha, hstart⟩, b, hsub b hb, hstop⟩

theorem Ends.cover (h : s.Ends run) (h' : u.Ends run) : (s.cover u).Ends run := by
  constructor
  · rw [cover_start]
    rcases Nat.le_total s.start u.start with hle | hle
    · rw [Nat.min_eq_left hle]
      exact h.start
    · rw [Nat.min_eq_right hle]
      exact h'.start
  · rw [cover_stop]
    rcases Nat.le_total s.stop u.stop with hle | hle
    · rw [Nat.max_eq_right hle]
      exact h'.stop
    · rw [Nat.max_eq_left hle]
      exact h.stop

theorem ends_coverAll {spans : List Span} (h : ∀ s ∈ spans, s.Ends run)
    (hcover : coverAll spans = some u) : u.Ends run := by
  obtain ⟨⟨a, ha, hstart⟩, b, hb, hstop⟩ := mem_of_coverAll hcover
  exact ⟨hstart ▸ (h a ha).start, hstop ▸ (h b hb).stop⟩

theorem ends_coverAll_tokens (hcover : coverAll (run.map Token.span) = some u) : u.Ends run := by
  refine ends_coverAll (fun s hs => ?_) hcover
  obtain ⟨t, ht, rfl⟩ := List.mem_map.1 hs
  exact ends_token ht

end Span

namespace Item

/-- One of the item's parts holds the span, unless the item has no parts. -/
def Holds (s : Span) : Item → Prop
  | node _ _ children => ∃ c ∈ children, s.Within c.span
  | _ => True

/-- The item stands for a run of the tokens, and its parts hold all comments of that run. -/
def Woven (ts : List Token) (i : Item) : Prop :=
  ∃ run, run <:+: ts ∧ i.span.Ends run ∧ ∀ tok ∈ run, tok.comment?.isSome → i.Holds tok.span

theorem Woven.ends {ts : List Token} {i : Item} (h : i.Woven ts) : i.span.Ends ts := by
  obtain ⟨run, hrun, hends, -⟩ := h
  exact hends.mono fun tok htok => hrun.subset htok

/-- The item is no block, and if it is a comment, then one of the tokens is. -/
structure Plain (ts : List Token) (i : Item) : Prop where
  not_block : i.kind? ≠ some .block
  comment : i.kind? = none → ∃ tok ∈ ts, tok.comment? = some i
  woven : i.Woven ts

theorem Plain.mono {ts ts' : List Token} {i : Item} (h : i.Plain ts) (hsub : ts <:+: ts') :
    i.Plain ts' := by
  refine ⟨h.not_block, fun hi => ?_, ?_⟩
  · obtain ⟨tok, htok, hcomment⟩ := h.comment hi
    exact ⟨tok, hsub.subset htok, hcomment⟩
  · obtain ⟨run, hrun, hends, hholds⟩ := h.woven
    exact ⟨run, hrun.trans hsub, hends, hholds⟩

theorem plain_of_kind {ts : List Token} {i : Item} {kind : ItemKind}
    (hi : i.kind? = some kind) (hkind : kind ≠ .block) (hwoven : i.Woven ts) : i.Plain ts :=
  ⟨fun h => hkind (Option.some.inj (hi.symm.trans h)), fun h => (nomatch hi.symm.trans h),
    hwoven⟩

theorem plain_leaf {ts : List Token} {kind : ItemKind} {s : Span} (hkind : kind ≠ .block)
    (hends : s.Ends ts) : (leaf kind s).Plain ts :=
  plain_of_kind rfl hkind ⟨ts, List.infix_refl ts, hends, fun _ _ _ => trivial⟩

end Item

namespace Token

variable {t : Token} {i : Item}

theorem comment?_span (h : t.comment? = some i) : i.span = t.span := by
  unfold comment? at h
  split at h <;> cases h <;> rfl

/-- The item stands for the token alone. -/
structure Gives (t : Token) (i : Item) : Prop where
  span : i.span = t.span
  plain : i.Throughout (Item.Plain [t])

theorem gives_comment (h : t.comment? = some i) : t.Gives i := by
  have hself : i.kind? = none → ∃ tok ∈ [t], tok.comment? = some i :=
    fun _ => ⟨t, List.mem_singleton_self t, h⟩
  have hends : t.span.Ends [t] := Span.ends_token (List.mem_singleton_self t)
  refine ⟨comment?_span h, ?_⟩
  unfold comment? at h
  split at h <;> cases h <;> exact Item.throughout_comment
    ⟨nofun, hself, [t], List.infix_refl _, hends, fun _ _ _ => trivial⟩

theorem gives_leaf (t : Token) {kind : ItemKind} (hkind : kind ≠ .block) : t.Gives (t.leaf kind) :=
  ⟨rfl, Item.throughout_leaf
    (Item.plain_leaf hkind (Span.ends_token (List.mem_singleton_self t)))⟩

end Token

namespace Grammar

/-- The items are made of the tokens before `rest`: they cover what those tokens cover and hold
each of them, no block occurs in them, and all comments in them are tokens. -/
structure MadeOf (ts : List Token) (items : List Item) (rest : List Token) : Prop where
  covers : ∃ run, ts = run ++ rest ∧
    Span.coverAll (run.map Token.span) = Span.coverAll (items.map Item.span) ∧
    ∀ tok ∈ run, ∃ i ∈ items, tok.span.Within i.span
  plain : ∀ i ∈ items, i.Throughout (Item.Plain ts)

variable {ts rest : List Token} {items items' : List Item} {t : Token} {i : Item}
  {kind : ItemKind} {s : Span}

namespace MadeOf

theorem nil : MadeOf ts [] ts :=
  ⟨⟨[], rfl, rfl, List.forall_mem_nil _⟩, List.forall_mem_nil _⟩

theorem token (h : t.Gives i) (rest : List Token) : MadeOf (t :: rest) [i] rest := by
  have hspan : Span.coverAll ([t].map Token.span) = Span.coverAll ([i].map Item.span) := by
    rw [List.map_singleton, List.map_singleton, h.span]
  refine ⟨⟨[t], rfl, hspan, fun tok htok => ?_⟩, fun j hj => ?_⟩
  · rw [List.mem_singleton.1 htok, ← h.span]
    exact ⟨i, List.mem_singleton_self i, Span.within_refl _⟩
  · rw [List.mem_singleton.1 hj]
    exact h.plain.imp fun _ hplain => hplain.mono (List.prefix_append [t] rest).isInfix

/-- A leaf over a run of tokens. -/
theorem leaf {run : List Token} (hkind : kind ≠ .block)
    (hcover : Span.coverAll (run.map Token.span) = some s) (rest : List Token) :
    MadeOf (run ++ rest) [.leaf kind s] rest := by
  refine ⟨⟨run, rfl, hcover, fun tok htok => ?_⟩, fun i hi => ?_⟩
  · exact ⟨_, List.mem_singleton_self _, Span.within_coverAll hcover (List.mem_map_of_mem htok)⟩
  · rw [List.mem_singleton.1 hi]
    have hends := (Span.ends_coverAll_tokens hcover).mono fun tok htok =>
      List.mem_append_left rest htok
    exact Item.throughout_leaf (Item.plain_leaf hkind hends)

/-- The order in which items are collected does not matter. -/
theorem perm (h : MadeOf ts items rest) (hperm : items'.Perm items) : MadeOf ts items' rest := by
  obtain ⟨⟨run, hrun, hcover, hholds⟩, hplain⟩ := h
  refine ⟨⟨run, hrun, ?_, fun tok htok => ?_⟩, fun i hi => hplain i (hperm.mem_iff.1 hi)⟩
  · rw [hcover, Span.coverAll_perm (hperm.map Item.span)]
  · obtain ⟨i, hi, hwithin⟩ := hholds tok htok
    exact ⟨i, hperm.mem_iff.2 hi, hwithin⟩

/-- One more token is covered together with those before it. -/
theorem widen (h : MadeOf ts (items ++ [.leaf kind s]) (t :: rest)) (hkind : kind ≠ .block) :
    MadeOf ts (items ++ [.leaf kind (s.cover t.span)]) rest := by
  obtain ⟨⟨run, hrun, hcover, hholds⟩, hplain⟩ := h
  have hleaf : Item.leaf kind s ∈ items ++ [.leaf kind s] :=
    List.mem_append_right _ (List.mem_singleton_self _)
  have ht : t ∈ ts := by
    rw [hrun]
    exact List.mem_append_right _ List.mem_cons_self
  have hends : (s.cover t.span).Ends ts :=
    (hplain _ hleaf _ .here).woven.ends.cover (Span.ends_token ht)
  refine ⟨⟨run ++ [t], by rw [hrun, List.append_assoc]; rfl, ?_, fun tok htok => ?_⟩,
    fun j hj => ?_⟩
  · have hjoined : Span.coverAll ([.leaf kind (s.cover t.span)].map Item.span) =
        (Span.coverAll ([Item.leaf kind s].map Item.span)).merge Span.cover (some t.span) := rfl
    rw [List.map_append, Span.coverAll_append] at hcover ⊢
    rw [hcover, List.map_append, Span.coverAll_append, hjoined]
    exact Std.Associative.assoc _ _ _
  · rcases List.mem_append.1 htok with htok | htok
    · obtain ⟨j, hj, hwithin⟩ := hholds tok htok
      rcases List.mem_append.1 hj with hj | hj
      · exact ⟨j, List.mem_append_left _ hj, hwithin⟩
      · rw [List.mem_singleton.1 hj] at hwithin
        exact ⟨_, List.mem_append_right _ (List.mem_singleton_self _),
          hwithin.trans (Span.within_cover_left _ _)⟩
    · rw [List.mem_singleton.1 htok]
      exact ⟨_, List.mem_append_right _ (List.mem_singleton_self _), Span.within_cover_right _ _⟩
  · rcases List.mem_append.1 hj with hj | hj
    · exact hplain j (List.mem_append_left _ hj)
    · rw [List.mem_singleton.1 hj]
      exact Item.throughout_leaf (Item.plain_leaf hkind hends)

/-- What was made of some tokens, and then of the tokens after them. -/
theorem append {mid : List Token} (h : MadeOf ts items mid) (h' : MadeOf mid items' rest) :
    MadeOf ts (items ++ items') rest := by
  obtain ⟨⟨run, rfl, hcover, hholds⟩, hplain⟩ := h
  obtain ⟨⟨run', rfl, hcover', hholds'⟩, hplain'⟩ := h'
  refine ⟨⟨run ++ run', (List.append_assoc _ _ _).symm, ?_, fun tok htok => ?_⟩, fun j hj => ?_⟩
  · rw [List.map_append, List.map_append, Span.coverAll_append, Span.coverAll_append, hcover,
      hcover']
  · rcases List.mem_append.1 htok with htok | htok
    · obtain ⟨j, hj, hwithin⟩ := hholds tok htok
      exact ⟨j, List.mem_append_left _ hj, hwithin⟩
    · obtain ⟨j, hj, hwithin⟩ := hholds' tok htok
      exact ⟨j, List.mem_append_right _ hj, hwithin⟩
  · rcases List.mem_append.1 hj with hj | hj
    · exact hplain j hj
    · exact (hplain' j hj).imp fun _ h => h.mono (List.suffix_append run _).isInfix

theorem gather (h : MadeOf ts items rest) (hne : items ≠ []) (hkind : kind ≠ .block) :
    MadeOf ts [.gather kind items] rest := by
  obtain ⟨⟨run, hrun, hcover, hholds⟩, hplain⟩ := h
  rw [Item.coverAll_gather kind hne] at hcover
  refine ⟨⟨run, hrun, hcover, fun tok htok => ?_⟩, fun j hj => ?_⟩
  · exact ⟨_, List.mem_singleton_self _, Span.within_coverAll hcover (List.mem_map_of_mem htok)⟩
  · rw [List.mem_singleton.1 hj]
    refine Item.throughout_gather (Item.plain_of_kind rfl hkind ?_) hplain
    refine ⟨run, ⟨[], rest, hrun.symm⟩, Span.ends_coverAll_tokens hcover, fun tok htok _ => ?_⟩
    obtain ⟨i, hi, hwithin⟩ := hholds tok htok
    exact ⟨i, (mem_stableSort _ items i).2 hi, hwithin⟩

end MadeOf

/-- Whatever is read of a run of tokens is made of them. -/
theorem madeOf_compositional :
    Compositional fun run items => ∀ rest, MadeOf (run ++ rest) items rest where
  nil _ := .nil
  append h h' rest := by
    rw [List.append_assoc]
    exact (h _).append (h' rest)
  perm h hperm rest := (h rest).perm hperm
  comment hcomment := MadeOf.token (Token.gives_comment hcomment)
  token hkind _ := MadeOf.token (Token.gives_leaf _ hkind)
  widen {run asides t kind s} h hkind _ rest := by
    rw [List.append_assoc]
    exact (h (t :: rest)).widen (Item.ne_of_mem_coverKinds hkind).1
  callable _ _ _ hcover rest :=
    (MadeOf.token (Token.gives_leaf _ (by decide)) _).append
      (MadeOf.leaf (by decide) hcover rest)
  gather h hne hkind rest := (h rest).gather hne (Item.ne_of_mem_nodeKinds hkind).1

end Grammar
end LiveSheet
