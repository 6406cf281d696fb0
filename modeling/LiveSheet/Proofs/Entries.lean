import LiveSheet.Completion.Declaration
import LiveSheet.Proofs.Spelling
import LiveSheet.Proofs.Words

/-!
# Entries of argument lists

The tokens of an argument list are cut into entries at its own commas, while names are read off
its characters, which are cut at every comma.  The two agree on entries that are written plainly
and hold no comma with a sigil behind it.
-/

namespace LiveSheet
namespace Declaration

/-! ## Entries -/

/-- Cuts the tokens of an argument list at its commas, but not at those in parentheses, of which
`depth` are open. -/
def entriesFrom (depth : Nat) : List Token → List (List Token)
  | [] => [[]]
  | tok :: rest =>
    if depth = 0 ∧ tok.kind = .comma then [] :: entriesFrom 0 rest
    else (entriesFrom (Grammar.depthAfter depth tok.kind) rest).modifyHead (tok :: ·)

def entries (inner : List Token) : List (List Token) := entriesFrom 0 inner

/-- The name of the variable that an entry begins with.  Comments in front of it do not count. -/
def declared? (entry : List Token) : Option Text :=
  (entry.dropWhile fun tok => tok.comment?.isSome).head?.bind fun tok =>
    if tok.kind = .variable then some (tok.lexeme.drop 1) else none

theorem declared?_cons {tok : Token} (h : tok.kind = .variable) (rest : List Token) :
    declared? (tok :: rest) = some (tok.lexeme.drop 1) := by
  have hnot : tok.comment?.isSome = false := by
    rw [Token.comment?, h]
    rfl
  simp only [declared?, List.dropWhile_cons, hnot, Bool.false_eq_true, if_false, List.head?_cons,
    Option.bind_some, h, if_true]

/-- Three dots from an offset on, as the tokens they are read as. -/
def dots (offset : Nat) : List Token :=
  [⟨.other, offset, ['.']⟩, ⟨.other, offset + 1, ['.']⟩, ⟨.other, offset + 2, ['.']⟩]

/-- An entry that is empty, that is a variable alone, with three dots or with a default value, or
that declares nothing and does not look as if it did. -/
def Written : List Token → Prop
  | [] => True
  | tok :: rest =>
    if tok.kind = .variable then
      rest = [] ∨ rest = dots tok.stop ∨ rest.head?.map Token.kind = some .colon
    else declared? (tok :: rest) = none ∧ tok.lexeme.head? ≠ some sigil

instance : DecidablePred Written
  | [] => isTrue trivial
  | tok :: rest => inferInstanceAs (Decidable (if tok.kind = .variable then
      rest = [] ∨ rest = dots tok.stop ∨ rest.head?.map Token.kind = some .colon
    else declared? (tok :: rest) = none ∧ tok.lexeme.head? ≠ some sigil))

/-- The first character behind the offset, but for blanks, is a sigil. -/
def SigilBehind (t : Text) (offset : Nat) : Prop :=
  ((t.drop offset).dropWhile Text.isBlank).head? = some sigil

/-- No comma in the tokens of an entry has a sigil behind it. -/
def Unsplit (t : Text) (entry : List Token) : Prop :=
  ∀ tok ∈ entry, ∀ k < tok.lexeme.length, tok.lexeme[k]? = some ',' →
    ¬SigilBehind t (tok.start + k + 1)

instance (t : Text) : DecidablePred (Unsplit t) := fun entry =>
  inferInstanceAs (Decidable (∀ tok ∈ entry, ∀ k < tok.lexeme.length,
    tok.lexeme[k]? = some ',' → ¬((t.drop (tok.start + k + 1)).dropWhile Text.isBlank).head? =
      some sigil))

/-- The tokens between the parentheses of an argument list from which a reader of characters
tells its parameters. -/
structure Legible (t : Text) (inner : List Token) : Prop where
  opens : inner.head?.map Token.kind ≠ some .openParen
  written : ∀ entry ∈ entries inner, Written entry
  unsplit : ∀ entry ∈ entries inner, Unsplit t entry

instance (t : Text) : DecidablePred (Legible t) := fun inner =>
  decidable_of_iff (inner.head?.map Token.kind ≠ some .openParen ∧
    (∀ entry ∈ entries inner, Written entry) ∧ ∀ entry ∈ entries inner, Unsplit t entry)
    ⟨fun ⟨opens, written, unsplit⟩ => ⟨opens, written, unsplit⟩,
      fun ⟨opens, written, unsplit⟩ => ⟨opens, written, unsplit⟩⟩

theorem entriesFrom_cases (depth : Nat) (ts : List Token) :
    entriesFrom depth ts = [ts] ∨ ∃ first comma rest, ts = first ++ comma :: rest ∧
      comma.kind = .comma ∧ entriesFrom depth ts = first :: entriesFrom 0 rest := by
  induction ts generalizing depth with
  | nil => exact .inl rfl
  | cons tok ts ih =>
    by_cases hcut : depth = 0 ∧ tok.kind = .comma
    · exact .inr ⟨[], tok, ts, rfl, hcut.2, if_pos hcut⟩
    · rw [entriesFrom, if_neg hcut]
      rcases ih (Grammar.depthAfter depth tok.kind) with
        hone | ⟨first, comma, rest, rfl, hcomma, hmore⟩
      · exact .inl (by rw [hone, List.modifyHead_cons])
      · exact .inr ⟨tok :: first, comma, rest, rfl, hcomma, by rw [hmore, List.modifyHead_cons]⟩

/-! ## Names in a text -/

section

variable {s r x body more text parens : Text} {c : Char}

theorem fields_eq_splitOn (separator : Char) (t : Text) :
    Text.fields separator t = t.splitOn separator := by
  induction t with
  | nil => rw [Text.fields, List.splitOn_nil]
  | cons c rest ih =>
    rw [Text.fields, ih, List.splitOn_cons_eq_if_modifyHead]
    by_cases hc : c = separator
    · rw [if_pos hc, if_pos (beq_iff_eq.2 hc)]
    · rw [if_neg hc, if_neg fun h => hc (beq_iff_eq.1 h)]
      cases hrest : rest.splitOn separator with
      | nil => exact absurd hrest (List.splitOn_ne_nil _ _)
      | cons => rfl

/-- The names in a text that is cut at all of its commas. -/
def entryNames (text : Text) : List Text := (Text.fields ',' text).filterMap parameterName?

theorem entryNames_append_comma (s r : Text) :
    entryNames (s ++ ',' :: r) = entryNames s ++ entryNames r := by
  rw [entryNames, fields_eq_splitOn, List.splitOn_append_cons_self, List.filterMap_append,
    ← fields_eq_splitOn, ← fields_eq_splitOn]
  rfl

theorem entryNames_of_not_mem (h : ',' ∉ s) : entryNames s = (parameterName? s).toList := by
  rw [entryNames, fields_eq_splitOn, List.splitOn_eq_singleton h, List.filterMap_cons,
    List.filterMap_nil]
  cases parameterName? s <;> rfl

theorem takeWhile_ne_append_cons (h : c ∉ s) (r : Text) :
    (s ++ c :: r).takeWhile (· != c) = s := by
  have hs : ∀ d ∈ s, (d != c) = true := fun d hd => bne_iff_ne.2 fun heq => h (heq ▸ hd)
  rw [List.takeWhile_append_of_pos hs, List.takeWhile_cons_of_neg (by simp), List.append_nil]

theorem takeWhile_ne_of_not_mem (h : c ∉ s) : s.takeWhile (· != c) = s :=
  List.takeWhile_eq_self_iff.2 fun _ hd => bne_iff_ne.2 fun heq => h (heq ▸ hd)

/-- If no name stands behind a comma, then only the one in front of all commas is left. -/
theorem entryNames_of_first (text : Text)
    (h : ∀ s r, text = s ++ ',' :: r → parameterName? (r.takeWhile (· != ',')) = none) :
    entryNames text = (parameterName? (text.takeWhile (· != ','))).toList := by
  by_cases hmem : ',' ∈ text
  · obtain ⟨s, r, rfl, hs⟩ := List.eq_append_cons_of_mem hmem
    have hrest : entryNames r = [] := by
      rw [entryNames_of_first r fun s' r' hr => h (s ++ ',' :: s') r' (by rw [hr]; simp), h s r rfl]
      rfl
    rw [entryNames_append_comma, entryNames_of_not_mem hs, hrest, List.append_nil,
      takeWhile_ne_append_cons hs]
  · rw [entryNames_of_not_mem hmem, takeWhile_ne_of_not_mem hmem]
termination_by text.length
decreasing_by
  subst_vars
  simp only [List.length_append, List.length_cons]
  omega

/-- A name begins with a sigil, with nothing but blanks in front of it. -/
theorem parameterName?_eq_none (hstarts : s <+: x)
    (hx : (x.dropWhile Text.isBlank).head? ≠ some sigil) : parameterName? s = none := by
  obtain ⟨rest, rfl⟩ := (List.takeWhile_prefix (· != ':')).trans hstarts
  unfold parameterName?
  cases htrim : Text.trim (s.takeWhile (· != ':')) with
  | nil => rfl
  | cons c name =>
    obtain ⟨gap, hgap, -⟩ :=
      Text.exists_append_trimEnd ((s.takeWhile (· != ':')).dropWhile Text.isBlank)
    have hfront : (s.takeWhile (· != ':')).dropWhile Text.isBlank = c :: (name ++ gap) := by
      rw [hgap]
      exact congrArg (· ++ gap) htrim
    refine if_neg ?_
    rintro rfl
    refine hx ?_
    rw [List.dropWhile_append, hfront]
    rfl

theorem parameterName?_append_colon (h : ':' ∉ s) (r : Text) :
    parameterName? (s ++ ':' :: r) = parameterName? s := by
  rw [parameterName?, takeWhile_ne_append_cons h, parameterName?, takeWhile_ne_of_not_mem h]

theorem dropDots_of_ne {name : Text} (h : ∀ c ∈ name.head?, c ≠ '.') :
    parameterName?.dropDots name = name := by
  cases name with
  | nil => rw [parameterName?.dropDots]; nofun
  | cons c rest =>
    have hc : c ≠ '.' := h c rfl
    rw [parameterName?.dropDots]
    exact fun _ heq => hc (List.cons.inj heq).1

/-- The character ends neither a name nor an entry nor a list. -/
def Inert (c : Char) : Prop := c ≠ ',' ∧ c ≠ ':' ∧ c ≠ ')'

theorem inert_of_isBlank (h : Text.isBlank c = true) : Inert c := by
  refine ⟨?_, ?_, ?_⟩ <;> rintro rfl <;> exact absurd h (by decide)

theorem inert_of_isWordChar (h : Text.isWordChar c = true) : Inert c := by
  refine ⟨?_, ?_, ?_⟩ <;> rintro rfl <;> exact absurd h (by decide)

/-- A name is read between blanks, without its sigil and without the dots behind it. -/
theorem parameterName?_name {gap gap' word tail : Text} (hgap : ∀ b ∈ gap, Text.isBlank b = true)
    (hgap' : ∀ b ∈ gap', Text.isBlank b = true) (hne : word ≠ [])
    (hword : ∀ c ∈ word, Text.isWordChar c = true) (htail : tail = [] ∨ tail = ['.', '.', '.']) :
    (∀ c ∈ gap ++ (sigil :: (word ++ tail) ++ gap'), Inert c) ∧
      parameterName? (gap ++ (sigil :: (word ++ tail) ++ gap')) = some word := by
  have hdots : ∀ c ∈ tail, c = '.' := by
    rcases htail with rfl | rfl <;> simp
  have hsolid : ∀ c ∈ sigil :: (word ++ tail), Inert c ∧ Text.isBlank c = false := by
    intro c hc
    rcases List.mem_cons.1 hc with rfl | hc
    · exact ⟨⟨by decide, by decide, by decide⟩, by decide⟩
    · rcases List.mem_append.1 hc with hc | hc
      · refine ⟨inert_of_isWordChar (hword c hc), Bool.eq_false_iff.2 fun hblank => ?_⟩
        have hnot := Text.not_isWordChar_of_isBlank hblank
        exact Bool.false_ne_true (hnot.symm.trans (hword c hc))
      · rw [hdots c hc]
        exact ⟨⟨by decide, by decide, by decide⟩, by decide⟩
  have hinert : ∀ c ∈ gap ++ (sigil :: (word ++ tail) ++ gap'), Inert c := by
    intro c hc
    rcases List.mem_append.1 hc with hc | hc
    · exact inert_of_isBlank (hgap c hc)
    · rcases List.mem_append.1 hc with hc | hc
      · exact (hsolid c hc).1
      · exact inert_of_isBlank (hgap' c hc)
  refine ⟨hinert, ?_⟩
  have htrim : Text.trim (gap ++ (sigil :: (word ++ tail) ++ gap')) = sigil :: (word ++ tail) :=
    Text.trim_append_blanks hgap hgap' (fun c hc => (hsolid c (List.mem_of_mem_head? hc)).2)
      (fun c hc => (hsolid c (List.mem_of_mem_getLast? hc)).2)
  have hbare : parameterName?.dropDots (word ++ tail).reverse = word.reverse := by
    have hlast : parameterName?.dropDots word.reverse = word.reverse := by
      refine dropDots_of_ne fun c hc => ?_
      rintro rfl
      have hmem := List.mem_reverse.1 (List.mem_of_mem_head? hc)
      exact absurd (hword _ hmem) (by decide)
    rcases htail with rfl | rfl
    · rw [List.append_nil, hlast]
    · rw [List.reverse_append]
      exact (parameterName?.dropDots.eq_1 _).trans hlast
  have hcolon : ':' ∉ gap ++ (sigil :: (word ++ tail) ++ gap') := fun hmem =>
    (hinert _ hmem).2.1 rfl
  rw [parameterName?, takeWhile_ne_of_not_mem hcolon, htrim]
  simp only [if_true, hbare, List.isEmpty_reverse, List.reverse_reverse]
  exact if_neg (by simpa using hne)

/-- A character that is not among those at the end of a text stands in front of them. -/
theorem exists_append_cons {a b : Text} (h : a ++ c :: b = text ++ parens) (hc : c ∉ parens) :
    ∃ b', text = a ++ c :: b' ∧ b = b' ++ parens := by
  rcases List.append_eq_append_iff.1 h with ⟨rest, htext, hrest⟩ | ⟨rest, -, rfl⟩
  · cases rest with
    | nil =>
      rw [List.nil_append] at hrest
      exact absurd (hrest ▸ List.mem_cons_self) hc
    | cons d b' =>
      obtain ⟨rfl, hb⟩ := List.cons.inj hrest
      exact ⟨b', htext, hb⟩
  · exact absurd (List.mem_append_right rest List.mem_cons_self) hc

/-- The name in front of the first comma is the one in front of the first colon.  Parentheses
that close the list do not matter. -/
theorem parameterName?_first (hbody : ∀ c ∈ body, Inert c)
    (hmore : more = [] ∨ ∃ r, more = ':' :: r) (htext : body ++ more = text ++ parens)
    (hparens : ∀ c ∈ parens, c = ')') :
    parameterName? (text.takeWhile (· != ',')) = parameterName? body := by
  have hcomma : ',' ∉ body := fun hmem => (hbody _ hmem).1 rfl
  have hcolon : ':' ∉ body := fun hmem => (hbody _ hmem).2.1 rfl
  rcases hmore with rfl | ⟨r, rfl⟩
  · -- a closing parenthesis would stand in the body
    have hnil : parens = [] := by
      refine List.eq_nil_iff_forall_not_mem.2 fun c hc => ?_
      have hmem : c ∈ body := by
        rw [← List.append_nil body, htext]
        exact List.mem_append_right _ hc
      exact (hbody c hmem).2.2 (hparens c hc)
    rw [hnil, List.append_nil, List.append_nil] at htext
    rw [← htext, takeWhile_ne_of_not_mem hcomma]
  · have hnot : ':' ∉ parens := fun hmem => absurd (hparens _ hmem) (by decide)
    obtain ⟨r', rfl, -⟩ := exists_append_cons htext hnot
    have hkept : ∀ d ∈ body, (d != ',') = true := fun d hd => bne_iff_ne.2 (hbody d hd).1
    rw [List.takeWhile_append_of_pos hkept, List.takeWhile_cons_of_pos (by decide),
      parameterName?_append_colon hcolon]

end

/-! ## Entries in a text -/

section

variable {t text parens : Text} {lo hi : Nat} {entry ts : List Token}

theorem between_cons_self {tok : Token}
    (htiling : t.Tiling tok.start hi ((tok :: ts).map Token.span)) (hstands : tok.StandsIn t) :
    t.between tok.start hi = tok.lexeme ++ t.between tok.stop hi ∧
      t.Tiling tok.stop hi (ts.map Token.span) := by
  obtain ⟨hbetween, -, hrest⟩ := Token.between_cons htiling hstands
  rw [hbetween, Text.between_self]
  exact ⟨rfl, hrest⟩

/-- The dots of a rest parameter stand side by side. -/
theorem between_dots (htiling : t.Tiling lo hi ((dots lo).map Token.span))
    (hstands : ∀ tok ∈ dots lo, tok.StandsIn t) :
    ∃ gap : Text, t.between lo hi = ['.', '.', '.'] ++ gap ∧ ∀ c ∈ gap, Text.isBlank c = true := by
  obtain ⟨hfirst, hstands⟩ := List.forall_mem_cons.1 hstands
  obtain ⟨hsecond, hstands⟩ := List.forall_mem_cons.1 hstands
  obtain ⟨hthird, -⟩ := List.forall_mem_cons.1 hstands
  obtain ⟨hone, htiling⟩ := between_cons_self htiling hfirst
  obtain ⟨htwo, htiling⟩ := between_cons_self htiling hsecond
  obtain ⟨hthree, htiling⟩ := between_cons_self htiling hthird
  refine ⟨t.between (lo + 3) hi, ?_, Text.isBlank_of_tiling_nil htiling⟩
  exact hone.trans (congrArg ('.' :: ·) (htwo.trans (congrArg ('.' :: ·) hthree)))

/-- The first name of an entry that is plainly written is the one that it declares. -/
theorem parameterName?_entry (htiling : t.Tiling lo hi (entry.map Token.span))
    (hts : ∀ tok ∈ entry, tok.StandsIn t ∧ tok.Lexical) (hwritten : Written entry)
    (htext : t.between lo hi = text ++ parens) (hparens : ∀ c ∈ parens, c = ')') :
    parameterName? (text.takeWhile (· != ',')) = declared? entry := by
  have hstarts : text.takeWhile (· != ',') <+: t.between lo hi :=
    (List.takeWhile_prefix _).trans ⟨parens, htext.symm⟩
  cases entry with
  | nil =>
    refine parameterName?_eq_none hstarts ?_
    rw [List.dropWhile_eq_nil_iff.2 (Text.isBlank_of_tiling_nil htiling)]
    nofun
  | cons tok rest =>
    obtain ⟨⟨hstands, hlexical⟩, hrest⟩ := List.forall_mem_cons.1 hts
    obtain ⟨hbetween, hgap, hbehind⟩ := Token.between_cons htiling hstands
    rw [Written] at hwritten
    by_cases hvariable : tok.kind = .variable
    · rw [if_pos hvariable] at hwritten
      obtain ⟨word, hlexeme, hne, hword⟩ := hlexical.variable_lexeme hvariable
      have hdeclared : declared? (tok :: rest) = some word := by
        rw [declared?_cons hvariable, hlexeme]
        rfl
      rw [hdeclared]
      rcases hwritten with rfl | rfl | hcolon
      · have hgap' := Text.isBlank_of_tiling_nil hbehind
        obtain ⟨hinert, hname⟩ := parameterName?_name hgap hgap' hne hword (.inl rfl)
        rw [← hname]
        refine parameterName?_first hinert (.inl rfl) ?_ hparens
        rw [← htext, hbetween, hlexeme, List.append_nil, List.append_nil]
      · obtain ⟨gap', hdots, hgap'⟩ := between_dots hbehind fun u hu => (hrest u hu).1
        obtain ⟨hinert, hname⟩ := parameterName?_name hgap hgap' hne hword (.inr rfl)
        rw [← hname]
        refine parameterName?_first hinert (.inl rfl) ?_ hparens
        rw [← htext, hbetween, hlexeme, hdots, List.append_nil]
        simp
      · cases rest with
        | nil => cases hcolon
        | cons colon rest =>
          obtain ⟨⟨hstands', hlexical'⟩, -⟩ := List.forall_mem_cons.1 hrest
          obtain ⟨hbetween', hgap', -⟩ := Token.between_cons hbehind hstands'
          have hmark : colon.lexeme = [':'] :=
            hlexical'.mark ':' ((Option.some.inj hcolon).symm ▸ rfl)
          obtain ⟨hinert, hname⟩ := parameterName?_name hgap hgap' hne hword (.inl rfl)
          rw [← hname]
          refine parameterName?_first hinert (.inr ⟨t.between colon.stop hi, rfl⟩) ?_ hparens
          rw [← htext, hbetween, hlexeme, hbetween', hmark, List.append_nil]
          simp
    · rw [if_neg hvariable] at hwritten
      obtain ⟨hnone, hhead⟩ := hwritten
      obtain ⟨c, chars, hlexeme, hsolid⟩ := hlexical.solid
      rw [hnone]
      refine parameterName?_eq_none hstarts ?_
      rw [hbetween, List.dropWhile_append_of_pos hgap, hlexeme, List.cons_append,
        List.dropWhile_cons_of_neg (Bool.eq_false_iff.1 hsolid)]
      rw [hlexeme] at hhead
      exact hhead

/-- In an entry that no comma splits, no name stands behind a comma. -/
theorem parameterName?_behind_comma (htiling : t.Tiling lo hi (entry.map Token.span))
    (hts : ∀ tok ∈ entry, tok.StandsIn t ∧ tok.Lexical) (hunsplit : Unsplit t entry)
    (htext : t.between lo hi = text ++ parens) {s r : Text} (hcomma : text = s ++ ',' :: r) :
    parameterName? (r.takeWhile (· != ',')) = none := by
  have hwhole : t.between lo hi = s ++ ',' :: (r ++ parens) := by
    rw [htext, hcomma, List.append_assoc, List.cons_append]
  have hat : (t.between lo hi)[s.length]? = some ',' := by
    rw [hwhole]
    simp
  obtain ⟨tok, htok, k, hk, hlexeme⟩ := Token.exists_mem_of_between htiling
    (fun u hu => (hts u hu).1) hat (by decide)
  have hlt : k < tok.lexeme.length := (List.getElem?_eq_some_iff.1 hlexeme).1
  refine parameterName?_eq_none (x := t.drop (tok.start + k + 1)) ?_
    (hunsplit tok htok k hlt hlexeme)
  obtain ⟨rest, hrest⟩ := t.between_prefix lo hi
  rw [hk, ← List.drop_drop, ← List.drop_drop, ← hrest, hwhole]
  refine (List.takeWhile_prefix _).trans ⟨parens ++ rest, ?_⟩
  simp

theorem entryNames_entry (htiling : t.Tiling lo hi (entry.map Token.span))
    (hts : ∀ tok ∈ entry, tok.StandsIn t ∧ tok.Lexical) (hwritten : Written entry)
    (hunsplit : Unsplit t entry) (htext : t.between lo hi = text ++ parens)
    (hparens : ∀ c ∈ parens, c = ')') : entryNames text = (declared? entry).toList := by
  have hbehind := fun s r =>
    parameterName?_behind_comma (s := s) (r := r) htiling hts hunsplit htext
  rw [entryNames_of_first text hbehind, parameterName?_entry htiling hts hwritten htext hparens]

/-- The names in the text of a list are those that its entries declare.  Some closing
parentheses at the end of the text may be missing. -/
theorem entryNames_between {t text parens : Text} {lo hi : Nat} {ts : List Token} (depth : Nat)
    (htiling : t.Tiling lo hi (ts.map Token.span))
    (hts : ∀ tok ∈ ts, tok.StandsIn t ∧ tok.Lexical)
    (hwritten : ∀ entry ∈ entriesFrom depth ts, Written entry)
    (hunsplit : ∀ entry ∈ entriesFrom depth ts, Unsplit t entry)
    (htext : t.between lo hi = text ++ parens) (hparens : ∀ c ∈ parens, c = ')') :
    entryNames text = (entriesFrom depth ts).filterMap declared? := by
  rcases entriesFrom_cases depth ts with hone | ⟨first, comma, rest, rfl, hcomma, hcut⟩
  · rw [hone] at hwritten hunsplit ⊢
    rw [entryNames_entry htiling hts (hwritten ts (List.mem_singleton_self ts))
      (hunsplit ts (List.mem_singleton_self ts)) htext hparens, List.filterMap_cons,
      List.filterMap_nil]
    cases declared? ts <;> rfl
  · rw [hcut] at hwritten hunsplit ⊢
    rw [List.map_append, List.map_cons] at htiling
    obtain ⟨hfront, -, hbehind⟩ := Text.tiling_append_cons.1 htiling
    obtain ⟨hfirst, hrest⟩ := List.forall_mem_append.1 hts
    obtain ⟨⟨hstands, hlexical⟩, hrest⟩ := List.forall_mem_cons.1 hrest
    obtain ⟨hwritten, hwritten'⟩ := List.forall_mem_cons.1 hwritten
    obtain ⟨hunsplit, hunsplit'⟩ := List.forall_mem_cons.1 hunsplit
    have hmark : comma.lexeme = [','] := hlexical.mark ',' (hcomma ▸ rfl)
    have hlo : lo ≤ comma.start := hfront.bounds
    have hstart : comma.start ≤ comma.stop := comma.span.start_le_stop
    have hhi : comma.stop ≤ hi := hbehind.bounds
    rw [Text.between_append hlo (Nat.le_trans hstart hhi), Text.between_append hstart hhi,
      hstands.between, hmark] at htext
    have hnot : ',' ∉ parens := fun hmem => absurd (hparens _ hmem) (by decide)
    obtain ⟨text', rfl, htext'⟩ := exists_append_cons htext hnot
    have hwhole : t.between lo comma.start = t.between lo comma.start ++ [] :=
      (List.append_nil _).symm
    have hhead := entryNames_entry hfront hfirst hwritten hunsplit hwhole (List.forall_mem_nil _)
    rw [entryNames_append_comma, hhead,
      entryNames_between 0 hbehind hrest hwritten' hunsplit' htext' hparens, List.filterMap_cons]
    cases declared? first <;> rfl
termination_by ts.length
decreasing_by
  subst_vars
  simp only [List.length_append, List.length_cons]
  omega

end

end Declaration
end LiveSheet
