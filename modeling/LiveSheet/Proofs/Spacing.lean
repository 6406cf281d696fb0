import LiveSheet.Proofs.Boundaries
import LiveSheet.Proofs.Comments

/-!
# Spacing

A line feed that is put between two tokens, or in front of the first or behind the last of them,
changes nothing but the places of what comes after it.
-/

namespace LiveSheet

/-- What begins at `p` or further on, and what ends behind `p`, goes on by one. -/
def Move.gap (p : Nat) : Move where
  start x := if p ≤ x then x + 1 else x
  stop x := if p < x then x + 1 else x
  start_strictMono := by
    intro x y h
    dsimp only
    split <;> split <;> omega
  stop_mono := by
    intro x y h
    dsimp only
    split <;> split <;> omega

namespace Move

variable {p x : Nat}

theorem gap_start_of_le (h : p ≤ x) : (gap p).start x = x + 1 := if_pos h

theorem gap_start_of_lt (h : x < p) : (gap p).start x = x := if_neg (Nat.not_le.2 h)

theorem gap_stop_of_lt (h : p < x) : (gap p).stop x = x + 1 := if_pos h

theorem gap_stop_of_le (h : x ≤ p) : (gap p).stop x = x := if_neg (Nat.not_lt.2 h)

end Move

namespace Text

variable {t x insert : Text} {k : Nat}

theorem splice_nil : splice [] k k insert = insert := by
  simp [splice]

theorem splice_cons_succ {c : Char} :
    splice (c :: t) (k + 1) (k + 1) insert = c :: t.splice k k insert := rfl

theorem splice_append (x t : Text) (k : Nat) (insert : Text) :
    splice (x ++ t) (x.length + k) (x.length + k) insert = x ++ t.splice k k insert := by
  simp only [splice, List.take_length_add_append, List.drop_length_add_append, List.append_assoc]

/-- A splice begins as the text did, or with what is put in. -/
theorem head?_splice {b c : Char} (hc : c ∈ (t.splice k k [b]).head?) : c ∈ t.head? ∨ c = b := by
  cases k with
  | zero => exact .inr (Option.some.inj hc).symm
  | succ k =>
    cases t with
    | nil => exact .inr (Option.some.inj hc).symm
    | cons d t => exact .inl hc

end Text

namespace Token

variable {p : Nat}

/-- What was found before is among the tokens in the end. -/
theorem mem_of_lexFrom {offset : Nat} {found tokens : List Token} {rest : Text}
    (h : lexFrom offset found rest = .ok tokens) : ∀ tok ∈ found, tok ∈ tokens := by
  fun_induction lexFrom offset found rest with
  | case1 | case2 =>
    cases h
    exact fun tok htok => List.mem_reverse.2 htok
  | case3 _ _ _ _ _ ih => exact ih h
  | case4 _ _ _ _ _ _ _ ih => exact fun tok htok => ih h tok (List.mem_cons_of_mem _ htok)
  | case5 => cases h

/-- From the line feed on, everything is found one further on. -/
theorem lexFrom_behind_gap {found found' tokens : List Token} {rest : Text}
    (hlex : lexFrom p found rest = .ok tokens)
    (hfound : List.Forall₂ (Moves (.gap p)) found found') :
    ∃ tokens', lexFrom p found' ('\n' :: rest) = .ok tokens' ∧
      List.Forall₂ (Moves (.gap p)) tokens tokens' := by
  have hagree := lexFrom_moves (m := .gap p) p (fun x hx => Move.gap_start_of_le hx)
    (fun x hx => Move.gap_stop_of_lt hx) hfound [] rest
  have hblank : lexFrom p found' ('\n' :: rest) = lexFrom (p + 1) found' rest := by
    rw [lexFrom, scan_eq_blank_iff.2 (by decide)]
  rw [hblank]
  rw [hlex, List.append_nil] at hagree
  generalize lexFrom (p + 1) found' rest = result at hagree ⊢
  cases hagree with
  | ok hmoved =>
    obtain ⟨moved, hmoved, rfl⟩ := hmoved
    exact ⟨_, rfl, hmoved⟩

/-- In front of the line feed, everything is found where it was. -/
theorem lexFrom_gap {offset k : Nat} {found found' tokens : List Token} {rest : Text}
    (hlex : lexFrom offset found rest = .ok tokens)
    (hp : ∀ tok ∈ tokens, ¬(tok.start < p ∧ p < tok.stop)) (hk : p = offset + k)
    (hfound : List.Forall₂ (Moves (.gap p)) found found') :
    ∃ tokens', lexFrom offset found' (rest.splice k k ['\n']) = .ok tokens' ∧
      List.Forall₂ (Moves (.gap p)) tokens tokens' := by
  fun_induction lexFrom offset found rest generalizing found' k with
  | case1 offset found =>
    cases hlex
    rw [Text.splice_nil, lexFrom, scan_eq_blank_iff.2 (by decide)]
    dsimp only
    rw [lexFrom]
    exact ⟨_, rfl, List.forall₂_reverse_iff.2 hfound⟩
  | case2 offset found c rest hscan =>
    have hfits := scan_fits c rest
    rw [hscan] at hfits
    exact hfits.elim
  | case3 offset found c rest hscan ih =>
    cases k with
    | zero =>
      obtain rfl : p = offset := hk
      have hlexed : lexFrom p found (c :: rest) = .ok tokens := by
        rw [lexFrom, hscan]
        exact hlex
      exact lexFrom_behind_gap hlexed hfound
    | succ k =>
      rw [Text.splice_cons_succ, lexFrom, scan_eq_blank_iff.2 (scan_eq_blank_iff.1 hscan)]
      exact ih hlex (by omega) hfound
  | case4 offset found c rest kind more hscan ih =>
    cases k with
    | zero =>
      obtain rfl : p = offset := hk
      have hlexed : lexFrom p found (c :: rest) = .ok tokens := by
        rw [lexFrom, hscan]
        exact hlex
      exact lexFrom_behind_gap hlexed hfound
    | succ k =>
      have hfits := scan_fits c rest
      rw [hscan] at hfits
      have hlength : (rest.take more).length = more := List.length_take_of_le hfits.1
      -- the token ends at the line feed or in front of it
      obtain ⟨k, rfl⟩ : ∃ k', k = more + k' := by
        have hout := hp _ (mem_of_lexFrom hlex _ List.mem_cons_self)
        rw [stop, List.length_cons, hlength] at hout
        dsimp only at hout
        exact Nat.exists_eq_add_of_le (by omega)
      have htoken : Moves (.gap p) ⟨kind, offset, c :: rest.take more⟩
          ⟨kind, offset, c :: rest.take more⟩ := by
        have hstart : offset < p := by omega
        have hstop : offset + (c :: rest.take more).length ≤ p := by
          rw [List.length_cons, hlength]
          omega
        exact ⟨rfl, rfl, (Move.gap_start_of_lt hstart).symm, (Move.gap_stop_of_le hstop).symm⟩
      have hafter : Text.splice rest (more + k) (more + k) ['\n'] =
          rest.take more ++ Text.splice (rest.drop more) k k ['\n'] := by
        have hsplit := Text.splice_append (rest.take more) (rest.drop more) k ['\n']
        rwa [List.take_append_drop, hlength] at hsplit
      have happart : Apart kind (rest.drop more) (Text.splice (rest.drop more) k k ['\n']) := by
        intro d hd
        refine (Text.head?_splice hd).imp_right ?_
        rintro rfl
        exact ⟨by decide, fun _ => rfl⟩
      rw [Text.splice_cons_succ, hafter, lexFrom_kept hscan happart]
      exact ih hlex (by omega) (.cons htoken hfound)
  | case5 => cases hlex

end Token

namespace Grammar

/-- A line feed that does not part a token in two leaves a sheet as it is: the same items are
read, with what comes after the line feed one further on, or there is the same error. -/
theorem parse_splice_newline (t : Text) (tokens : List Token) (p : Nat)
    (hlex : Token.lex t = .ok tokens) (hp : ∀ tok ∈ tokens, ¬(tok.start < p ∧ p < tok.stop)) :
    Agree (.gap p) (List.Forall₂ (Item.Moves (.gap p))) (parse t)
      (parse (t.splice p p ['\n'])) := by
  obtain ⟨tokens', hlex', hmoves⟩ := Token.lexFrom_gap hlex hp (Nat.zero_add p).symm .nil
  have hstart : (Reading.start tokens).Moves (.gap p) [] (Reading.start tokens') :=
    ⟨.top .nil, hmoves⟩
  have hread : parse t = (Reading.start tokens).run := by
    rw [parse, hlex]
    rfl
  have hread' : parse (t.splice p p ['\n']) = (Reading.start tokens').run := by
    have hlexed : Token.lex (t.splice p p ['\n']) = .ok tokens' := hlex'
    rw [parse, hlexed]
    rfl
  rw [hread, hread']
  refine hstart.run.mono ?_
  rintro items items' ⟨moved, hmoved, rfl⟩
  exact hmoved

/-- A line feed in front of a comment that stands right behind a number, and one in front of the
brace of a block that is left open. -/
theorem parse_splice_newline_at_ends :
    let t := "$a:1//b".toList
    let u := "c\x7bd".toList
    (∃ tokens, Token.lex t = .ok tokens ∧ (∀ tok ∈ tokens, ¬(tok.start < 4 ∧ 4 < tok.stop)) ∧
      ∃ items items', parse t = .ok items ∧ parse "$a:1\n//b".toList = .ok items' ∧
        List.Forall₂ (Item.Moves (.gap 4)) items items') ∧
    ∃ tokens, Token.lex u = .ok tokens ∧ (∀ tok ∈ tokens, ¬(tok.start < 1 ∧ 1 < tok.stop)) ∧
      parse u = .error ⟨.unclosedBlock, 1⟩ ∧
      parse "c\n\x7bd".toList = .error ⟨.unclosedBlock, 2⟩ := by
  intro t u
  have hout : (Token.lex t).toOption.any
      (·.all fun tok => decide ¬(tok.start < 4 ∧ 4 < tok.stop)) = true := by decide +kernel
  have hout' : (Token.lex u).toOption.any
      (·.all fun tok => decide ¬(tok.start < 1 ∧ 1 < tok.stop)) = true := by decide +kernel
  obtain ⟨tokens, hlex, hp⟩ := exists_ok hout
  obtain ⟨tokens', hlex', hp'⟩ := exists_ok hout'
  simp only [List.all_eq_true, decide_eq_true_eq] at hp hp'
  refine ⟨⟨tokens, hlex, hp, ?_⟩, tokens', hlex', hp', ?_⟩
  · obtain ⟨items, hitems, -⟩ := exists_ok (r := parse t) (p := fun _ => true) (by decide +kernel)
    have hagree := parse_splice_newline t tokens 4 hlex hp
    rw [hitems] at hagree
    generalize hresult : parse (Text.splice t 4 4 ['\n']) = result at hagree
    cases hagree with
    | ok hmoves => exact ⟨items, _, hitems, hresult, hmoves⟩
  · have hopen : parse u = .error ⟨.unclosedBlock, 1⟩ := eq_error_of_failure? (by decide +kernel)
    have hagree := parse_splice_newline u tokens' 1 hlex' hp'
    rw [hopen] at hagree
    generalize hresult : parse (Text.splice u 1 1 ['\n']) = result at hagree
    cases hagree with
    | error => exact ⟨hopen, hresult⟩

end Grammar
end LiveSheet
