import LiveSheet.Grammar.Reading

/-!
# Braces and parentheses

The depth of a run of tokens in braces, and the verdict of a scan that looks at nothing
but the braces and keeps the open ones on a stack.  What the scan finds is said without
the stack, by the depths in front of the tokens.
-/

namespace LiveSheet
namespace Grammar

/-- How many more tokens there are of one kind than of another. -/
def surplus (opens closes : TokenKind) (ts : List Token) : Int :=
  ts.countP (fun t => t.kind == opens) - ts.countP (fun t => t.kind == closes)

def braceDepth (ts : List Token) : Int := surplus .openBrace .closeBrace ts

def parenDepth (ts : List Token) : Int := surplus .openParen .closeParen ts

/-- The braces are a balanced word that is nowhere deeper than blocks may nest. -/
def BracesBalanced (ts : List Token) : Prop :=
  (∀ k ≤ ts.length, 0 ≤ braceDepth (ts.take k) ∧ braceDepth (ts.take k) ≤ maxNesting) ∧
    braceDepth ts = 0

/-- The token at `k` closes a block where none is open, or opens one too many. -/
def Offends (ts : List Token) (k : Nat) : Prop :=
  ∃ h : k < ts.length,
    ts[k].kind = .closeBrace ∧ braceDepth (ts.take k) = 0 ∨
      ts[k].kind = .openBrace ∧ braceDepth (ts.take k) = maxNesting

/-- The token at `k` opens a block, and the depth never comes back to what it was. -/
def Unclosed (ts : List Token) (k : Nat) : Prop :=
  ∃ h : k < ts.length, ts[k].kind = .openBrace ∧
    ∀ j ≤ ts.length, k < j → braceDepth (ts.take k) < braceDepth (ts.take j)

instance (ts : List Token) : Decidable (BracesBalanced ts) :=
  inferInstanceAs (Decidable (_ ∧ _))

instance (ts : List Token) (k : Nat) : Decidable (Offends ts k) :=
  inferInstanceAs (Decidable (∃ _ : k < ts.length, _))

instance (ts : List Token) (k : Nat) : Decidable (Unclosed ts k) :=
  inferInstanceAs (Decidable (∃ _ : k < ts.length, _))

theorem surplus_append (opens closes : TokenKind) (a b : List Token) :
    surplus opens closes (a ++ b) = surplus opens closes a + surplus opens closes b := by
  simp only [surplus, List.countP_append]
  omega

theorem surplus_cons (opens closes : TokenKind) (t : Token) (ts : List Token) :
    surplus opens closes (t :: ts) = surplus opens closes [t] + surplus opens closes ts :=
  surplus_append opens closes [t] ts

theorem surplus_singleton_opens {opens closes : TokenKind} (hne : opens ≠ closes) {t : Token}
    (h : t.kind = opens) : surplus opens closes [t] = 1 := by
  simp [surplus, h, hne]

theorem surplus_singleton_closes {opens closes : TokenKind} (hne : opens ≠ closes) {t : Token}
    (h : t.kind = closes) : surplus opens closes [t] = -1 := by
  simp [surplus, h, Ne.symm hne]

theorem surplus_singleton_other {opens closes : TokenKind} {t : Token}
    (hopens : t.kind ≠ opens) (hcloses : t.kind ≠ closes) : surplus opens closes [t] = 0 := by
  simp [surplus, hopens, hcloses]

variable {ts pre post : List Token} {t : Token} {k : Nat}

theorem braceDepth_take_succ (h : k < ts.length) :
    braceDepth (ts.take (k + 1)) = braceDepth (ts.take k) + braceDepth [ts[k]] := by
  rw [List.take_succ_eq_append_getElem h]
  exact surplus_append _ _ _ _

theorem braceDepth_open (h : t.kind = .openBrace) : braceDepth [t] = 1 :=
  surplus_singleton_opens (by decide) h

theorem braceDepth_close (h : t.kind = .closeBrace) : braceDepth [t] = -1 :=
  surplus_singleton_closes (by decide) h

theorem braceDepth_other (hopen : t.kind ≠ .openBrace) (hclose : t.kind ≠ .closeBrace) :
    braceDepth [t] = 0 :=
  surplus_singleton_other hopen hclose

theorem open_of_braceDepth (h : 0 < braceDepth [t]) : t.kind = .openBrace := by
  refine Decidable.byContradiction fun hopen => ?_
  by_cases hclose : t.kind = .closeBrace
  · rw [braceDepth_close hclose] at h
    omega
  · rw [braceDepth_other hopen hclose] at h
    omega

theorem depth_within (hfirst : ∀ j < k, ¬Offends ts j) :
    ∀ j ≤ k, j ≤ ts.length →
      0 ≤ braceDepth (ts.take j) ∧ braceDepth (ts.take j) ≤ maxNesting := by
  intro j
  induction j with
  | zero =>
    intro _ _
    rw [List.take_zero]
    decide
  | succ j ih =>
    intro hj hlt
    obtain ⟨hlow, hhigh⟩ := ih (by omega) (by omega)
    have hnot := hfirst j hj
    rw [braceDepth_take_succ hlt]
    by_cases hopen : ts[j].kind = .openBrace
    · have hroom : braceDepth (ts.take j) ≠ maxNesting := fun hfull =>
        hnot ⟨hlt, .inr ⟨hopen, hfull⟩⟩
      rw [braceDepth_open hopen]
      omega
    · by_cases hclose : ts[j].kind = .closeBrace
      · have hinside : braceDepth (ts.take j) ≠ 0 := fun houter =>
          hnot ⟨hlt, .inl ⟨hclose, houter⟩⟩
        rw [braceDepth_close hclose]
        omega
      · rw [braceDepth_other hopen hclose]
        omega

theorem BracesBalanced.not_offends (h : BracesBalanced ts) (k : Nat) : ¬Offends ts k := by
  rintro ⟨hlt, ⟨hclose, houter⟩ | ⟨hopen, hfull⟩⟩
  · have hnext := (h.1 (k + 1) hlt).1
    rw [braceDepth_take_succ hlt, braceDepth_close hclose] at hnext
    omega
  · have hnext := (h.1 (k + 1) hlt).2
    rw [braceDepth_take_succ hlt, braceDepth_open hopen] at hnext
    omega

theorem exists_unclosed_within (depth : Int) (hlow : 0 ≤ depth) (m : Nat)
    (hm : m ≤ ts.length) (hhigh : depth < braceDepth (ts.take m)) :
    ∃ k, ∃ h : k < ts.length, k < m ∧ ts[k].kind = .openBrace ∧
      braceDepth (ts.take k) = depth ∧
      ∀ j ≤ m, k < j → depth < braceDepth (ts.take j) := by
  induction m with
  | zero =>
    rw [List.take_zero] at hhigh
    have hnil : braceDepth [] = 0 := rfl
    omega
  | succ m ih =>
    by_cases hbefore : depth < braceDepth (ts.take m)
    · obtain ⟨k, hk, hkm, hopen, hdepth, habove⟩ := ih (by omega) hbefore
      refine ⟨k, hk, by omega, hopen, hdepth, fun j hj hkj => ?_⟩
      rcases Nat.lt_or_ge m j with hmj | hjm
      · obtain rfl : j = m + 1 := by omega
        exact hhigh
      · exact habove j hjm hkj
    · have hstep := hhigh
      rw [braceDepth_take_succ hm] at hstep
      have hopen : ts[m].kind = .openBrace := open_of_braceDepth (by omega)
      rw [braceDepth_open hopen] at hstep
      refine ⟨m, hm, by omega, hopen, by omega, fun j hj hmj => ?_⟩
      obtain rfl : j = m + 1 := by omega
      exact hhigh

/-- If some blocks stay open, the last of them leaves the depth that the tokens end
with, and nothing behind it comes below that. -/
theorem exists_last_unclosed (h : 0 < braceDepth ts) :
    ∃ k, Unclosed ts k ∧ (∀ j, k < j → ¬Unclosed ts j) ∧
      ∀ j ≤ ts.length, k < j → braceDepth ts ≤ braceDepth (ts.take j) := by
  have hall : braceDepth (ts.take ts.length) = braceDepth ts := by rw [List.take_length]
  obtain ⟨k, hk, -, hopen, hdepth, habove⟩ := exists_unclosed_within
    (braceDepth ts - 1) (by omega) ts.length (Nat.le_refl _) (by omega)
  refine ⟨k, ⟨hk, hopen, fun j hj hkj => hdepth ▸ habove j hj hkj⟩, ?_, fun j hj hkj => ?_⟩
  · rintro j hkj ⟨hj, -, hunclosed⟩
    have hlast := hunclosed ts.length (Nat.le_refl _) hj
    have := habove j (by omega) hkj
    omega
  · have := habove j hj hkj
    omega

/-! ## Scanning the braces -/

/-- The offsets of the open braces behind a token, innermost first. -/
def openAfter (stack : List Nat) (t : Token) : List Nat :=
  if t.kind = .openBrace then t.start :: stack
  else if t.kind = .closeBrace then stack.tail
  else stack

/-- The fault that a scan of the braces finds, when the braces of `stack` are open. -/
def scanBraces (stack : List Nat) : List Token → Option SyntaxError
  | [] => stack.head?.map fun offset => ⟨.unclosedBlock, offset⟩
  | t :: rest =>
    if t.kind = .openBrace ∧ maxNesting ≤ stack.length then some ⟨.nestingTooDeep, t.start⟩
    else if t.kind = .closeBrace ∧ stack = [] then some ⟨.unexpectedBrace, t.start⟩
    else scanBraces (openAfter stack t) rest

/-- While the depth does not come below where it began, the stack is left as it was
below the braces that were opened since. -/
theorem foldl_openAfter (stack : List Nat) (ts : List Token) (m : Nat) (hm : m ≤ ts.length)
    (hlow : ∀ k ≤ m, 0 ≤ braceDepth (ts.take k)) :
    ∃ opened, (ts.take m).foldl openAfter stack = opened ++ stack ∧
      (opened.length : Int) = braceDepth (ts.take m) := by
  induction m with
  | zero => exact ⟨[], rfl, rfl⟩
  | succ m ih =>
    obtain ⟨opened, hstack, hlength⟩ := ih (by omega) fun k hk => hlow k (by omega)
    have hnext := hlow (m + 1) (Nat.le_refl _)
    rw [braceDepth_take_succ hm] at hnext ⊢
    rw [List.take_succ_eq_append_getElem hm, List.foldl_append, hstack]
    show ∃ opened', openAfter (opened ++ stack) ts[m] = opened' ++ stack ∧ _
    by_cases hopen : ts[m].kind = .openBrace
    · refine ⟨ts[m].start :: opened, by rw [openAfter, if_pos hopen]; rfl, ?_⟩
      rw [braceDepth_open hopen, List.length_cons]
      omega
    · rw [openAfter, if_neg hopen]
      by_cases hclose : ts[m].kind = .closeBrace
      · rw [braceDepth_close hclose] at hnext ⊢
        rw [if_pos hclose]
        cases opened with
        | nil =>
          rw [List.length_nil] at hlength
          omega
        | cons s outer =>
          refine ⟨outer, rfl, ?_⟩
          rw [List.length_cons] at hlength
          omega
      · rw [braceDepth_other hopen hclose, if_neg hclose]
        exact ⟨opened, rfl, by omega⟩

theorem length_foldl_openAfter (m : Nat) (hm : m ≤ ts.length)
    (hlow : ∀ k ≤ m, 0 ≤ braceDepth (ts.take k)) :
    (((ts.take m).foldl openAfter []).length : Int) = braceDepth (ts.take m) := by
  obtain ⟨opened, hstack, hlength⟩ := foldl_openAfter [] ts m hm hlow
  rw [hstack, List.append_nil]
  exact hlength

/-- A scan passes over tokens in front of which the depth stays within its limits. -/
theorem scanBraces_take (m : Nat) (hm : m ≤ ts.length)
    (hwithin : ∀ k ≤ m, 0 ≤ braceDepth (ts.take k) ∧ braceDepth (ts.take k) ≤ maxNesting) :
    scanBraces [] ts = scanBraces ((ts.take m).foldl openAfter []) (ts.drop m) := by
  induction m with
  | zero => rfl
  | succ m ih =>
    have hlength := length_foldl_openAfter m (by omega) fun k hk => (hwithin k (by omega)).1
    obtain ⟨hlow, hhigh⟩ := hwithin (m + 1) (Nat.le_refl _)
    rw [braceDepth_take_succ hm] at hlow hhigh
    rw [ih (by omega) fun k hk => hwithin k (by omega), List.drop_eq_getElem_cons hm,
      List.take_succ_eq_append_getElem hm, List.foldl_append, scanBraces, if_neg, if_neg]
    · rfl
    · rintro ⟨hclose, hstack⟩
      rw [hstack, List.length_nil] at hlength
      rw [braceDepth_close hclose] at hlow
      omega
    · rintro ⟨hopen, hfull⟩
      rw [braceDepth_open hopen] at hhigh
      omega

theorem scanBraces_of_offends (h : k < ts.length) (hk : Offends ts k)
    (hfirst : ∀ j < k, ¬Offends ts j) :
    scanBraces [] ts = some
      ⟨if ts[k].kind = .closeBrace then .unexpectedBrace else .nestingTooDeep, ts[k].start⟩ := by
  have hwithin : ∀ j ≤ k, 0 ≤ braceDepth (ts.take j) ∧ braceDepth (ts.take j) ≤ maxNesting :=
    fun j hj => depth_within hfirst j hj (by omega)
  have hlength := length_foldl_openAfter k (by omega) fun j hj => (hwithin j hj).1
  rw [scanBraces_take k (by omega) hwithin, List.drop_eq_getElem_cons h, scanBraces]
  obtain ⟨_, ⟨hclose, houter⟩ | ⟨hopen, hfull⟩⟩ := hk
  · have hstack : (ts.take k).foldl openAfter [] = [] := by
      rw [← List.length_eq_zero_iff]
      omega
    rw [if_neg, if_pos ⟨hclose, hstack⟩, if_pos hclose]
    exact fun hdeep => absurd (hclose.symm.trans hdeep.1) (by decide)
  · rw [if_pos ⟨hopen, by omega⟩, if_neg]
    exact fun hclose => absurd (hclose.symm.trans hopen) (by decide)

theorem depths_within (h : ∀ k, ¬Offends ts k) :
    ∀ k ≤ ts.length, 0 ≤ braceDepth (ts.take k) ∧ braceDepth (ts.take k) ≤ maxNesting :=
  fun k hk => depth_within (fun j _ => h j) k hk hk

theorem scanBraces_of_not_offends (h : ∀ k, ¬Offends ts k) :
    scanBraces [] ts = (ts.foldl openAfter []).head?.map fun offset => ⟨.unclosedBlock, offset⟩ := by
  rw [scanBraces_take ts.length (Nat.le_refl _) (depths_within h), List.take_length,
    List.drop_length]
  rfl

/-- If the depth ends right above an open brace and does not come below that behind it,
the brace is left on top of the stack. -/
theorem foldl_openAfter_eq (hk : k < ts.length) (hopen : ts[k].kind = .openBrace)
    (hdepth : braceDepth (ts.take (k + 1)) = braceDepth ts)
    (habove : ∀ j ≤ ts.length, k < j → braceDepth ts ≤ braceDepth (ts.take j)) :
    ts.foldl openAfter [] = ts[k].start :: (ts.take k).foldl openAfter [] := by
  have hbehind : ∀ i, braceDepth (ts.take (k + 1 + i)) =
      braceDepth ts + braceDepth ((ts.drop (k + 1)).take i) := by
    intro i
    rw [List.take_add, ← hdepth]
    exact surplus_append _ _ _ _
  have hlength : (ts.drop (k + 1)).length = ts.length - (k + 1) := List.length_drop
  obtain ⟨opened, hstack, hopened⟩ := foldl_openAfter
    (ts[k].start :: (ts.take k).foldl openAfter []) (ts.drop (k + 1)) _ (Nat.le_refl _)
    fun i hi => by
      have := habove (k + 1 + i) (by omega) (by omega)
      have := hbehind i
      omega
  rw [List.take_length] at hstack hopened
  -- all that was opened behind the brace has been closed
  have hnil : opened = [] := by
    have hall := hbehind (ts.drop (k + 1)).length
    rw [List.take_length, List.take_of_length_le (by omega)] at hall
    rw [← List.length_eq_zero_iff]
    omega
  calc ts.foldl openAfter []
    _ = (ts.drop k).foldl openAfter ((ts.take k).foldl openAfter []) := by
      rw [← List.foldl_append, List.take_append_drop]
    _ = (ts.drop (k + 1)).foldl openAfter (ts[k].start :: (ts.take k).foldl openAfter []) := by
      rw [List.drop_eq_getElem_cons hk, List.foldl_cons, openAfter, if_pos hopen]
    _ = ts[k].start :: (ts.take k).foldl openAfter [] := by
      rw [hstack, hnil, List.nil_append]

theorem scanBraces_of_not_balanced (h : ∀ k, ¬Offends ts k) (hopen : ¬BracesBalanced ts) :
    ∃ k, ∃ hk : k < ts.length, Unclosed ts k ∧ (∀ j, k < j → ¬Unclosed ts j) ∧
      scanBraces [] ts = some ⟨.unclosedBlock, ts[k].start⟩ := by
  have hlow := (depths_within h ts.length (Nat.le_refl _)).1
  rw [List.take_length] at hlow
  have hne : braceDepth ts ≠ 0 := fun hzero => hopen ⟨depths_within h, hzero⟩
  have hpos : 0 < braceDepth ts := by omega
  obtain ⟨k, hunclosed, hlast, habove⟩ := exists_last_unclosed hpos
  have ⟨hk, hbrace, hdeeper⟩ := hunclosed
  have hdepth : braceDepth (ts.take (k + 1)) = braceDepth ts := by
    have hbelow := hdeeper ts.length (Nat.le_refl _) hk
    have hnext := habove (k + 1) hk (by omega)
    rw [List.take_length] at hbelow
    rw [braceDepth_take_succ hk, braceDepth_open hbrace] at hnext ⊢
    omega
  refine ⟨k, hk, hunclosed, hlast, ?_⟩
  rw [scanBraces_of_not_offends h, foldl_openAfter_eq hk hbrace hdepth habove]
  rfl

theorem scanBraces_eq_none_iff : scanBraces [] ts = none ↔ BracesBalanced ts := by
  constructor
  · intro hnone
    have hnot : ∀ k, ¬Offends ts k := by
      intro k
      -- the first token that offends would have been found
      induction k using Nat.strongRecOn with
      | ind k ih =>
        intro hk
        have ⟨hlt, _⟩ := hk
        rw [scanBraces_of_offends hlt hk ih] at hnone
        exact nomatch hnone
    refine Decidable.byContradiction fun hopen => ?_
    obtain ⟨k, _, -, -, hscan⟩ := scanBraces_of_not_balanced hnot hopen
    rw [hscan] at hnone
    exact nomatch hnone
  · intro h
    have hlength := length_foldl_openAfter ts.length (Nat.le_refl _) fun k hk => (h.1 k hk).1
    rw [List.take_length, h.2] at hlength
    have hstack : ts.foldl openAfter [] = [] := by
      rw [← List.length_eq_zero_iff]
      omega
    rw [scanBraces_of_not_offends h.not_offends, hstack]
    rfl

/-! ## Parentheses -/

def IsBrace (t : Token) : Prop := t.kind = .openBrace ∨ t.kind = .closeBrace

instance (t : Token) : Decidable (IsBrace t) := inferInstanceAs (Decidable (_ ∨ _))

/-- The parentheses are balanced, and no brace stands inside them. -/
def ParensEnclosed (ts : List Token) : Prop :=
  (∀ k ≤ ts.length, 0 ≤ parenDepth (ts.take k)) ∧
    (∀ k, ∀ h : k < ts.length, IsBrace ts[k] → parenDepth (ts.take k) = 0) ∧
    parenDepth ts = 0

instance (ts : List Token) : Decidable (ParensEnclosed ts) :=
  inferInstanceAs (Decidable (_ ∧ _ ∧ _))

/-- The same of tokens that begin inside `depth` parentheses, read from left to right. -/
def Enclosed (depth : Nat) : List Token → Prop
  | [] => depth = 0
  | t :: rest =>
    (t.kind = .closeParen → 0 < depth) ∧ (IsBrace t → depth = 0) ∧
      Enclosed (depthAfter depth t.kind) rest

theorem depthAfter_other {kind : TokenKind} (hopen : kind ≠ .openParen)
    (hclose : kind ≠ .closeParen) (depth : Nat) : depthAfter depth kind = depth := by
  unfold depthAfter
  split
  · exact absurd rfl hopen
  · exact absurd rfl hclose
  · rfl

theorem depthAfter_eq {depth : Nat} (h : 0 ≤ depth + parenDepth [t]) :
    (t.kind = .closeParen → 0 < depth) ∧
      (depthAfter depth t.kind : Int) = depth + parenDepth [t] := by
  by_cases hopen : t.kind = .openParen
  · have hdepth : parenDepth [t] = 1 := surplus_singleton_opens (by decide) hopen
    rw [hdepth, hopen]
    exact ⟨nofun, rfl⟩
  · by_cases hclose : t.kind = .closeParen
    · have hdepth : parenDepth [t] = -1 := surplus_singleton_closes (by decide) hclose
      rw [hdepth] at h ⊢
      rw [hclose, depthAfter]
      omega
    · have hdepth : parenDepth [t] = 0 := surplus_singleton_other hopen hclose
      refine ⟨fun h => absurd h hclose, ?_⟩
      rw [hdepth, depthAfter_other hopen hclose, Int.add_zero]

theorem enclosed_of_depths (ts : List Token) (depth : Nat)
    (hlow : ∀ k ≤ ts.length, 0 ≤ depth + parenDepth (ts.take k))
    (hbrace : ∀ k, ∀ h : k < ts.length, IsBrace ts[k] → depth + parenDepth (ts.take k) = 0)
    (hend : depth + parenDepth ts = 0) : Enclosed depth ts := by
  induction ts generalizing depth with
  | nil =>
    have hnil : parenDepth [] = 0 := rfl
    show depth = 0
    omega
  | cons t rest ih =>
    have hsplit : ∀ us, parenDepth (t :: us) = parenDepth [t] + parenDepth us :=
      fun us => surplus_cons _ _ t us
    obtain ⟨hclose, hafter⟩ := depthAfter_eq (hlow 1 (Nat.succ_le_succ (Nat.zero_le _)))
    refine ⟨hclose, fun hb => ?_, ih _ (fun k hk => ?_) (fun k hk hb => ?_) ?_⟩
    · have hzero := hbrace 0 (Nat.succ_pos _) hb
      have hnil : parenDepth ((t :: rest).take 0) = 0 := rfl
      omega
    · have hnext := hlow (k + 1) (Nat.succ_le_succ hk)
      rw [List.take_succ_cons, hsplit] at hnext
      omega
    · have hnext := hbrace (k + 1) (Nat.succ_lt_succ hk) hb
      rw [List.take_succ_cons, hsplit] at hnext
      omega
    · rw [hsplit] at hend
      omega

theorem ParensEnclosed.enclosed (h : ParensEnclosed ts) : Enclosed 0 ts :=
  enclosed_of_depths ts 0 (fun k hk => (Int.zero_add _).symm ▸ h.1 k hk)
    (fun k hk hb => (Int.zero_add _).trans (h.2.1 k hk hb)) ((Int.zero_add _).trans h.2.2)

end Grammar
end LiveSheet
