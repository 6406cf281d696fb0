import LiveSheet.Proofs.History
import LiveSheet.Proofs.Layout
import LiveSheet.Proofs.Reading
import Mathlib.Data.List.Chain

/-!
# Promptness

How far a watched parse goes between two questions.  The lexer asks again after an interval of
tokens at the latest.  The reader asks at the first item that begins an interval of tokens behind
the last question, so what lies in between may be longer by as much as one item.
-/

namespace LiveSheet
namespace Work

variable {α β : Type} {history : Nat → Nat → Bool} {pauses polls : Nat}

/-- The questions that are asked on the way under a history, each with its answer. -/
def asked (history : Nat → Nat → Bool) (pauses polls : Nat) : Work α → List (Checkpoint × Bool)
  | done _ => []
  | poll mark next =>
    (mark, history pauses polls) :: (next (history pauses polls)).asked history pauses (polls + 1)
  | pause next => next.asked history (pauses + 1) polls

theorem under_answers (w : Work α) :
    (w.under history pauses polls).2 = (w.asked history pauses polls).map Prod.snd := by
  induction w generalizing pauses polls with
  | done a => rfl
  | poll mark next ih => exact congrArg (history pauses polls :: ·) (ih (history pauses polls))
  | pause next ih => exact ih

/-- Work that gives up on a yes asks nothing after that. -/
theorem asked_check (mark : Checkpoint) (version : Nat)
    (next : Unit → Work (Except ParseError α)) :
    (check mark version next).asked history pauses polls =
      (mark, history pauses polls) ::
        if history pauses polls then [] else (next ()).asked history pauses (polls + 1) := by
  rw [check, asked]
  cases history pauses polls <;> rfl

theorem asked_bind (w : Work α) (f : α → Work β) (history : Nat → Nat → Bool)
    (pauses polls : Nat) :
    ∃ pauses' polls', (w.bind f).asked history pauses polls = w.asked history pauses polls ++
      (f (w.under history pauses polls).1).asked history pauses' polls' := by
  induction w generalizing pauses polls with
  | done a => exact ⟨pauses, polls, rfl⟩
  | poll mark next ih =>
    obtain ⟨pauses', polls', hlater⟩ := ih (history pauses polls) pauses (polls + 1)
    refine ⟨pauses', polls', ?_⟩
    rw [Work.bind, asked, asked, hlater, List.cons_append, under]
  | pause next ih => exact ih (pauses + 1) polls

/-- A yes ends the work: it is the last answer, and the work gives up. -/
theorem Delivers.gives_up {version : Nat} {result : Except ParseError α}
    {w : Work (Except ParseError α)} (h : Delivers version result w)
    (history : Nat → Nat → Bool) (pauses polls : Nat) :
    ∀ e ∈ w.asked history pauses polls, e.2 = true →
      (w.asked history pauses polls).getLast? = some e ∧
        (w.under history pauses polls).1 = .error (.cancelled version) := by
  induction h generalizing pauses polls with
  | done => exact List.forall_mem_nil _
  | pause _ ih => exact ih (pauses + 1) polls
  | @check mark next _ ih =>
    intro e he hyes
    rw [asked_check] at he ⊢
    rw [Work.check, Work.under]
    cases hanswer : history pauses polls with
    | true =>
      rw [hanswer, if_pos rfl] at he
      rw [if_pos rfl, List.mem_singleton.1 he]
      exact ⟨rfl, rfl⟩
    | false =>
      simp only [hanswer, Bool.false_eq_true, if_false, List.mem_cons] at he ⊢
      rcases he with rfl | he
      · cases hyes
      · obtain ⟨hlast, hvalue⟩ := ih pauses (polls + 1) e he hyes
        refine ⟨?_, hvalue⟩
        rw [List.getLast?_cons, hlast]
        rfl

/-- The questions of a phase.  Each fits to the number of tokens at which the one before it was
asked, and so does the end of the phase, if no answer puts an end to it. -/
inductive Timely (fits : Nat → Checkpoint → Prop) (ends : Nat → Prop) :
    Nat → List (Checkpoint × Bool) → Prop
  | ended {last : Nat} : ends last → Timely fits ends last []
  | refused {last : Nat} {mark : Checkpoint} : fits last mark → Timely fits ends last [(mark, true)]
  | granted {last : Nat} {mark : Checkpoint} {later : List (Checkpoint × Bool)} :
    fits last mark → Timely fits ends mark.tokens later →
      Timely fits ends last ((mark, false) :: later)

variable {fits fits' : Nat → Checkpoint → Prop} {ends ends' : Nat → Prop} {last : Nat}
  {questions : List (Checkpoint × Bool)}

theorem Timely.check {mark : Checkpoint} {version : Nat}
    {next : Unit → Work (Except ParseError α)} (hfits : fits last mark)
    (hnext : Timely fits ends mark.tokens ((next ()).asked history pauses (polls + 1))) :
    Timely fits ends last ((check mark version next).asked history pauses polls) := by
  rw [asked_check]
  cases history pauses polls with
  | true => exact .refused hfits
  | false => exact .granted hfits hnext

theorem Timely.imp (h : Timely fits ends last questions)
    (hfits : ∀ last mark, fits last mark → fits' last mark) (hends : ∀ last, ends last → ends' last) :
    Timely fits' ends' last questions := by
  induction h with
  | ended h => exact .ended (hends _ h)
  | refused h => exact .refused (hfits _ _ h)
  | granted h _ ih => exact .granted (hfits _ _ h) ih

theorem Timely.forall_mark {p : Checkpoint → Prop} (h : Timely fits ends last questions)
    (hp : ∀ last mark, fits last mark → p mark) : ∀ e ∈ questions, p e.1 := by
  induction h with
  | ended => exact List.forall_mem_nil _
  | refused h => exact List.forall_mem_singleton.2 (hp _ _ h)
  | granted h _ ih => exact List.forall_mem_cons.2 ⟨hp _ _ h, ih⟩

end Work

/-- How many tokens the lexer finds in a text before it is at the end or at a fault. -/
def Token.countIn : Text → Nat
  | [] => 0
  | c :: rest =>
    match scan (c :: rest) with
    | .blank => countIn rest
    | .token _ more => countIn (rest.drop more) + 1
    | .finished | .fault _ => 0
termination_by t => t.length

theorem Token.length_eq_of_lexFrom {offset : Nat} {found tokens : List Token} {t : Text}
    (h : lexFrom offset found t = .ok tokens) : tokens.length = found.length + countIn t := by
  fun_induction lexFrom offset found t with
  | case1 =>
    cases h
    rw [countIn, List.length_reverse, Nat.add_zero]
  | case2 _ _ _ _ hscan =>
    cases h
    rw [countIn, hscan, List.length_reverse, Nat.add_zero]
  | case3 _ _ _ _ hscan ih => rw [countIn, hscan, ih h]
  | case4 _ _ _ _ _ _ hscan ih =>
    rw [countIn, hscan, ih h, List.length_cons, Nat.add_assoc, Nat.add_comm 1]
  | case5 => cases h

namespace Grammar

open Work

variable {history : Nat → Nat → Bool} {pauses polls k : Nat}

/-! ## Lexing -/

/-- The lexer asks at one token less than each multiple of the interval.  So the next such count
is ahead by less than an interval. -/
theorem watchedLexFrom_timely (hk : 0 < k) (version offset : Nat) (found : List Token) (t : Text)
    {last count due : Nat} (hdue : due % k = k - 1) (hlast : last ≤ count) (hcount : count ≤ due)
    (hnear : due ≤ last + k) :
    Timely (fun last mark => mark.phase = .lexing ∧ last ≤ mark.tokens ∧ mark.tokens ≤ last + k)
      (fun last => count + Token.countIn t ≤ last + k) last
      ((watchedLexFrom version k offset count found t).asked history pauses polls) := by
  fun_induction Token.lexFrom offset found t generalizing last count due pauses polls with
  | case1 offset found =>
    rw [watchedLexFrom, Token.countIn]
    exact .ended (Nat.le_trans hcount hnear)
  | case2 offset found c rest hscan =>
    have hfits := Token.scan_fits c rest
    rw [hscan] at hfits
    exact hfits.elim
  | case3 offset found c rest hscan ih =>
    rw [watchedLexFrom, Token.countIn]
    simp only [hscan]
    split
    · rename_i hasks
      exact .check ⟨rfl, hlast, Nat.le_trans hcount hnear⟩
        (ih hasks (Nat.le_refl _) (Nat.le_refl _) (Nat.le_add_right _ _))
    · exact ih hdue hlast hcount hnear
  | case4 offset found c rest kind more hscan ih =>
    rw [watchedLexFrom, Token.countIn]
    simp only [hscan]
    rw [Nat.add_comm (Token.countIn _) 1, ← Nat.add_assoc]
    split
    · rename_i hasks
      have hdue' : (count + k) % k = k - 1 := by rw [Nat.add_mod_right, hasks]
      exact .check ⟨rfl, hlast, Nat.le_trans hcount hnear⟩
        (ih hdue' (Nat.le_succ _) (Nat.add_le_add_left hk count) (Nat.le_refl _))
    · rename_i hnot
      have hne : count ≠ due := fun heq => hnot (heq ▸ hdue)
      exact ih hdue (Nat.le_succ_of_le hlast) (Nat.lt_of_le_of_ne hcount hne) hnear
  | case5 offset found c rest cause hscan =>
    rw [watchedLexFrom, Token.countIn]
    simp only [hscan]
    have hend : count + 0 ≤ last + k := Nat.le_trans hcount hnear
    split
    · exact .check ⟨rfl, hlast, hend⟩ (.ended (Nat.le_add_right _ _))
    · exact .ended hend

/-- If no question of the lexer is answered with yes, it gives its tokens. -/
theorem watchedLexFrom_under_ok {version offset count : Nat} {found tokens : List Token} {t : Text}
    (hlex : Token.lexFrom offset found t = .ok tokens)
    (hno : ∀ e ∈ (watchedLexFrom version k offset count found t).asked history pauses polls,
      e.2 = false) :
    ((watchedLexFrom version k offset count found t).under history pauses polls).1 =
      .ok tokens := by
  rw [(watchedLexFrom_delivers version k offset count found t).under, hlex, under_answers, if_neg]
  · rfl
  · intro hyes
    obtain ⟨e, he, hanswer⟩ := List.mem_map.1 hyes
    exact Bool.false_ne_true ((hno e he).symm.trans hanswer)

/-! ## Reading -/

/-- How many of `total` tokens have been taken at each moment at which a reading stands between
two steps. -/
def Reading.stops (total : Nat) (r : Reading) : List Nat :=
  (total - r.rest.length) ::
    match _ : r.step with
    | .more next => next.stops total
    | .finished _ | .fault _ => []
termination_by r.rest.length
decreasing_by exact Reading.step_rest_length_lt (by assumption)

theorem Reading.stops_eq (total : Nat) (r : Reading) :
    r.stops total = (total - r.rest.length) ::
      match r.step with
      | .more next => next.stops total
      | .finished _ | .fault _ => [] := by
  rw [Reading.stops]
  split <;> rename_i h <;> rw [h]

theorem Reading.stops_start (ts : List Token) :
    ∃ rest, (Reading.start ts).stops ts.length = 0 :: rest := by
  rw [Reading.stops_eq]
  exact ⟨_, congrArg (· :: _) (Nat.sub_self ts.length)⟩

theorem Reading.le_of_mem_stops {total : Nat} {r : Reading} :
    ∀ b ∈ r.stops total, total - r.rest.length ≤ b := by
  rw [Reading.stops_eq]
  refine List.forall_mem_cons.2 ⟨Nat.le_refl _, ?_⟩
  cases hstep : r.step with
  | finished => exact List.forall_mem_nil _
  | fault => exact List.forall_mem_nil _
  | more next =>
    intro b hb
    have hlater := le_of_mem_stops b hb
    have hless := Reading.step_rest_length_lt hstep
    omega
termination_by r.rest.length
decreasing_by exact Reading.step_rest_length_lt (by assumption)

/-- A question at one of the stops.  All stops in front of it are less than an interval behind
the last question. -/
structure Due (k : Nat) (stops : List Nat) (last : Nat) (mark : Checkpoint) : Prop where
  phase : mark.phase = .reading
  le : last ≤ mark.tokens
  stop : mark.tokens ∈ stops
  near : ∀ b ∈ stops, b < mark.tokens → b < last + k

/-- No stop is an interval behind the last question or more. -/
def Near (k : Nat) (stops : List Nat) (last : Nat) : Prop := ∀ b ∈ stops, b < last + k

/-- A stop that is near, in front of the others. -/
theorem timely_cons (hk : 0 < k) {stops : List Nat} {p last : Nat}
    {questions : List (Checkpoint × Bool)} (hp : ∀ b ∈ stops, p ≤ b) (hnear : p < last + k)
    (h : Timely (Due k stops) (Near k stops) last questions) :
    Timely (Due k (p :: stops)) (Near k (p :: stops)) last questions := by
  have hdue : ∀ {last : Nat} {mark : Checkpoint}, p < last + k → Due k stops last mark →
      Due k (p :: stops) last mark := fun hnear hdue =>
    ⟨hdue.phase, hdue.le, List.mem_cons_of_mem _ hdue.stop,
      List.forall_mem_cons.2 ⟨fun _ => hnear, hdue.near⟩⟩
  induction h with
  | ended hends => exact .ended (List.forall_mem_cons.2 ⟨hnear, hends⟩)
  | refused h => exact .refused (hdue hnear h)
  | granted h _ ih =>
    have hle := hp _ h.stop
    exact .granted (hdue hnear h) (ih (by omega))

/-- A question at the first of the stops. -/
theorem due_first {r : Reading} {total last : Nat} (hlast : last ≤ total - r.rest.length) :
    Due k (r.stops total) last ⟨.reading, total - r.rest.length⟩ := by
  refine ⟨rfl, hlast, ?_, fun b hb hlt => ?_⟩
  · rw [Reading.stops_eq]
    exact List.mem_cons_self
  · exact absurd (Reading.le_of_mem_stops b hb) (Nat.not_le.2 hlt)

/-- The next question is set for an interval behind the last one or earlier, and a stop that does
not reach it asks nothing. -/
theorem watchedRead_timely (hk : 0 < k) (version total : Nat) (marks : Marks) (r : Reading)
    {last : Nat} (hnext : marks.nextPoll ≤ last + k) (hlast : last ≤ total - r.rest.length)
    (pauses polls : Nat) :
    Timely (Due k (r.stops total)) (Near k (r.stops total)) last
      ((watchedRead version k total marks r).asked history pauses polls) := by
  have hstep : ∀ (marks : Marks) {last : Nat} (polls : Nat), marks.nextPoll ≤ last + k →
      last ≤ total - r.rest.length → total - r.rest.length < last + k →
      Timely (Due k (r.stops total)) (Near k (r.stops total)) last
        ((watchedNext version k total marks r.step).asked history pauses polls) := by
    intro marks last polls hnext hlast hnear
    rw [Reading.stops_eq]
    cases hs : r.step with
    | finished => exact .ended (List.forall_mem_singleton.2 hnear)
    | fault => exact .ended (List.forall_mem_singleton.2 hnear)
    | more next =>
      have hless := Reading.step_rest_length_lt hs
      have hreached : total - r.rest.length ≤ total - next.rest.length := by omega
      have hlast' : last ≤ total - next.rest.length := Nat.le_trans hlast hreached
      refine timely_cons hk (fun b hb => Nat.le_trans hreached (Reading.le_of_mem_stops b hb))
        hnear ?_
      unfold watchedNext
      dsimp only
      split
      · rw [asked]
        refine Timely.check (due_first hlast') ?_
        have hahead : marks.nextPoll ≤ total - next.rest.length + k := by omega
        exact watchedRead_timely hk version total
          { marks with lastPause := total - next.rest.length } next hahead (Nat.le_refl _) _ _
      · exact watchedRead_timely hk version total marks next hnext hlast' pauses polls
  rw [watchedRead_eq]
  split
  · exact .check (due_first hlast)
      (hstep _ (polls + 1) (Nat.le_refl _) (Nat.le_refl _) (Nat.lt_add_of_pos_right hk))
  · exact hstep marks polls hnext hlast (by omega)
termination_by r.rest.length
decreasing_by all_goals exact Reading.step_rest_length_lt (by assumption)

/-- If the stops are no more than `n` tokens apart, and all of them in front of `m` are in front
of `bound`, then `m` is fewer than `n` tokens behind it. -/
theorem lt_add_of_isChain {first m n bound : Nat} {stops : List Nat}
    (hchain : (first :: stops).IsChain fun b b' => b' ≤ b + n) (hfirst : first < bound + n)
    (hm : m ∈ first :: stops) (hnear : ∀ b ∈ first :: stops, b < m → b < bound) :
    m < bound + n := by
  induction stops generalizing first with
  | nil => exact List.mem_singleton.1 hm ▸ hfirst
  | cons second rest ih =>
    obtain ⟨hstep, hchain⟩ := List.isChain_cons_cons.1 hchain
    obtain ⟨hfirstNear, hnear⟩ := List.forall_mem_cons.1 hnear
    rcases Nat.lt_or_ge first m with hlt | hge
    · have hless := hfirstNear hlt
      have hmem : m ∈ second :: rest := (List.mem_cons.1 hm).resolve_left (Nat.ne_of_gt hlt)
      exact ih hchain (by omega) hmem hnear
    · omega

theorem Reading.mem_stops_of_run {total : Nat} {items : List Item} {r : Reading}
    (h : r.run = .ok items) : total ∈ r.stops total := by
  rw [Reading.run_eq] at h
  rw [Reading.stops_eq]
  cases hstep : r.step with
  | finished =>
    have hend := finished_of_step hstep
    rw [hend]
    exact List.mem_cons_self
  | fault e =>
    rw [hstep] at h
    cases h
  | more next =>
    rw [hstep] at h
    exact List.mem_cons_of_mem _ (mem_stops_of_run h)
termination_by r.rest.length
decreasing_by exact Reading.step_rest_length_lt (by assumption)

theorem watchedLex_timely {k : Nat} (hk : 0 < k) (version : Nat) (t : Text)
    (history : Nat → Nat → Bool) :
    Timely (fun last mark => mark.phase = .lexing ∧ last ≤ mark.tokens ∧ mark.tokens ≤ last + k)
      (fun last => Token.countIn t ≤ last + k) 0
      ((watchedLexFrom version k 0 0 [] t).asked history 0 0) := by
  have hdue : (k - 1) % k = k - 1 := Nat.mod_eq_of_lt (Nat.sub_lt hk Nat.one_pos)
  have hnear : k - 1 ≤ 0 + k := Nat.le_trans (Nat.sub_le k 1) (Nat.le_add_left k 0)
  refine (watchedLexFrom_timely hk version 0 [] t hdue (Nat.le_refl 0) (Nat.zero_le _) hnear).imp
    (fun _ _ h => h) fun last h => ?_
  rwa [Nat.zero_add] at h

theorem watchedRead_start_timely {k : Nat} (hk : 0 < k) (version : Nat)
    (history : Nat → Nat → Bool) (tokens : List Token) (pauses polls : Nat) :
    let stops := (Reading.start tokens).stops tokens.length
    Timely (Due k stops) (Near k stops) 0
      ((watchedRead version k tokens.length ⟨k, 0⟩ (.start tokens)).asked history pauses polls) :=
  watchedRead_timely hk version _ _ _ (Nat.le_add_left k 0) (Nat.zero_le _) pauses polls

/-- The questions of a watched parse are those of its lexer and then, if it has tokens to read,
those of its reader. -/
theorem exists_asked_watchedParse (interval version : Nat) (t : Text)
    (history : Nat → Nat → Bool) :
    let k := max 1 interval
    let lexer := watchedLexFrom version k 0 0 [] t
    ∃ lexed read, (watchedParse interval version t).asked history 0 0 = lexed ++ read ∧
      lexed = lexer.asked history 0 0 ∧
      ((read = [] ∧ ∀ tokens, (lexer.under history 0 0).1 ≠ .ok tokens) ∨
        ∃ tokens pauses polls, (lexer.under history 0 0).1 = .ok tokens ∧
          read = (watchedRead version k tokens.length ⟨k, 0⟩ (.start tokens)).asked history
            pauses polls) := by
  intro k lexer
  refine (asked_bind lexer _ history 0 0).elim fun pauses h => h.elim fun polls hasked =>
    ⟨_, _, hasked, rfl, ?_⟩
  cases (lexer.under history 0 0).1 with
  | error e => exact .inl ⟨rfl, nofun⟩
  | ok tokens => exact .inr ⟨tokens, pauses, polls, rfl, rfl⟩

theorem filter_phase {lexed read : List (Checkpoint × Bool)}
    (hlexed : ∀ e ∈ lexed, e.1.phase = .lexing) (hread : ∀ e ∈ read, e.1.phase = .reading) :
    (lexed ++ read).filter (·.1.phase = .lexing) = lexed ∧
      (lexed ++ read).filter (·.1.phase = .reading) = read := by
  have hlexed' : ∀ e ∈ lexed, ¬decide (e.1.phase = .reading) = true := fun e he =>
    by rw [hlexed e he]; decide
  have hread' : ∀ e ∈ read, ¬decide (e.1.phase = .lexing) = true := fun e he =>
    by rw [hread e he]; decide
  rw [List.filter_append, List.filter_append, List.filter_eq_nil_iff.2 hread',
    List.filter_eq_nil_iff.2 hlexed', List.append_nil, List.nil_append]
  exact ⟨List.filter_eq_self.2 fun e he => decide_eq_true (hlexed e he),
    List.filter_eq_self.2 fun e he => decide_eq_true (hread e he)⟩

/-- Promptness.  A yes ends the work.  The first question of the lexer comes when it has found no
more than an interval of tokens, and each later one, or the end, when it has found no more than
that since the one before.  The reader, too, asks at a stop between two steps, and every stop in
front of its next question, or of the end, is less than an interval behind the last one.  So if no
step takes more than `n` tokens, there are fewer than an interval and `n` tokens between two
questions. -/
theorem watchedParse_timely (interval version : Nat) (t : Text) (history : Nat → Nat → Bool) :
    let k := max 1 interval
    let work := watchedParse interval version t
    let questions := work.asked history 0 0
    let lexing := questions.filter (·.1.phase = .lexing)
    let reading := questions.filter (·.1.phase = .reading)
    (∀ e ∈ questions, e.2 = true →
      questions.getLast? = some e ∧ (work.under history 0 0).1 = .error (.cancelled version)) ∧
    Timely (fun last mark => last ≤ mark.tokens ∧ mark.tokens ≤ last + k)
      (fun last => Token.countIn t ≤ last + k) 0 lexing ∧
    ∀ tokens, Token.lex t = .ok tokens → (∀ e ∈ lexing, e.2 = false) →
      let stops := (Reading.start tokens).stops tokens.length
      tokens.length = Token.countIn t ∧ (∀ items, parse t = .ok items → tokens.length ∈ stops) ∧
      Timely (Due k stops) (Near k stops) 0 reading ∧
      ∀ n, stops.IsChain (fun b b' => b' ≤ b + n) →
        Timely (fun last mark => last ≤ mark.tokens ∧ mark.tokens < last + k + n) (Near k stops) 0
          reading := by
  intro k work questions lexing reading
  have hk : 0 < k := Nat.lt_of_lt_of_le Nat.one_pos (Nat.le_max_left 1 interval)
  obtain ⟨lexed, read, hquestions, hlexed, hread⟩ :=
    exists_asked_watchedParse interval version t history
  have hlexer := watchedLex_timely hk version t history
  rw [← hlexed] at hlexer
  have hreader := watchedRead_start_timely hk version history
  have hlexPhase : ∀ e ∈ lexed, e.1.phase = .lexing := hlexer.forall_mark fun _ _ h => h.1
  have hreadPhase : ∀ e ∈ read, e.1.phase = .reading := by
    rcases hread with ⟨rfl, -⟩ | ⟨tokens, pauses, polls, -, rfl⟩
    · exact List.forall_mem_nil _
    · exact (hreader tokens pauses polls).forall_mark fun _ _ h => h.phase
  obtain ⟨hlexing, hreading⟩ : lexing = lexed ∧ reading = read := by
    have hsplit := filter_phase hlexPhase hreadPhase
    rwa [← hquestions] at hsplit
  refine ⟨(watchedParse_delivers interval version t).gives_up history 0 0, ?_, ?_⟩
  · rw [hlexing]
    exact hlexer.imp (fun _ _ h => h.2) fun _ h => h
  · intro tokens hlex hno stops
    rw [hlexing, hlexed] at hno
    have hvalue := watchedLexFrom_under_ok hlex hno
    have hprompt : Timely (Due k stops) (Near k stops) 0 reading := by
      rw [hreading]
      rcases hread with ⟨-, hnone⟩ | ⟨tokens', pauses, polls, hsome, rfl⟩
      · exact absurd hvalue (hnone tokens)
      · cases hvalue.symm.trans hsome
        exact hreader tokens pauses polls
    have hlength : tokens.length = Token.countIn t := by
      rw [Token.length_eq_of_lexFrom hlex, List.length_nil, Nat.zero_add]
    refine ⟨hlength, fun items hparse => ?_, hprompt, fun n hchain => ?_⟩
    · rw [parse, hlex] at hparse
      exact Reading.mem_stops_of_run hparse
    · refine hprompt.imp (fun last mark hdue => ⟨hdue.le, ?_⟩) fun _ h => h
      obtain ⟨rest, hstops⟩ : ∃ rest, stops = 0 :: rest := Reading.stops_start tokens
      have hstop := hdue.stop
      have hnear := hdue.near
      rw [hstops] at hchain hstop hnear
      exact lt_add_of_isChain hchain (by omega) hstop hnear

/-- A long value behind a short item. -/
def longValue : Text := "a;$b:,,,,,,,,;".toList

theorem watchedParse_timely_longValue :
    let reading := ((watchedParse 2 0 longValue).asked (fun _ _ => false) 0 0).filter
      (·.1.phase = .reading)
    let stops := [0, 2, 13]
    (∃ tokens, Token.lex longValue = .ok tokens ∧
      (Reading.start tokens).stops tokens.length = stops) ∧
    stops.IsChain (fun b b' => b' ≤ b + 11) ∧ reading.map (·.1.tokens) = [2, 2, 13, 13] ∧
      Timely (fun last mark => last ≤ mark.tokens ∧ mark.tokens < last + 2 + 11) (Near 2 stops) 0
        reading := by
  intro reading stops
  obtain ⟨-, -, hreading⟩ := watchedParse_timely 2 0 longValue fun _ _ => false
  have hread : (Token.lex longValue).toOption.any (fun tokens =>
      (Reading.start tokens).stops tokens.length == stops) = true := by decide +kernel
  obtain ⟨tokens, hlex, hstops⟩ := exists_ok hread
  have hstops := beq_iff_eq.1 hstops
  have hchain : stops.IsChain fun b b' => b' ≤ b + 11 := by decide
  obtain ⟨-, -, -, htimely⟩ := hreading tokens hlex (by decide +kernel)
  rw [hstops] at htimely
  exact ⟨⟨tokens, hlex, hstops⟩, hchain, by decide +kernel, htimely 11 hchain⟩

/-- Between two questions of the reader there are eleven tokens at an interval of two.  And if the
value has a parenthesis at its end that is left open, then a request in front of it has no effect:
nothing is asked until the parenthesis is found. -/
theorem watchedParse_overdue :
    let reading := ((watchedParse 2 0 longValue).asked (fun _ _ => false) 0 0).filter
      (·.1.phase = .reading)
    (¬(reading.map (·.1.tokens)).IsChain fun last tokens => tokens ≤ last + 2) ∧
      ((watchedParse 2 0 "a;$b:,,,,,,,,(".toList).under (fun _ polls => 8 ≤ polls) 0 0).1 =
        .error (.malformed ⟨.unclosedParenthesis, 5⟩) :=
  ⟨by decide +kernel, eq_error_of_failure? (by decide +kernel)⟩

end Grammar
end LiveSheet
