import LiveSheet.Proofs.Watched

/-!
# Parsing under a history of cancellation

A history says for each moment of a parse whether cancellation is requested then.
Whatever the history and the interval, a watched parse gives up at the first question
that is answered with yes, and gives what the plain parse gives if none is.  It counts
nothing that does not fit into a machine word.
-/

namespace LiveSheet
namespace Work

variable {α : Type}

/-- The value of the work, and the answers to its questions on the way.  The answer to a
question depends on how often the work has paused and asked before. -/
def under (history : Nat → Nat → Bool) (pauses polls : Nat) : Work α → α × List Bool
  | done a => (a, [])
  | poll _ next =>
    let later := (next (history pauses polls)).under history pauses (polls + 1)
    (later.1, history pauses polls :: later.2)
  | pause next => next.under history (pauses + 1) polls

/-- What becomes of work that delivers is settled by the answers to its questions. -/
theorem Delivers.under {version : Nat} {result : Except ParseError α}
    {w : Work (Except ParseError α)} (h : Delivers version result w)
    (history : Nat → Nat → Bool) (pauses polls : Nat) :
    (w.under history pauses polls).1 =
      if true ∈ (w.under history pauses polls).2 then .error (.cancelled version)
      else result := by
  induction h generalizing pauses polls with
  | done => rfl
  | pause _ ih => exact ih (pauses + 1) polls
  | check mark _ ih =>
    simp only [Work.check, Work.under]
    cases history pauses polls with
    | true => rw [if_pos List.mem_cons_self]; rfl
    | false =>
      have hanswer := ih pauses (polls + 1)
      simp only [Bool.false_eq_true, if_false, List.mem_cons, Bool.true_eq_false, false_or,
        hanswer]

/-- What comes after some work matters only for the values that the work can end in. -/
theorem bind_congr {β : Type} {w : Work α} {f g : α → Work β}
    (h : ∀ a, w.Ends a → f a = g a) : w.bind f = w.bind g := by
  induction w with
  | done a => exact h a (.done a)
  | poll mark next ih =>
    simp only [bind]
    congr 1
    funext requested
    exact ih requested fun a ha => h a (.poll requested ha)
  | pause next ih =>
    simp only [bind]
    congr 1
    exact ih fun a ha => h a (.pause ha)

/-! ## Runs with a patience -/

def Patience.history (p : Patience) (pauses polls : Nat) : Bool :=
  p.pauses.any (· ≤ pauses) || p.polls.any (· ≤ polls)

theorem Patience.pauses_any_succ {p : Patience} {pauses : Nat}
    (h : p.pauses.any (· ≤ pauses) = true) : p.pauses.any (· ≤ pauses + 1) = true := by
  cases hp : p.pauses with
  | none => rw [hp] at h; exact nomatch h
  | some last =>
    rw [hp] at h
    simp only [Option.any_some, decide_eq_true_eq] at h ⊢
    omega

/-- After the last permitted pause it does not matter how questions are counted. -/
theorem under_of_pauses_any {p : Patience} {pauses : Nat}
    (h : p.pauses.any (· ≤ pauses) = true) (polls polls' : Nat) (w : Work α) :
    (w.under p.history pauses polls).1 = (w.under p.history pauses polls').1 := by
  induction w generalizing pauses polls polls' with
  | done a => rfl
  | poll mark next ih =>
    have hanswer : ∀ n, p.history pauses n = true := by
      intro n
      rw [Patience.history, h, Bool.true_or]
    simp only [under, hanswer]
    exact ih true h _ _
  | pause next ih => exact ih (Patience.pauses_any_succ h) _ _

/-- A run with a patience is the run under the history in which that patience ends. -/
theorem run_value (p : Patience) (w : Work α) :
    (w.run p).value = (w.under p.history 0 0).1 := by
  have hfrom : ∀ pauses polls,
      (w.runFrom p pauses polls).value = (w.under p.history pauses polls).1 := by
    induction w with
    | done a => exact fun _ _ => rfl
    | pause next ih => exact fun pauses polls => ih (pauses + 1) polls
    | poll mark next ih =>
      intro pauses polls
      rw [runFrom]
      by_cases hlast : p.pauses.any (· ≤ pauses) = true
      · have hanswer : p.history pauses polls = true := by
          rw [Patience.history, hlast, Bool.true_or]
        rw [if_pos hlast, ih, under, hanswer]
        exact under_of_pauses_any hlast _ _ _
      · rw [Bool.not_eq_true] at hlast
        have hanswer : p.history pauses polls = p.polls.any (· ≤ polls) := by
          rw [Patience.history, hlast, Bool.false_or]
        rw [if_neg (by rw [hlast]; exact Bool.false_ne_true), ih, under, hanswer]
  exact hfrom 0 0

end Work

namespace Grammar

/-! ## Machine words

The watched parse once more, with every operation on the interval checked.  Words lie
below a limit, and an operation that leaves them breaks the parser. -/

def sum? (limit a b : Nat) : Option Nat := if a + b < limit then some (a + b) else none

def difference? (a b : Nat) : Option Nat := if b ≤ a then some (a - b) else none

def remainder? (a b : Nat) : Option Nat := if b = 0 then none else some (a % b)

def withWord {α : Type} (word : Option Nat) (next : Nat → Work (Except ParseError α)) :
    Work (Except ParseError α) :=
  word.elim (.done (.error (.internal "not a machine word"))) next

def strictLexFrom (version interval offset count : Nat) (found : List Token) :
    Text → Work (Except ParseError (List Token))
  | [] => .done (.ok found.reverse)
  | c :: rest =>
    let next := fun (_ : Unit) =>
      match Token.scan (c :: rest) with
      | .finished => .done (.ok found.reverse)
      | .blank => strictLexFrom version interval (offset + 1) count found rest
      | .token kind more =>
        strictLexFrom version interval (offset + 1 + more) (count + 1)
          (⟨kind, offset, c :: rest.take more⟩ :: found) (rest.drop more)
      | .fault cause => .done (.error (.malformed ⟨cause, offset⟩))
    withWord (remainder? count interval) fun counted =>
      withWord (difference? interval 1) fun last =>
        if counted = last then .check ⟨.lexing, count⟩ version next else next ()
termination_by t => t.length

def strictRead (limit version interval total : Nat) (marks : Marks) (r : Reading) :
    Work (Except ParseError (List Item)) :=
  let position := total - r.rest.length
  let step := fun (marks : Marks) =>
    match _ : r.step with
    | .finished items => .done (.ok items)
    | .fault e => .done (.error (.malformed e))
    | .more next =>
      let reached := total - next.rest.length
      if next.blocks.isEmpty then
        withWord (difference? reached marks.lastPause) fun since =>
          if interval ≤ since then
            .pause (.check ⟨.reading, reached⟩ version fun _ =>
              strictRead limit version interval total { marks with lastPause := reached } next)
          else strictRead limit version interval total marks next
      else strictRead limit version interval total marks next
  if marks.nextPoll ≤ position then
    withWord (sum? limit position interval) fun nextPoll =>
      .check ⟨.reading, position⟩ version fun _ => step { marks with nextPoll := nextPoll }
  else step marks
termination_by r.rest.length
decreasing_by all_goals exact Reading.step_rest_length_lt (by assumption)

def strictParse (limit interval version : Nat) (t : Text) :
    Work (Except ParseError (List Item)) :=
  let interval := max 1 interval
  (strictLexFrom version interval 0 0 [] t).bind fun
    | .error e => .done (.error e)
    | .ok tokens => strictRead limit version interval tokens.length ⟨interval, 0⟩ (.start tokens)

theorem strictLexFrom_eq {interval : Nat} (hinterval : 0 < interval)
    (version offset count : Nat) (found : List Token) (t : Text) :
    strictLexFrom version interval offset count found t =
      watchedLexFrom version interval offset count found t := by
  have hword : ∀ count, remainder? count interval = some (count % interval) :=
    fun count => if_neg (Nat.ne_of_gt hinterval)
  have hlast : difference? interval 1 = some (interval - 1) := if_pos hinterval
  fun_induction Token.lexFrom offset found t generalizing count with
  | case1 offset found => rw [strictLexFrom, watchedLexFrom]
  | case2 offset found c rest hscan =>
    rw [strictLexFrom, watchedLexFrom]
    simp only [hscan, hword, hlast, withWord, Option.elim_some]
  | case3 offset found c rest hscan ih =>
    rw [strictLexFrom, watchedLexFrom]
    simp only [hscan, hword, hlast, withWord, Option.elim_some, ih]
  | case4 offset found c rest kind more hscan ih =>
    rw [strictLexFrom, watchedLexFrom]
    simp only [hscan, hword, hlast, withWord, Option.elim_some, ih]
  | case5 offset found c rest cause hscan =>
    rw [strictLexFrom, watchedLexFrom]
    simp only [hscan, hword, hlast, withWord, Option.elim_some]

def strictNext (limit version interval total : Nat) (marks : Marks) :
    Reading.Step → Work (Except ParseError (List Item))
  | .finished items => .done (.ok items)
  | .fault e => .done (.error (.malformed e))
  | .more next =>
    let reached := total - next.rest.length
    if next.blocks.isEmpty then
      withWord (difference? reached marks.lastPause) fun since =>
        if interval ≤ since then
          .pause (.check ⟨.reading, reached⟩ version fun _ =>
            strictRead limit version interval total { marks with lastPause := reached } next)
        else strictRead limit version interval total marks next
    else strictRead limit version interval total marks next

theorem strictRead_def (limit version interval total : Nat) (marks : Marks) (r : Reading) :
    strictRead limit version interval total marks r =
      if marks.nextPoll ≤ total - r.rest.length then
        withWord (sum? limit (total - r.rest.length) interval) fun nextPoll =>
          .check ⟨.reading, total - r.rest.length⟩ version fun _ =>
            strictNext limit version interval total { marks with nextPoll := nextPoll } r.step
      else strictNext limit version interval total marks r.step := by
  rw [strictRead]
  split
  · congr 1
    funext nextPoll
    congr 1
    funext _
    split <;> rename_i h <;> rw [h] <;> rfl
  · split <;> rename_i h <;> rw [h] <;> rfl

/-- The next question lies an interval ahead of the start or further, and the last pause
behind the reading; so neither the sum nor the difference leaves the words. -/
theorem strictRead_eq {limit interval total : Nat} (hlimit : 2 * total < limit)
    (version : Nat) (marks : Marks) (r : Reading) (hpoll : interval ≤ marks.nextPoll)
    (hpause : marks.lastPause ≤ total - r.rest.length) :
    strictRead limit version interval total marks r =
      watchedRead version interval total marks r := by
  have hnext : ∀ marks : Marks, interval ≤ marks.nextPoll →
      marks.lastPause ≤ total - r.rest.length →
      strictNext limit version interval total marks r.step =
        watchedNext version interval total marks r.step := by
    intro marks hpoll hpause
    cases hs : r.step with
    | finished items => rfl
    | fault e => rfl
    | more next =>
      have hless := Reading.step_rest_length_lt hs
      have hahead : marks.lastPause ≤ total - next.rest.length := by omega
      have hrec := strictRead_eq hlimit version marks next hpoll hahead
      have hpaused := strictRead_eq hlimit version
        { marks with lastPause := total - next.rest.length } next hpoll (Nat.le_refl _)
      simp only [strictNext, watchedNext, difference?, if_pos hahead, withWord,
        Option.elim_some, hrec, hpaused]
      by_cases hempty : next.blocks.isEmpty = true
      · simp only [hempty, if_true, true_and]
      · rw [if_neg hempty, if_neg (fun h => hempty h.1)]
  rw [strictRead_def, watchedRead_eq]
  by_cases hdue : marks.nextPoll ≤ total - r.rest.length
  · have hsum : sum? limit (total - r.rest.length) interval =
        some (total - r.rest.length + interval) := if_pos (by omega)
    rw [if_pos hdue, if_pos hdue, hsum]
    have hbound : interval ≤ total - r.rest.length + interval := Nat.le_add_left _ _
    simp only [withWord, Option.elim_some,
      hnext { marks with nextPoll := total - r.rest.length + interval } hbound hpause]
  · rw [if_neg hdue, if_neg hdue]
    exact hnext marks hpoll hpause
termination_by r.rest.length

theorem length_of_lexFrom {offset : Nat} {found tokens : List Token} {t : Text}
    (h : Token.lexFrom offset found t = .ok tokens) :
    tokens.length ≤ found.length + t.length := by
  fun_induction Token.lexFrom offset found t with
  | case1 offset found =>
    cases h
    rw [List.length_reverse]
    exact Nat.le_add_right _ _
  | case2 offset found c rest hscan =>
    cases h
    rw [List.length_reverse]
    exact Nat.le_add_right _ _
  | case3 offset found c rest hscan ih =>
    have := ih h
    rw [List.length_cons]
    omega
  | case4 offset found c rest kind more hscan ih =>
    have := ih h
    simp only [List.length_cons, List.length_drop] at this ⊢
    omega
  | case5 => cases h

theorem strictParse_eq {limit : Nat} {t : Text} (hlimit : 2 * t.length < limit)
    (interval version : Nat) :
    strictParse limit interval version t = watchedParse interval version t := by
  have hinterval : 0 < max 1 interval := by omega
  dsimp only [strictParse, watchedParse]
  rw [strictLexFrom_eq hinterval]
  refine Work.bind_congr fun lexed hlexed => ?_
  cases lexed with
  | error e => rfl
  | ok tokens =>
    have hdelivers := watchedLexFrom_delivers version (max 1 interval) 0 0 [] t
    rcases hdelivers.ends _ hlexed with hstop | hlex
    · exact nomatch hstop
    · have hlength : tokens.length ≤ t.length := by
        cases h : Token.lexFrom 0 [] t with
        | error e => rw [h] at hlex; exact nomatch hlex
        | ok found =>
          rw [h] at hlex
          cases hlex
          have := length_of_lexFrom h
          rw [List.length_nil] at this
          omega
      exact strictRead_eq (by omega) version _ _ (Nat.le_refl _) (Nat.zero_le _)

/-- Under every history a watched parse gives up with its version if a question was
answered with yes, and gives the items or the error of the text if none was.  None of
its operations leaves the words below a limit that exceeds the text's length twice. -/
theorem watchedParse_under (interval version : Nat) (t : Text)
    (history : Nat → Nat → Bool) :
    (let run := (watchedParse interval version t).under history 0 0
     run.1 = if true ∈ run.2 then .error (.cancelled version) else reported (parse t)) ∧
    ∀ limit, 2 * t.length < limit →
      strictParse limit interval version t = watchedParse interval version t :=
  ⟨(watchedParse_delivers interval version t).under history 0 0,
    fun _ hlimit => strictParse_eq hlimit interval version⟩

/-- Cancellation is requested across the pause after the first rule. -/
theorem watchedParse_under_pause :
    let w := watchedParse 0 7 "a\x7bb:c\x7d d".toList
    let run := w.under (fun pauses _ => decide (0 < pauses)) 0 0
    run.2 = List.replicate 10 false ++ [true] ∧ run.1 = .error (.cancelled 7) ∧
      strictParse UInt64.size 0 7 "a\x7bb:c\x7d d".toList = w := by
  intro w run
  have hanswers : run.2 = List.replicate 10 false ++ [true] := by decide +kernel
  obtain ⟨hrun, hstrict⟩ := watchedParse_under 0 7 "a\x7bb:c\x7d d".toList
    fun pauses _ => decide (0 < pauses)
  refine ⟨hanswers, ?_, hstrict UInt64.size (by decide)⟩
  change run.1 = if true ∈ run.2 then _ else _ at hrun
  rw [hrun, hanswers]
  rfl

end Grammar
end LiveSheet
