import LiveSheet.Grammar.Parser
import LiveSheet.Proofs.Work

/-!
# Watched parsing delivers the parse

The watched lexer and the watched reader take the steps of the plain ones, whatever
they ask in between.  Hence a watched parse gives the result of `parse` or gives up,
at every interval and under every history of cancellation.
-/

namespace LiveSheet
namespace Grammar

open Work

/-- The result of a parse, with its errors as those that parsers report. -/
def reported {α : Type} (r : Except SyntaxError α) : Except ParseError α :=
  r.mapError .malformed

@[simp] theorem reported_ok {α : Type} (a : α) :
    reported (.ok a : Except SyntaxError α) = .ok a := rfl

@[simp] theorem reported_error {α : Type} (e : SyntaxError) :
    reported (.error e : Except SyntaxError α) = .error (.malformed e) := rfl

theorem watchedLexFrom_delivers (version interval offset count : Nat) (found : List Token)
    (t : Text) :
    Delivers version (reported (Token.lexFrom offset found t))
      (watchedLexFrom version interval offset count found t) := by
  fun_induction Token.lexFrom offset found t generalizing count with
  | case1 offset found =>
    rw [watchedLexFrom]
    exact .done
  | case2 offset found c rest hscan =>
    rw [watchedLexFrom]
    simp only [hscan]
    split
    · exact .check _ .done
    · exact .done
  | case3 offset found c rest hscan ih =>
    rw [watchedLexFrom]
    simp only [hscan]
    split
    · exact .check _ (ih count)
    · exact ih count
  | case4 offset found c rest kind more hscan ih =>
    rw [watchedLexFrom]
    simp only [hscan]
    split
    · exact .check _ (ih (count + 1))
    · exact ih (count + 1)
  | case5 offset found c rest cause hscan =>
    rw [watchedLexFrom]
    simp only [hscan]
    split
    · exact .check _ .done
    · exact .done

def watchedNext (version interval total : Nat) (marks : Marks) :
    Reading.Step → Work (Except ParseError (List Item))
  | .finished items => .done (.ok items)
  | .fault e => .done (.error (.malformed e))
  | .more next =>
    let reached := total - next.rest.length
    if next.blocks.isEmpty ∧ interval ≤ reached - marks.lastPause then
      .pause (check ⟨.reading, reached⟩ version fun _ =>
        watchedRead version interval total { marks with lastPause := reached } next)
    else watchedRead version interval total marks next

theorem watchedRead_eq (version interval total : Nat) (marks : Marks) (r : Reading) :
    watchedRead version interval total marks r =
      if marks.nextPoll ≤ total - r.rest.length then
        check ⟨.reading, total - r.rest.length⟩ version fun _ =>
          watchedNext version interval total
            { marks with nextPoll := total - r.rest.length + interval } r.step
      else watchedNext version interval total marks r.step := by
  rw [watchedRead]
  split
  · congr 1
    funext _
    split <;> rename_i h <;> rw [h] <;> rfl
  · split <;> rename_i h <;> rw [h] <;> rfl

theorem Reading.run_eq (r : Reading) :
    r.run = match r.step with
      | .finished items => .ok items
      | .fault e => .error e
      | .more next => next.run := by
  rw [Reading.run]
  split <;> rename_i h <;> rw [h]

theorem watchedRead_delivers (version interval total : Nat) (marks : Marks) (r : Reading) :
    Delivers version (reported r.run) (watchedRead version interval total marks r) := by
  have hnext : ∀ marks, Delivers version (reported r.run)
      (watchedNext version interval total marks r.step) := by
    intro marks
    rw [Reading.run_eq]
    cases hs : r.step with
    | finished items => exact .done
    | fault e => exact .done
    | more next =>
      simp only [watchedNext]
      split
      · exact .pause (.check _
          (watchedRead_delivers version interval total _ next))
      · exact watchedRead_delivers version interval total _ next
  rw [watchedRead_eq]
  split
  · exact .check _ (hnext _)
  · exact hnext _
termination_by r.rest.length
decreasing_by all_goals exact Reading.step_rest_length_lt (by assumption)

/-- A watched parse gives the items or the error of the text, unless it gives up. -/
theorem watchedParse_delivers (interval version : Nat) (t : Text) :
    Delivers version (reported (parse t)) (watchedParse interval version t) := by
  have hlex := watchedLexFrom_delivers version (max 1 interval) 0 0 [] t
  refine hlex.bind rfl ?_
  cases h : Token.lexFrom 0 [] t with
  | error e =>
    have hp : parse t = .error e := by rw [parse, Token.lex, h]; rfl
    rw [hp]
    exact .done
  | ok tokens =>
    have hp : parse t = read tokens := by rw [parse, Token.lex, h]; rfl
    rw [hp]
    exact watchedRead_delivers _ _ _ _ _

/-- Apart from the durations that it notes, the parser of style sheets is the watched
parse. -/
theorem parser_map_result (interval : Nat) (clock : Nat → Timing) (call : Nat) (s : Snapshot) :
    (parser interval clock call s).map Answer.result =
      watchedParse interval s.version s.text := by
  rw [parser, map_bind, watchedParse]
  congr 1
  funext lexed
  cases lexed with
  | error e => rfl
  | ok tokens =>
    refine (map_map _ _ _).trans (map_eq_self (fun read => ?_) _)
    cases read <;> rfl

/-- Every answer of the parser of style sheets is the parse of the text, or the word
that it gave up. -/
theorem result_of_parser_ends {interval : Nat} {clock : Nat → Timing} {call : Nat}
    {s : Snapshot} {a : Answer} (h : (parser interval clock call s).Ends a) :
    a.result = .error (.cancelled s.version) ∨ a.result = reported (parse s.text) := by
  have hends := h.map Answer.result
  rw [parser_map_result] at hends
  exact (watchedParse_delivers interval s.version s.text).ends _ hends

theorem result_of_parser_undisturbed (interval : Nat) (clock : Nat → Timing) (call : Nat)
    (s : Snapshot) :
    (parser interval clock call s).undisturbed.result = reported (parse s.text) := by
  rw [← undisturbed_map Answer.result, parser_map_result]
  exact (watchedParse_delivers interval s.version s.text).undisturbed

end Grammar
end LiveSheet
