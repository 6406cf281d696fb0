import Mathlib.Data.List.Induction
import LiveSheet.Proofs.Jobs

/-!
# Runs of sessions

A run is any list of actions after the attachment of a controller.  What holds at the
start and is kept by every action holds after every run.
-/

namespace LiveSheet
namespace Session

/-- What holds of the jobs of every session. -/
structure Sound (parser : Parser) (s : Session) : Prop where
  numbered : s.controller.Numbered
  genuine : ∀ j ∈ s.controller.jobs, j.Genuine parser

theorem attach_sound (parser : Parser) (b : Buffer) (options : ControllerOptions) :
    (attach b options).1.Sound parser := by
  have hjobs : ∀ j ∈ (attach b options).1.controller.jobs, j = ⟨0, b.live, .waiting⟩ :=
    fun j hj => List.mem_singleton.1 hj
  refine ⟨⟨List.nodup_singleton _, ?_, ?_, ?_⟩, ?_⟩
  · intro j hj
    rw [hjobs j hj]
    exact Nat.zero_lt_one
  · intro j hj call hcall
    rw [hjobs j hj] at hcall
    exact nomatch hcall
  · intro j hj k hk call hcall
    rw [hjobs j hj] at hcall
    exact nomatch hcall
  · intro j hj call work hstage
    rw [hjobs j hj] at hstage
    exact nomatch hstage

theorem act_sound {parser : Parser} {s : Session} (h : s.Sound parser) (a : Action) :
    (s.act parser a).1.Sound parser :=
  ⟨Controller.next_numbered (act_next parser s a) h.numbered,
    Controller.next_genuine (act_next parser s a) h.numbered h.genuine⟩

/-! ## Runs -/

theorem run_append (parser : Parser) (s : Session) (first second : List Action) :
    s.run parser (first ++ second) =
      (((s.run parser first).1.run parser second).1,
        (s.run parser first).2 ++ ((s.run parser first).1.run parser second).2) := by
  induction first generalizing s with
  | nil => rfl
  | cons a rest ih => simp only [List.cons_append, run, ih, List.append_assoc]

/-- The session after some actions, from the attachment of its controller on. -/
def after (parser : Parser) (b : Buffer) (options : ControllerOptions)
    (actions : List Action) : Session :=
  ((attach b options).1.run parser actions).1

@[simp] theorem after_nil (parser : Parser) (b : Buffer) (options : ControllerOptions) :
    after parser b options [] = (attach b options).1 := rfl

theorem after_concat (parser : Parser) (b : Buffer) (options : ControllerOptions)
    (actions : List Action) (a : Action) :
    after parser b options (actions ++ [a]) =
      ((after parser b options actions).act parser a).1 := by
  simp only [after, run_append, run]

/-- What holds of a session to which a controller was just attached, and is kept by
every action, holds after every run. -/
theorem after_invariant {parser : Parser} {b : Buffer} {options : ControllerOptions}
    {P : Session → Prop} (hstart : P (attach b options).1)
    (hact : ∀ s a, P s → P (s.act parser a).1) (actions : List Action) :
    P (after parser b options actions) := by
  induction actions using List.reverseRecOn with
  | nil => exact hstart
  | append_singleton rest a ih =>
    rw [after_concat]
    exact hact _ a ih

theorem after_sound (parser : Parser) (b : Buffer) (options : ControllerOptions)
    (actions : List Action) : (after parser b options actions).Sound parser :=
  after_invariant (attach_sound parser b options) (fun _ a h => act_sound h a) actions

end Session
end LiveSheet
