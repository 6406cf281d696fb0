import LiveSheet.Proofs.Runs

/-!
# Closed controllers

A closed controller is at rest for good.  Parses may still end and new ones may be scheduled,
but none of them is applied, and nobody hears of a change or of a failure any more.
-/

namespace LiveSheet

/-- The effect is a log entry, or the end of a parse that was not applied.  Nobody hears of
either. -/
def Effect.Unheard (e : Effect) : Prop :=
  e.IsLog ∨ ∃ job outcome, e = .concluded job outcome ∧ ∀ v, outcome ≠ .applied v

namespace Controller

/-- What has become of a closed controller: it has the tree and the timing that it had, and no
receiver of tree changes has got anything. -/
structure Rests (before after : Controller) : Prop where
  closed : after.closed = true
  tree : after.tree = before.tree
  timing : after.timing = before.timing
  receivers : ∀ (i : Nat) (inbox : Inbox TreeChange), after.receivers[i]? = some inbox →
    inbox = .empty ∨ before.receivers[i]? = some inbox

variable {parser : Parser} {live s : Snapshot} {c : Controller} {turn : Option Nat}
  {out : Controller × List Effect}

theorem rests_refl (h : c.closed = true) : c.Rests c :=
  ⟨h, rfl, rfl, fun _ _ => .inr⟩

theorem Rests.trans {mid after : Controller} (h : c.Rests mid) (h' : mid.Rests after) :
    c.Rests after := by
  refine ⟨h'.closed, h'.tree.trans h.tree, h'.timing.trans h.timing, fun i inbox hinbox => ?_⟩
  rcases h'.receivers i inbox hinbox with hempty | hkept
  · exact .inl hempty
  · exact h.receivers i inbox hkept

theorem verdict_ne_applied (h : c.closed = true) (r : Except ParseError (List Item)) (v : Nat) :
    c.verdict live s r ≠ .applied v := by
  intro hv
  obtain ⟨-, hopen, -⟩ := verdict_eq_applied_iff.1 hv
  rw [h] at hopen
  exact nomatch hopen

/-- A closed controller does nothing about an answer but to note it in the log. -/
theorem respond_of_closed (h : c.closed = true) (a : Answer) :
    (c.respond live s a).1 = c ∧ ∀ e ∈ (c.respond live s a).2, e.IsLog := by
  rcases respond_cases c live s a with ⟨_, -, hverdict, -⟩ | ⟨hno, hsame⟩
  · exact absurd hverdict (verdict_ne_applied h _ _)
  · refine ⟨hsame, fun e he => ?_⟩
    simp only [respond, h, if_true] at he
    split at he
    · rename_i hverdict
      exact absurd hverdict (hno _)
    · exact ⟨_, List.mem_singleton.1 he⟩
    · exact absurd he List.not_mem_nil
    · exact ⟨_, List.mem_singleton.1 he⟩
    · exact absurd he List.not_mem_nil

theorem conclude_unheard (h : c.closed = true) (job : Job) (a : Answer) :
    ∀ e ∈ (c.conclude live job a).2, e.Unheard := by
  intro e he
  rcases List.mem_append.1 he with he | he
  · exact .inl ((respond_of_closed h a).2 e he)
  · exact .inr ⟨job.id, _, List.mem_singleton.1 he, verdict_ne_applied h a.result⟩

theorem Next.unheard (h : c.Next parser live turn out) (hclosed : c.closed = true) :
    ∀ e ∈ out.2, e.Unheard := by
  cases h with
  | idle _ _ _ _ hlog => exact fun e he => .inl (hlog e he)
  | schedule _ hlog => exact fun e he => .inl (hlog e he)
  | call => exact List.forall_mem_nil _
  | resume => exact List.forall_mem_nil _
  | conclude => exact conclude_unheard hclosed _ _

theorem Next.tree_of_closed (h : c.Next parser live turn out) (hclosed : c.closed = true) :
    out.1.tree = c.tree ∧ out.1.timing = c.timing := by
  rcases h.tree_cases with hkept | ⟨_, _, _, _, -, -, hopen, -⟩
  · exact hkept
  · rw [hclosed] at hopen
    exact nomatch hopen

theorem advance_receivers (parser : Parser) (live : Snapshot) (h : c.closed = true) (job : Job) :
    (c.advance parser live job).1.receivers = c.receivers := by
  unfold advance
  split
  · rfl
  · rfl
  · simp only [conclude, (respond_of_closed h _).1, reap]
  · rfl
  · rfl

end Controller

namespace Session

variable {s : Session}

/-- A closed controller takes no notification, whether it comes from the buffer or not. -/
theorem act_notify_of_closed (parser : Parser) (h : s.controller.closed = true)
    (snapshot : Snapshot) : s.act parser (.notify snapshot) = (s, []) := by
  simp only [act, Controller.notify, h, if_true]
  rfl

theorem act_listen_of_closed (parser : Parser) (h : s.controller.closed = true) :
    s.act parser .listen = (s, []) := by
  simp only [act, listen, h, if_true]

theorem act_receivers (parser : Parser) (h : s.controller.closed = true) (a : Action) (i : Nat)
    (inbox : Inbox TreeChange) (hinbox : (s.act parser a).1.controller.receivers[i]? = some inbox) :
    inbox = .empty ∨ s.controller.receivers[i]? = some inbox := by
  cases a with
  | subscribe =>
    have hinbox : (s.controller.receivers ++ [.empty])[i]? = some inbox := hinbox
    rw [List.getElem?_append] at hinbox
    split at hinbox
    · exact .inr hinbox
    · exact .inl (List.mem_singleton.1 (List.mem_of_getElem? hinbox))
  | drain receiver =>
    simp only [act, withController, Controller.drain] at hinbox
    split at hinbox
    · rename_i hreceiver
      by_cases hi : receiver = i
      · subst hi
        rw [List.getElem?_set_self (List.getElem?_eq_some_iff.1 hreceiver).1] at hinbox
        exact .inl (Option.some.inj hinbox).symm
      · rw [List.getElem?_set_ne hi] at hinbox
        exact .inr hinbox
    · exact .inr hinbox
  | advance job =>
    simp only [act, advance] at hinbox
    split at hinbox
    · exact .inr hinbox
    · rename_i found _
      refine .inr ?_
      rw [← Controller.advance_receivers parser s.buffer.live h found]
      exact hinbox
  | notify snapshot =>
    rw [act_notify_of_closed parser h] at hinbox
    exact .inr hinbox
  | listen =>
    rw [act_listen_of_closed parser h] at hinbox
    exact .inr hinbox
  | _ => exact .inr hinbox

/-- Whatever happens next, a closed controller rests. -/
theorem act_rests (parser : Parser) (h : s.controller.closed = true) (a : Action) :
    s.controller.Rests (s.act parser a).1.controller ∧
      ∀ e ∈ (s.act parser a).2, e.Unheard := by
  have hnext := act_next parser s a
  obtain ⟨htree, htiming⟩ := hnext.tree_of_closed h
  exact ⟨⟨hnext.closed h, htree, htiming, act_receivers parser h a⟩, hnext.unheard h⟩

theorem run_rests (parser : Parser) (h : s.controller.closed = true) (actions : List Action) :
    s.controller.Rests (s.run parser actions).1.controller ∧
      ∀ e ∈ (s.run parser actions).2, e.Unheard := by
  induction actions generalizing s with
  | nil => exact ⟨Controller.rests_refl h, List.forall_mem_nil _⟩
  | cons a rest ih =>
    obtain ⟨hfirst, hunheard⟩ := act_rests parser h a
    obtain ⟨hlater, hunheard'⟩ := ih hfirst.closed
    exact ⟨hfirst.trans hlater, List.forall_mem_append.2 ⟨hunheard, hunheard'⟩⟩

/-- Closing is final, whatever parses are in flight and whatever happens afterwards.  The
controller keeps its tree and its timing, no parse is applied, no change is sent to anyone and
no failure is reported, and notifications have no effect at all, so they schedule nothing. -/
theorem close_final (parser : Parser) (b : Buffer) (options : ControllerOptions)
    (before later : List Action) :
    let s := after parser b options before
    let last := ((s.act parser .close).1.run parser later).1
    let effects := ((s.act parser .close).1.run parser later).2
    s.controller.Rests last.controller ∧ (∀ e ∈ effects, e.Unheard) ∧
      (∀ snapshot, last.act parser (.notify snapshot) = (last, [])) ∧
      last.act parser .listen = (last, []) := by
  intro s last effects
  -- closing changes nothing but the mark that `Rests` does not compare
  have hrun := run_rests (s := (s.act parser .close).1) parser rfl later
  obtain ⟨⟨hclosed, htree, htiming, hreceivers⟩, hunheard⟩ := hrun
  exact ⟨⟨hclosed, htree, htiming, hreceivers⟩, hunheard,
    act_notify_of_closed parser hclosed, act_listen_of_closed parser hclosed⟩

end Session
end LiveSheet
