import LiveSheet.Proofs.Work
import LiveSheet.Session

/-!
# What one action makes of a controller

`Controller.Next` lists all that can become of a controller when one thing happens in
its session, guards included.  Every invariant of sessions is a case analysis over
that list, and never over the code of the actions.
-/

namespace LiveSheet

/-- The work that a job goes on with in its next turn, and the call that it belongs
to. -/
inductive Job.Ahead (parser : Parser) (job : Job) : Nat → Work Answer → Prop where
  | called {call : Nat} (h : job.stage = .called call) :
      Ahead parser job call (parser call job.snapshot)
  | paused {call : Nat} {work : Work Answer} (h : job.stage = .underway call (.pause work)) :
      Ahead parser job call work
  | polling {call : Nat} {mark : Checkpoint} {next : Bool → Work Answer}
      (h : job.stage = .underway call (.poll mark next)) :
      Ahead parser job call (.poll mark next)

/-- A log entry is an effect that nothing depends on. -/
def Effect.IsLog (e : Effect) : Prop := ∃ entry, e = .logged entry

namespace Controller

/-- A finished parse is applied if it has items, the controller is open, the snapshot
is live, and no tree of this version or a later one is there. -/
theorem verdict_eq_applied_iff {c : Controller} {live s : Snapshot}
    {r : Except ParseError (List Item)} {v : Nat} :
    c.verdict live s r = .applied v ↔
      (∃ items, r = .ok items) ∧ c.closed = false ∧ live = s ∧
        c.tree.version?.any (s.version ≤ ·) = false ∧ v = s.version := by
  cases r with
  | error e =>
    simp only [verdict]
    split <;> simp
  | ok items =>
    simp only [verdict]
    by_cases hstale : (c.closed || live != s) = true
    · rw [if_pos hstale]
      simp only [Bool.or_eq_true, bne_iff_ne] at hstale
      constructor
      · intro h
        exact nomatch h
      · rintro ⟨-, hopen, hlive, -⟩
        rcases hstale with hclosed | hne
        · rw [hopen] at hclosed
          exact nomatch hclosed
        · exact absurd hlive hne
    · rw [if_neg hstale]
      simp only [Bool.or_eq_true, bne_iff_ne, not_or, Bool.not_eq_true,
        Decidable.not_not] at hstale
      by_cases hold : c.tree.version?.any (s.version ≤ ·) = true
      · simp [hold]
      · simp only [hold, Bool.false_eq_true, if_false, Outcome.applied.injEq]
        simp only [Bool.not_eq_true] at hold
        constructor
        · rintro rfl
          exact ⟨⟨items, rfl⟩, hstale.1, hstale.2, trivial, rfl⟩
        · rintro ⟨-, -, -, -, rfl⟩
          rfl

/-- Only the answer to a parse that is applied changes the controller. -/
theorem respond_cases (c : Controller) (live s : Snapshot) (a : Answer) :
    (∃ items, a.result = .ok items ∧ c.verdict live s a.result = .applied s.version ∧
      c.respond live s a = c.commit s items a.timing) ∨
    ((∀ v, c.verdict live s a.result ≠ .applied v) ∧ (c.respond live s a).1 = c) := by
  by_cases happ : ∃ v, c.verdict live s a.result = .applied v
  · obtain ⟨v, hv⟩ := happ
    obtain ⟨⟨items, hr⟩, -, -, -, rfl⟩ := verdict_eq_applied_iff.1 hv
    refine .inl ⟨items, hr, hv, ?_⟩
    rw [hr] at hv
    simp only [respond, hr, hv]
  · have hno : ∀ v, c.verdict live s a.result ≠ .applied v := fun v hv => happ ⟨v, hv⟩
    refine .inr ⟨hno, ?_⟩
    simp only [respond]
    split
    · rename_i hv
      exact absurd hv (hno _)
    all_goals rfl

theorem conclude_jobs (c : Controller) (live : Snapshot) (job : Job) (a : Answer) :
    (c.conclude live job a).1.jobs = c.jobs.filter fun j => j.id != job.id := by
  rcases respond_cases c live job.snapshot a with ⟨items, -, -, h⟩ | ⟨-, h⟩
  · simp only [conclude, h, reap, commit]
  · simp only [conclude, h, reap]

theorem conclude_counters (c : Controller) (live : Snapshot) (job : Job) (a : Answer) :
    (c.conclude live job a).1.scheduled = c.scheduled ∧
      (c.conclude live job a).1.calls = c.calls ∧
      (c.conclude live job a).1.stream = c.stream := by
  rcases respond_cases c live job.snapshot a with ⟨items, -, -, h⟩ | ⟨-, h⟩
  · simp only [conclude, h, reap, commit, and_self]
  · simp only [conclude, h, reap, and_self]

theorem conclude_buffer (c : Controller) (live : Snapshot) (job : Job) (a : Answer) :
    (c.conclude live job a).1.buffer = c.buffer := by
  rcases respond_cases c live job.snapshot a with ⟨items, -, -, h⟩ | ⟨-, h⟩
  · simp only [conclude, h, reap, commit]
  · simp only [conclude, h, reap]

theorem conclude_options (c : Controller) (live : Snapshot) (job : Job) (a : Answer) :
    (c.conclude live job a).1.options = c.options := by
  rcases respond_cases c live job.snapshot a with ⟨items, -, -, h⟩ | ⟨-, h⟩
  · simp only [conclude, h, reap, commit]
  · simp only [conclude, h, reap]

theorem closed_of_conclude {c : Controller} {live : Snapshot} {job : Job} {a : Answer}
    (h : c.closed = true) : (c.conclude live job a).1.closed = true := by
  rcases respond_cases c live job.snapshot a with ⟨items, -, -, hr⟩ | ⟨-, hr⟩
  · simp only [conclude, hr, reap, commit, h, Bool.true_or]
  · simp only [conclude, hr, reap, h, Bool.true_or]

/-- Concluding a parse takes over its items and its timing, both or neither: both if
the parse is applied. -/
theorem conclude_tree (c : Controller) (live : Snapshot) (job : Job) (a : Answer) :
    (∃ items, a.result = .ok items ∧
      c.verdict live job.snapshot a.result = .applied job.snapshot.version ∧
      (c.conclude live job a).1.tree = .parsed job.snapshot items ∧
      (c.conclude live job a).1.timing = a.timing) ∨
    ((∀ v, c.verdict live job.snapshot a.result ≠ .applied v) ∧
      (c.conclude live job a).1.tree = c.tree ∧
      (c.conclude live job a).1.timing = c.timing) := by
  rcases respond_cases c live job.snapshot a with ⟨items, hr, hv, h⟩ | ⟨hno, h⟩
  · refine .inl ⟨items, hr, hv, ?_, ?_⟩ <;> simp only [conclude, h, reap, commit]
  · refine .inr ⟨hno, ?_, ?_⟩ <;> simp only [conclude, h, reap]

/-- What one action can make of a controller while `live` is the live snapshot, and
what else it brings about.  `turn` is the job that the action gives a turn, if any. -/
inductive Next (parser : Parser) (live : Snapshot) (c : Controller) (turn : Option Nat) :
    Controller × List Effect → Prop where
  | idle (receivers : List (Inbox TreeChange)) (closed held : Bool) {effects : List Effect}
      (hclosed : c.closed = true → closed = true) (hquiet : ∀ e ∈ effects, e.IsLog) :
      Next parser live c turn
        ({ c with receivers := receivers, closed := closed, held := held }, effects)
  | schedule (s : Snapshot) {effects : List Effect} (hquiet : ∀ e ∈ effects, e.IsLog) :
      Next parser live c turn ((c.schedule s).1, effects)
  | call {job : Job} (hmem : job ∈ c.jobs) (hturn : turn = some job.id)
      (hstage : job.stage = .waiting) : Next parser live c turn (c.call job, [])
  | resume {job : Job} {call : Nat} {work : Work Answer} (hmem : job ∈ c.jobs)
      (hturn : turn = some job.id) (hahead : job.Ahead parser call work) :
      Next parser live c turn
        (c.reach job.id (.underway call (work.resume (c.requested live job.snapshot))), [])
  | conclude {job : Job} {call : Nat} {a : Answer} (hmem : job ∈ c.jobs)
      (hturn : turn = some job.id) (hstage : job.stage = .underway call (.done a)) :
      Next parser live c turn (c.conclude live job a)

theorem next_refl (parser : Parser) (live : Snapshot) (c : Controller) (turn : Option Nat) :
    Next parser live c turn (c, []) :=
  .idle c.receivers c.closed c.held id (List.forall_mem_nil _)

theorem next_notify (parser : Parser) (live s : Snapshot) (c : Controller)
    (before : List Effect) (hbefore : ∀ e ∈ before, e.IsLog) :
    Next parser live c none ((c.notify live s).1, before ++ (c.notify live s).2) := by
  have hquiet : ∀ entry, ∀ e ∈ before ++ [.logged entry], e.IsLog := by
    intro entry e he
    rcases List.mem_append.1 he with he | he
    · exact hbefore e he
    · exact ⟨entry, List.mem_singleton.1 he⟩
  unfold notify
  split
  · rw [List.append_nil]
    exact .idle c.receivers c.closed c.held id hbefore
  · split
    · exact .idle c.receivers c.closed c.held id (hquiet _)
    · exact .schedule s (hquiet _)

theorem next_hear (parser : Parser) (live : Snapshot) (notice : Notice Snapshot)
    (c : Controller) : Next parser live c none (c.hear live notice) := by
  cases notice with
  | received s => exact next_notify parser live s c [] (List.forall_mem_nil _)
  | missed count =>
    refine next_notify parser live live c [.logged _] ?_
    intro e he
    exact ⟨_, List.mem_singleton.1 he⟩

theorem next_advance (parser : Parser) (live : Snapshot) {job : Job} {c : Controller}
    (hmem : job ∈ c.jobs) :
    Next parser live c (some job.id) (c.advance parser live job) := by
  unfold advance
  split
  · rename_i hstage
    exact .call hmem rfl hstage
  · rename_i hstage
    exact .resume hmem rfl (.called hstage)
  · rename_i hstage
    exact .conclude hmem rfl hstage
  · rename_i hstage
    exact .resume hmem rfl (.paused hstage)
  · rename_i call work hdone hpause hstage
    cases work with
    | done a => exact absurd rfl (hdone a)
    | pause next => exact absurd rfl (hpause next)
    | poll mark next => exact .resume hmem rfl (.polling hstage)

/-- An action leaves tree and timing alone, or the job that it gives a turn has an answer
with items, which is taken over. -/
theorem Next.tree_cases {parser : Parser} {live : Snapshot} {c : Controller}
    {turn : Option Nat} {out : Controller × List Effect} (h : c.Next parser live turn out) :
    (out.1.tree = c.tree ∧ out.1.timing = c.timing) ∨
    ∃ job call items notes, turn = some job ∧
      ⟨job, live, .underway call (.done ⟨.ok items, notes⟩)⟩ ∈ c.jobs ∧ c.closed = false ∧
      c.tree.version?.any (live.version ≤ ·) = false ∧
      out.1.tree = .parsed live items ∧ out.1.timing = .ofNotes notes := by
  cases h with
  | idle => exact .inl ⟨rfl, rfl⟩
  | schedule => exact .inl ⟨rfl, rfl⟩
  | call => exact .inl ⟨rfl, rfl⟩
  | resume => exact .inl ⟨rfl, rfl⟩
  | @conclude job call answer hmem hturn hstage =>
    rcases conclude_tree c live job answer with
      ⟨items, hresult, hverdict, htree, htiming⟩ | ⟨-, htree, htiming⟩
    · obtain ⟨-, hopen, rfl, hnewer, -⟩ := verdict_eq_applied_iff.1 hverdict
      have hanswer : (⟨.ok items, answer.notes⟩ : Answer) = answer := by rw [← hresult]
      refine .inr ⟨job.id, call, items, answer.notes, hturn, ?_, hopen, hnewer, htree, htiming⟩
      rw [hanswer, ← hstage]
      exact hmem
    · exact .inl ⟨htree, htiming⟩

theorem Next.closed {parser : Parser} {live : Snapshot} {c : Controller}
    {turn : Option Nat} {out : Controller × List Effect} (h : c.Next parser live turn out)
    (hclosed : c.closed = true) : out.1.closed = true := by
  cases h with
  | idle _ _ _ hmono => exact hmono hclosed
  | schedule => exact hclosed
  | call => exact hclosed
  | resume => exact hclosed
  | conclude => exact closed_of_conclude hclosed

theorem Next.stream {parser : Parser} {live : Snapshot} {c : Controller}
    {turn : Option Nat} {out : Controller × List Effect} (h : c.Next parser live turn out) :
    out.1.stream = c.stream := by
  cases h with
  | idle => rfl
  | schedule => rfl
  | call => rfl
  | resume => rfl
  | @conclude job call answer => exact (conclude_counters c live job answer).2.2

theorem Next.buffer {parser : Parser} {live : Snapshot} {c : Controller}
    {turn : Option Nat} {out : Controller × List Effect} (h : c.Next parser live turn out) :
    out.1.buffer = c.buffer := by
  cases h with
  | idle => rfl
  | schedule => rfl
  | call => rfl
  | resume => rfl
  | @conclude job call answer => exact conclude_buffer c live job answer

theorem Next.options {parser : Parser} {live : Snapshot} {c : Controller}
    {turn : Option Nat} {out : Controller × List Effect} (h : c.Next parser live turn out) :
    out.1.options = c.options := by
  cases h with
  | idle => rfl
  | schedule => rfl
  | call => rfl
  | resume => rfl
  | @conclude job call answer => exact conclude_options c live job answer

end Controller

namespace Session

/-- Edits change the live snapshot, and nothing else does. -/
theorem act_live (parser : Parser) (s : Session) (a : Action) :
    (s.act parser a).1.buffer.live =
      match a with
      | .edit f => ⟨s.buffer.live.version + 1, .buffer s.buffer.id, f s.buffer.live.text⟩
      | _ => s.buffer.live := by
  cases a with
  | listen =>
    simp only [act, listen]
    split
    · rfl
    · split
      · rfl
      · rename_i htake
        obtain ⟨inbox, rest, -, -, rfl⟩ := Buffer.take?_eq_some htake
        rfl
  | advance job =>
    simp only [act, advance]
    split <;> rfl
  | _ => rfl

def Action.turn? : Action → Option Nat
  | advance job => some job
  | _ => none

/-- One action leads the controller to one of the states that `Next` lists. -/
theorem act_next (parser : Parser) (s : Session) (a : Action) :
    s.controller.Next parser s.buffer.live a.turn?
      ((s.act parser a).1.controller, (s.act parser a).2) := by
  cases a with
  | edit f => exact Controller.next_refl _ _ _ _
  | schedule snapshot =>
    refine .schedule snapshot ?_
    intro e he
    exact ⟨_, List.mem_singleton.1 he⟩
  | notify snapshot =>
    exact Controller.next_notify parser s.buffer.live snapshot s.controller []
      (List.forall_mem_nil _)
  | listen =>
    simp only [act, listen]
    split
    · exact Controller.next_refl _ _ _ _
    · split
      · exact Controller.next_refl _ _ _ _
      · rename_i htake
        obtain ⟨inbox, rest, -, -, rfl⟩ := Buffer.take?_eq_some htake
        exact Controller.next_hear parser _ _ _
  | advance job =>
    simp only [act, advance]
    split
    · exact Controller.next_refl _ _ _ _
    · rename_i hjob
      have hid := List.find?_some hjob
      rw [beq_iff_eq] at hid
      rw [Action.turn?, ← hid]
      exact Controller.next_advance parser _ (List.mem_of_find?_eq_some hjob)
  | subscribe => exact .idle _ s.controller.closed s.controller.held id (List.forall_mem_nil _)
  | drain receiver =>
    simp only [act, withController, Controller.drain]
    split
    · exact .idle _ s.controller.closed s.controller.held id
        (List.forall_mem_nil _)
    · exact Controller.next_refl _ _ _ _
  | close => exact .idle s.controller.receivers true s.controller.held (fun _ => rfl) (List.forall_mem_nil _)
  | release =>
    refine .idle s.controller.receivers _ false (fun h => ?_) (List.forall_mem_nil _)
    simp only [h, Bool.true_or]

end Session
end LiveSheet
