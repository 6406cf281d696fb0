import LiveSheet.Proofs.Runs

/-!
# Where trees come from

A tree that is current was taken over in one turn of one parse, of the snapshot that
was live in that turn.  Its items are what that parse's one call of the parser gave, and
the timing is what that same call noted.
-/

namespace LiveSheet
namespace Session

/-- In its next turn the parse `job` is applied.  At that moment its snapshot is the
live one and the controller is open, and what is taken over is the answer of its own
call of the parser. -/
structure Commits (parser : Parser) (s : Session) (job call : Nat) (snapshot : Snapshot)
    (items : List Item) (notes : List Measurement) : Prop where
  isOpen : s.controller.closed = false
  isLive : s.buffer.live = snapshot
  answered : ⟨job, snapshot, .underway call (.done ⟨.ok items, notes⟩)⟩ ∈ s.controller.jobs
  ends : (parser call snapshot).Ends ⟨.ok items, notes⟩
  newer : s.controller.tree.version?.any (snapshot.version ≤ ·) = false
  tree : (s.act parser (.advance job)).1.controller.tree = .parsed snapshot items
  timing : (s.act parser (.advance job)).1.controller.timing = .ofNotes notes

theorem eq_advance_of_turn? {a : Action} {job : Nat} (h : a.turn? = some job) :
    a = .advance job := by
  cases a with
  | advance id =>
    cases h
    rfl
  | _ => exact nomatch h

theorem act_tree {parser : Parser} {s : Session} (h : s.Sound parser) (a : Action) :
    ((s.act parser a).1.controller.tree = s.controller.tree ∧
      (s.act parser a).1.controller.timing = s.controller.timing) ∨
    ∃ job call snapshot items notes, a = .advance job ∧
      s.Commits parser job call snapshot items notes := by
  rcases (act_next parser s a).tree_cases with
    hkept | ⟨job, call, items, notes, hturn, hmem, hopen, hnewer, htree, htiming⟩
  · exact .inl hkept
  · obtain rfl := eq_advance_of_turn? hturn
    refine .inr ⟨job, call, s.buffer.live, items, notes, rfl, hopen, rfl, hmem, ?_, hnewer,
      htree, htiming⟩
    exact h.genuine _ hmem call _ rfl _ (.done _)

theorem after_calls_le (parser : Parser) (b : Buffer) (options : ControllerOptions)
    (first second : List Action) :
    (after parser b options first).controller.calls ≤
      (after parser b options (first ++ second)).controller.calls := by
  induction second using List.reverseRecOn with
  | nil => exact Nat.le_of_eq (by rw [List.append_nil])
  | append_singleton rest a ih =>
    rw [← List.append_assoc, after_concat]
    exact Nat.le_trans ih (Controller.next_counters_le (act_next parser _ a)).2

/-- A call of the parser belongs to one job for good: whichever job has made it at a
later point of the run is the one that had made it before. -/
theorem job_of_call {parser : Parser} {b : Buffer} {options : ControllerOptions}
    {first second : List Action} {j k : Job} {call : Nat}
    (hj : j ∈ (after parser b options first).controller.jobs)
    (hk : k ∈ (after parser b options (first ++ second)).controller.jobs)
    (hcallj : j.stage.call? = some call) (hcallk : k.stage.call? = some call) :
    k.id = j.id ∧ k.snapshot = j.snapshot := by
  have hsound := (after_sound parser b options first).numbered
  induction second using List.reverseRecOn generalizing k with
  | nil =>
    rw [List.append_nil] at hk
    have hid := hsound.call_inj k hk j hj call hcallk hcallj
    rw [hsound.eq_of_id hk hj hid]
    exact ⟨rfl, rfl⟩
  | append_singleton rest a ih =>
    rw [← List.append_assoc, after_concat] at hk
    have hnext := act_next parser (after parser b options (first ++ rest)) a
    have hlater := (after_sound parser b options (first ++ rest)).numbered
    rcases (hnext.descends hlater hk).call_cases hcallk with
      ⟨k', hk', hid, hsnapshot, hcall⟩ | ⟨hnew, -, -⟩
    · rw [← hid, ← hsnapshot]
      exact ih hk' hcall
    · have hlt := hsound.call_lt j hj call hcallj
      have hle := after_calls_le parser b options first rest
      omega

/-- After every run the tree is empty and the timing zero, or both come from the turn
in which one parse was applied. -/
theorem tree_cases (parser : Parser) (b : Buffer) (options : ControllerOptions)
    (actions : List Action) :
    ((after parser b options actions).controller.tree = .empty ∧
      (after parser b options actions).controller.timing = .zero) ∨
    ∃ before job later call snapshot items notes, actions = before ++ .advance job :: later ∧
      (after parser b options before).Commits parser job call snapshot items notes ∧
      (after parser b options actions).controller.tree = .parsed snapshot items ∧
      (after parser b options actions).controller.timing = .ofNotes notes := by
  induction actions using List.reverseRecOn with
  | nil => exact .inl ⟨rfl, rfl⟩
  | append_singleton rest a ih =>
    rw [after_concat]
    rcases act_tree (after_sound parser b options rest) a with
      ⟨htree, htiming⟩ | ⟨job, call, snapshot, items, notes, rfl, hcommits⟩
    · rw [htree, htiming]
      rcases ih with hempty | ⟨before, job, later, call, snapshot, items, notes, rfl, h⟩
      · exact .inl hempty
      · exact .inr ⟨before, job, later ++ [a], call, snapshot, items, notes, by simp, h⟩
    · exact .inr ⟨rest, job, [], call, snapshot, items, notes, rfl, hcommits, hcommits.tree,
        hcommits.timing⟩

/-- No stale and no mixed state, whatever the parser answers and in whatever order its
answers come.  The tree is empty, with no timing; or it was taken over while its
snapshot was live and the controller open, its items are what one call of the parser gave
for that snapshot, the timing is what that call noted, and nobody else ever made it. -/
theorem tree_from_one_call (parser : Parser) (b : Buffer) (options : ControllerOptions)
    (actions : List Action) :
    let c := (after parser b options actions).controller
    (c.tree = .empty ∧ c.timing = .zero) ∨
    ∃ before job later call snapshot items notes, actions = before ++ .advance job :: later ∧
      (after parser b options before).Commits parser job call snapshot items notes ∧
      (∀ first second, actions = first ++ second →
        ∀ j ∈ (after parser b options first).controller.jobs, j.stage.call? = some call →
          j.id = job ∧ j.snapshot = snapshot) ∧
      c.tree = .parsed snapshot items ∧ c.timing = .ofNotes notes := by
  intro c
  rcases tree_cases parser b options actions with
    hempty | ⟨before, job, later, call, snapshot, items, notes, hactions, hcommits, htree⟩
  · exact .inl hempty
  · refine .inr ⟨before, job, later, call, snapshot, items, notes, hactions, hcommits, ?_, htree⟩
    intro first second hsplit j hj hcall
    rw [hactions] at hsplit
    -- Of two points of the run one comes first, and the call is traced from there on.
    rcases List.append_eq_append_iff.1 hsplit with ⟨between, rfl, -⟩ | ⟨between, rfl, -⟩
    · exact job_of_call hcommits.answered hj rfl hcall
    · obtain ⟨hid, hsnapshot⟩ := job_of_call hj hcommits.answered hcall rfl
      exact ⟨hid.symm, hsnapshot.symm⟩

end Session
end LiveSheet
