import LiveSheet.Proofs.Changes
import LiveSheet.Proofs.Provenance

/-!
# The outcomes of finished parses

A parse that ends without being applied leaves the controller as it was, and its failure is
reported once if anybody can still care.  Whether it is applied is decided by versions; over a
run this comes to the same as asking whether its snapshot is live and has no tree yet.
-/

namespace LiveSheet

/-- The error with which a call of the parser fails, if it fails.  A parse that was given up
because nobody wanted it any more has not failed. -/
def Ending.failure? : Ending → Option ParseError
  | returned (.ok _) => none
  | returned (.error (.cancelled _)) => none
  | returned (.error e) => some e
  | crashed report => some (.internal ("parse task failed: " ++ report))

/-- A call fails exactly if its result is an error other than that it was given up. -/
theorem Ending.result_cases (ending : Ending) :
    (∃ items, ending.result = .ok items ∧ ending.failure? = none) ∨
    ∃ e, ending.result = .error e ∧
      ending.failure? = if e.isCancelled then none else some e := by
  rcases ending with (e | items) | report
  · refine .inr ⟨e, rfl, ?_⟩
    cases e <;> rfl
  · exact .inl ⟨items, rfl, rfl⟩
  · exact .inr ⟨_, rfl, rfl⟩

namespace Effect

/-- The failure that the effect reports, if it reports one, and to whom. -/
def report? : Effect → Option (String × Failure)
  | reported reporter failure => some (reporter, failure)
  | _ => none

/-- The parse that the effect is the end of, if it is the end of one, and its outcome. -/
def outcome? : Effect → Option (Nat × Outcome)
  | concluded job outcome => some (job, outcome)
  | _ => none

def reports (effects : List Effect) : List (String × Failure) := effects.filterMap report?

def outcomes (effects : List Effect) : List (Nat × Outcome) := effects.filterMap outcome?

theorem reports_append (a b : List Effect) : reports (a ++ b) = reports a ++ reports b :=
  List.filterMap_append

theorem outcomes_append (a b : List Effect) : outcomes (a ++ b) = outcomes a ++ outcomes b :=
  List.filterMap_append

theorem silent_of_log {effects : List Effect} (h : ∀ e ∈ effects, e.IsLog) :
    reports effects = [] ∧ outcomes effects = [] := by
  refine ⟨List.filterMap_eq_nil_iff.2 fun e he => ?_, List.filterMap_eq_nil_iff.2 fun e he => ?_⟩
  all_goals
    obtain ⟨entry, rfl⟩ := h e he
    rfl

end Effect

namespace Controller

variable {parser : Parser} {live s : Snapshot} {c : Controller} {turn : Option Nat}
  {out : Controller × List Effect}

/-! ## Parses that are not applied -/

theorem commit_silent (c : Controller) (s : Snapshot) (items : List Item) (timing : Timing) :
    Effect.reports (c.commit s items timing).2 = [] ∧
      Effect.outcomes (c.commit s items timing).2 = [] := by
  obtain ⟨logs, heffects, hlog⟩ := commit_effects c s items timing
  obtain ⟨hreports, houtcomes⟩ := Effect.silent_of_log hlog
  rw [heffects]
  exact ⟨hreports, houtcomes⟩

/-- An answer with items is never reported, whatever becomes of it. -/
theorem respond_ok (c : Controller) (live s : Snapshot) (items : List Item) (notes : List Measurement) :
    Effect.reports (c.respond live s ⟨.ok items, notes⟩).2 = [] ∧
      Effect.outcomes (c.respond live s ⟨.ok items, notes⟩).2 = [] := by
  simp only [respond]
  cases c.verdict live s (.ok items) with
  | applied v => exact commit_silent c s items _
  | stale => exact ⟨rfl, rfl⟩
  | failed => exact ⟨rfl, rfl⟩
  | superseded => exact ⟨rfl, rfl⟩

/-- An error is reported once, unless the parse was given up or the controller is closed. -/
theorem respond_error (c : Controller) (live s : Snapshot) (e : ParseError) (notes : List Measurement) :
    Effect.reports (c.respond live s ⟨.error e, notes⟩).2 =
        (if e.isCancelled || c.closed then []
        else [(c.options.reporter, ⟨s.version, c.path, e⟩)]) ∧
      Effect.outcomes (c.respond live s ⟨.error e, notes⟩).2 = [] := by
  simp only [respond, verdict]
  cases e.isCancelled with
  | true => exact ⟨rfl, rfl⟩
  | false => cases c.closed <;> exact ⟨rfl, rfl⟩

/-- What the end of a call leads to is reported or not by the way in which it ended. -/
theorem respond_reports (c : Controller) (live s : Snapshot) (ending : Ending) (notes : List Measurement) :
    Effect.reports (c.respond live s ⟨ending.result, notes⟩).2 =
        (if c.closed then []
        else (ending.failure?.map fun e => (c.options.reporter, ⟨s.version, c.path, e⟩)).toList) ∧
      Effect.outcomes (c.respond live s ⟨ending.result, notes⟩).2 = [] := by
  rcases ending.result_cases with ⟨items, hresult, hfailure⟩ | ⟨e, hresult, hfailure⟩
  · obtain ⟨hreports, houtcomes⟩ := respond_ok c live s items notes
    rw [hresult, hfailure, hreports, houtcomes]
    exact ⟨(ite_self _).symm, rfl⟩
  · obtain ⟨hreports, houtcomes⟩ := respond_error c live s e notes
    rw [hresult, hfailure, hreports, houtcomes]
    cases e.isCancelled <;> cases c.closed <;> exact ⟨rfl, rfl⟩

theorem verdict_eq_failed_iff (c : Controller) (live s : Snapshot) (ending : Ending) :
    c.verdict live s ending.result = .failed ↔ ∃ e, ending.failure? = some e := by
  rcases ending.result_cases with ⟨items, hresult, hfailure⟩ | ⟨e, hresult, hfailure⟩
  · rw [hresult, hfailure]
    simp only [verdict]
    split
    · simp
    · split <;> simp
  · rw [hresult, hfailure]
    cases h : e.isCancelled <;> simp [verdict, h]

theorem outcomes_conclude (c : Controller) (live : Snapshot) (job : Job) (ending : Ending)
    (notes : List Measurement) :
    Effect.outcomes (c.conclude live job ⟨ending.result, notes⟩).2 =
      [(job.id, c.verdict live job.snapshot ending.result)] := by
  simp only [conclude, Effect.outcomes_append,
    (c.respond_reports live job.snapshot ending notes).2]
  rfl

/-- A parse that is not applied leaves all that others see of the controller as it was. -/
theorem conclude_of_not_applied {job : Job} {a : Answer}
    (h : ∀ v, c.verdict live job.snapshot a.result ≠ .applied v) :
    (c.conclude live job a).1.tree = c.tree ∧ (c.conclude live job a).1.timing = c.timing ∧
      (c.conclude live job a).1.receivers = c.receivers ∧
      Effect.changes (c.conclude live job a).2 = [] := by
  rcases respond_cases c live job.snapshot a with ⟨_, -, hverdict, -⟩ | ⟨-, hsame⟩
  · exact absurd hverdict (h _)
  · refine ⟨?_, ?_, ?_, ?_⟩
    · simp only [conclude, hsame, reap]
    · simp only [conclude, hsame, reap]
    · simp only [conclude, hsame, reap]
    · simp only [conclude, Effect.changes_append, Effect.changes_of_quiet (respond_quiet h)]
      rfl

/-- Only the end of a parse is ever reported, and only the end of a parse has an outcome. -/
theorem Next.silent_or_conclude (h : c.Next parser live turn out) :
    (Effect.reports out.2 = [] ∧ Effect.outcomes out.2 = [] ∧ Effect.changes out.2 = [] ∧
      out.1.tree = c.tree ∧ out.1.timing = c.timing) ∨
    ∃ job ∈ c.jobs, ∃ call a, turn = some job.id ∧ job.stage = .underway call (.done a) ∧
      out = c.conclude live job a := by
  have hsilent : ∀ effects : List Effect, (∀ e ∈ effects, e.IsLog) →
      Effect.reports effects = [] ∧ Effect.outcomes effects = [] ∧ Effect.changes effects = [] :=
    fun _ hlog => ⟨(Effect.silent_of_log hlog).1, (Effect.silent_of_log hlog).2,
      Effect.changes_of_quiet fun e he => (hlog e he).quiet⟩
  cases h with
  | idle _ _ _ _ hlog =>
    obtain ⟨hreports, houtcomes, hchanges⟩ := hsilent _ hlog
    exact .inl ⟨hreports, houtcomes, hchanges, rfl, rfl⟩
  | schedule _ hlog =>
    obtain ⟨hreports, houtcomes, hchanges⟩ := hsilent _ hlog
    exact .inl ⟨hreports, houtcomes, hchanges, rfl, rfl⟩
  | call => exact .inl ⟨rfl, rfl, rfl, rfl, rfl⟩
  | resume => exact .inl ⟨rfl, rfl, rfl, rfl, rfl⟩
  | @conclude job call a hmem hturn hstage => exact .inr ⟨job, hmem, call, a, hturn, hstage, rfl⟩

/-! ## Versions and identities -/

/-- The tree is of the live snapshot, or of one with a lower version. -/
def Dated (live : Snapshot) (c : Controller) : Prop :=
  ∀ s, c.tree.snapshot? = some s → s = live ∨ s.version < live.version

/-- The version of the tree reaches that of the live snapshot only if the tree is of that very
snapshot. -/
theorem Dated.version_iff (h : c.Dated live) :
    c.tree.version?.any (live.version ≤ ·) = true ↔ c.tree.snapshot? = some live := by
  unfold Tree.version?
  cases htree : c.tree.snapshot? with
  | none => simp
  | some old =>
    rw [Option.map_some, Option.any_some, decide_eq_true_eq, Option.some.injEq]
    constructor
    · intro hle
      rcases h old htree with rfl | hlt
      · rfl
      · exact absurd hle (Nat.not_le.2 hlt)
    · rintro rfl
      exact Nat.le_refl _

theorem Next.dated (h : c.Next parser live turn out) (hdated : c.Dated live) :
    out.1.Dated live := by
  rcases h.tree_cases with ⟨htree, -⟩ | ⟨_, _, items, _, -, -, -, -, htree, -⟩
  · unfold Dated
    rw [htree]
    exact hdated
  · intro s hs
    rw [htree] at hs
    exact .inl (Option.some.inj hs).symm

/-- What becomes of a parse with items, in terms of identity alone. -/
theorem Dated.verdict_eq (h : c.Dated live) (s : Snapshot) (items : List Item) :
    c.verdict live s (.ok items) =
      if c.closed = true ∨ s ≠ live then .stale
      else if c.tree.snapshot? = some s then .superseded
      else .applied s.version := by
  simp only [verdict, Bool.or_eq_true, bne_iff_ne, ne_comm (a := live)]
  by_cases hstale : c.closed = true ∨ s ≠ live
  · rw [if_pos hstale, if_pos hstale]
  · obtain rfl : s = live := Decidable.not_not.1 (not_or.1 hstale).2
    simp only [if_neg hstale, h.version_iff]

theorem Dated.verdict_iff (h : c.Dated live) (s : Snapshot) (items : List Item) :
    (c.verdict live s (.ok items) = .stale ↔ c.closed = true ∨ s ≠ live) ∧
      (c.verdict live s (.ok items) = .superseded ↔
        c.closed = false ∧ s = live ∧ c.tree.snapshot? = some s) ∧
      (c.verdict live s (.ok items) = .applied s.version ↔
        c.closed = false ∧ s = live ∧ c.tree.snapshot? ≠ some s) := by
  rw [h.verdict_eq s items]
  by_cases hstale : c.closed = true ∨ s ≠ live
  · have hno : ∀ p : Prop, ¬(c.closed = false ∧ s = live ∧ p) := by
      rintro p ⟨hopen, hlive, -⟩
      rcases hstale with hclosed | hne
      · exact Bool.false_ne_true (hopen.symm.trans hclosed)
      · exact hne hlive
    rw [if_pos hstale]
    exact ⟨iff_of_true rfl hstale, iff_of_false Outcome.noConfusion (hno _),
      iff_of_false Outcome.noConfusion (hno _)⟩
  · obtain ⟨hclosed, hlive⟩ := not_or.1 hstale
    have hopen : c.closed = false := Bool.eq_false_iff.2 hclosed
    rw [if_neg hstale]
    split <;> simp_all

end Controller

namespace Session

theorem act_dated {parser : Parser} {s : Session} (h : s.controller.Dated s.buffer.live)
    (a : Action) :
    (s.act parser a).1.controller.Dated (s.act parser a).1.buffer.live := by
  have hdated := (act_next parser s a).dated h
  rw [act_live]
  cases a with
  | edit f =>
    intro old hold
    refine .inr ?_
    show old.version < s.buffer.live.version + 1
    rcases h old hold with rfl | hlt
    · exact Nat.lt_succ_self _
    · exact Nat.lt_succ_of_lt hlt
  | _ => exact hdated

theorem after_dated (parser : Parser) (b : Buffer) (options : ControllerOptions)
    (actions : List Action) :
    (after parser b options actions).controller.Dated
      (after parser b options actions).buffer.live := by
  refine after_invariant (P := fun s => s.controller.Dated s.buffer.live) ?_
    (fun _ a h => act_dated h a) actions
  intro s hs
  exact nomatch hs

/-- A parse whose work is done is concluded in its next turn. -/
theorem advance_of_done {parser : Parser} {s : Session} (h : s.Sound parser) {job : Job}
    (hmem : job ∈ s.controller.jobs) {call : Nat} {a : Answer}
    (hstage : job.stage = .underway call (.done a)) :
    s.act parser (.advance job.id) =
      s.withController (s.controller.conclude s.buffer.live job a) := by
  have hfind : s.controller.job? job.id = some job := by
    obtain ⟨found, hfound⟩ : ∃ found, s.controller.job? job.id = some found :=
      Option.isSome_iff_exists.1 (List.find?_isSome.2 ⟨job, hmem, beq_self_eq_true _⟩)
    have hid := List.find?_some hfound
    rw [beq_iff_eq] at hid
    rw [hfound, h.numbered.eq_of_id (List.mem_of_find?_eq_some hfound) hmem hid]
  simp only [act, advance, hfind, Controller.advance, hstage]

/-- Failures are soft.  In whatever way a call of the parser ends and in whatever state it finds
the controller, its parse has one outcome.  If it is not applied, then the tree and the timing
stay, and nobody is told of a change.  If the call fails while the controller is open, then this
is reported once, with the version of the snapshot, the path and the error.  Nothing else that
happens in a session is reported or has an outcome.  And in a sound session, as every run leads to
one, a parse whose work is done comes to this end in its next turn. -/
theorem fail_soft (parser : Parser) (s : Session) :
    (∀ (live : Snapshot) (job : Job) (ending : Ending) (notes : List Measurement),
      let c := s.controller
      let outcome := c.verdict live job.snapshot ending.result
      let out := c.conclude live job ⟨ending.result, notes⟩
      Effect.outcomes out.2 = [(job.id, outcome)] ∧
        (outcome = .failed ↔ ∃ e, ending.failure? = some e) ∧
        ((∀ v, outcome ≠ .applied v) → out.1.tree = c.tree ∧ out.1.timing = c.timing ∧
          out.1.receivers = c.receivers ∧ Effect.changes out.2 = []) ∧
        Effect.reports out.2 = if c.closed then [] else
          (ending.failure?.map fun e =>
            (c.options.reporter, ⟨job.snapshot.version, c.path, e⟩)).toList) ∧
    (∀ a, let out := s.act parser a
      (Effect.reports out.2 = [] ∧ Effect.outcomes out.2 = [] ∧ Effect.changes out.2 = [] ∧
        out.1.controller.tree = s.controller.tree ∧
        out.1.controller.timing = s.controller.timing) ∨
      ∃ job ∈ s.controller.jobs, ∃ call answer, a = .advance job.id ∧
        job.stage = .underway call (.done answer) ∧
        (out.1.controller, out.2) = s.controller.conclude s.buffer.live job answer) ∧
    (s.Sound parser → ∀ job ∈ s.controller.jobs, ∀ call answer,
      job.stage = .underway call (.done answer) →
        s.act parser (.advance job.id) =
          s.withController (s.controller.conclude s.buffer.live job answer)) := by
  refine ⟨fun live job ending notes => ?_, fun a => ?_,
    fun hsound _ hmem _ _ hstage => advance_of_done hsound hmem hstage⟩
  · intro c outcome out
    refine ⟨c.outcomes_conclude live job ending notes,
      c.verdict_eq_failed_iff live job.snapshot ending,
      fun h => Controller.conclude_of_not_applied h, ?_⟩
    simp only [out, Controller.conclude, Effect.reports_append,
      (c.respond_reports live job.snapshot ending notes).1]
    exact List.append_nil _
  · rcases (act_next parser s a).silent_or_conclude with
      hsilent | ⟨job, hmem, call, answer, hturn, hstage, hout⟩
    · exact .inl hsilent
    · exact .inr ⟨job, hmem, call, answer, eq_advance_of_turn? hturn, hstage, hout⟩

/-- Versions stand for identities.  A parse that ends with items is stale exactly if the
controller is closed or its snapshot is not the live one; otherwise it is superseded exactly if
the tree is of its snapshot, and not merely of one with that version or a later one; otherwise it
is applied.  So a live snapshot of which there has been no tree so far is never refused. -/
theorem outcome_by_identity (parser : Parser) (b : Buffer) (options : ControllerOptions)
    (actions : List Action) (job : Job) (call : Nat) (items : List Item) (notes : List Measurement)
    (hmem : job ∈ (after parser b options actions).controller.jobs)
    (hstage : job.stage = .underway call (.done ⟨.ok items, notes⟩)) :
    let s := after parser b options actions
    let out := s.act parser (.advance job.id)
    ∃ outcome, Effect.outcomes out.2 = [(job.id, outcome)] ∧
      (outcome = .stale ↔ s.controller.closed = true ∨ job.snapshot ≠ s.buffer.live) ∧
      (outcome = .superseded ↔ s.controller.closed = false ∧ job.snapshot = s.buffer.live ∧
        s.controller.tree.snapshot? = some job.snapshot) ∧
      (outcome = .applied job.snapshot.version ↔ s.controller.closed = false ∧
        job.snapshot = s.buffer.live ∧ s.controller.tree.snapshot? ≠ some job.snapshot) ∧
      (s.controller.closed = false → job.snapshot = s.buffer.live →
        (∀ first rest, actions = first ++ rest →
          (after parser b options first).controller.tree.snapshot? ≠ some job.snapshot) →
        outcome = .applied job.snapshot.version ∧
          out.1.controller.tree = .parsed job.snapshot items) := by
  intro s out
  obtain ⟨hstale, hsuperseded, happlied⟩ :=
    (after_dated parser b options actions).verdict_iff job.snapshot items
  have hout : out = s.withController
      (s.controller.conclude s.buffer.live job ⟨.ok items, notes⟩) :=
    advance_of_done (after_sound parser b options actions) hmem hstage
  have houtcomes : Effect.outcomes out.2 =
      [(job.id, s.controller.verdict s.buffer.live job.snapshot (.ok items))] := by
    rw [hout]
    exact s.controller.outcomes_conclude s.buffer.live job (.returned (.ok items)) notes
  refine ⟨_, houtcomes, hstale, hsuperseded, happlied, fun hopen hlive hnew => ?_⟩
  have hverdict := happlied.2 ⟨hopen, hlive, hnew actions [] (List.append_nil _).symm⟩
  refine ⟨hverdict, ?_⟩
  rw [hout]
  rcases s.controller.conclude_tree s.buffer.live job ⟨.ok items, notes⟩ with
    ⟨found, hfound, -, htree, -⟩ | ⟨hno, -⟩
  · cases hfound
    exact htree
  · exact absurd hverdict (hno _)

/-- A snapshot with the version and the text of the live one is parsed, and so is the live one
itself.  Both parses are done before either is concluded. -/
theorem outcome_by_identity_forged :
    let forged : Job := ⟨1, ⟨1, .outside 0, ['a']⟩, .underway 0 (.done ⟨.ok [], []⟩)⟩
    let genuine : Job := ⟨2, ⟨1, .buffer 0, ['a']⟩, .underway 1 (.done ⟨.ok [], []⟩)⟩
    let s := after (fun _ _ => .done ⟨.ok [], []⟩) (.create 0 0 none []) ⟨"", false, false⟩
      [.edit fun _ => ['a'], .schedule forged.snapshot, .schedule genuine.snapshot,
        .advance 1, .advance 1, .advance 2, .advance 2]
    s.controller.closed = false ∧ forged ∈ s.controller.jobs ∧ genuine ∈ s.controller.jobs ∧
      Effect.outcomes (s.act (fun _ _ => .done ⟨.ok [], []⟩) (.advance 1)).2 =
        [(1, .stale)] ∧
      Effect.outcomes (s.act (fun _ _ => .done ⟨.ok [], []⟩) (.advance 2)).2 =
        [(2, .applied 1)] := by
  intro forged genuine s
  have hforged : forged ∈ s.controller.jobs := List.mem_cons_of_mem _ List.mem_cons_self
  have hgenuine : genuine ∈ s.controller.jobs :=
    List.mem_cons_of_mem _ (List.mem_cons_of_mem _ List.mem_cons_self)
  obtain ⟨first, hfirst, hstale, -⟩ :=
    outcome_by_identity _ _ _ _ forged 0 [] [] hforged rfl
  obtain ⟨second, hsecond, -, -, happlied, -⟩ :=
    outcome_by_identity _ _ _ _ genuine 1 [] [] hgenuine rfl
  refine ⟨rfl, hforged, hgenuine, ?_, ?_⟩
  · exact hfirst.trans (congrArg (fun o => [(1, o)]) (hstale.2 (.inr (by decide))))
  · exact hsecond.trans (congrArg (fun o => [(2, o)]) (happlied.2 ⟨rfl, rfl, by decide⟩))

end Session
end LiveSheet
