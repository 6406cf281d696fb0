import LiveSheet.Proofs.Runs

/-!
# Tree changes

The changes that a controller sends out are exactly the parses that it applies, in the
same order.  Each change goes on from the tree that the one before it left, and the
versions rise.
-/

namespace LiveSheet

/-- The changes lead from one tree to another, each from the tree that the one before
it led to. -/
def Linked (first : Tree) : List TreeChange → Tree → Prop
  | [], last => last = first
  | change :: rest, last => change.previous = first ∧ Linked change.current rest last

theorem Linked.concat {first last next : Tree} {changes : List TreeChange}
    (h : Linked first changes last) : Linked first (changes ++ [⟨last, next⟩]) next := by
  induction changes generalizing first with
  | nil =>
    obtain rfl : last = first := h
    exact ⟨rfl, rfl⟩
  | cons change rest ih => exact ⟨h.1, ih h.2⟩

namespace Effect

def change? : Effect → Option TreeChange
  | changed change => some change
  | _ => none

/-- The parse that was applied, if the effect is the end of one, and its version. -/
def applied? : Effect → Option (Nat × Nat)
  | concluded job (.applied version) => some (job, version)
  | _ => none

def changes (effects : List Effect) : List TreeChange := effects.filterMap change?

def applied (effects : List Effect) : List (Nat × Nat) := effects.filterMap applied?

/-- An effect that is no change of the tree and no end of a parse that was applied. -/
def Quiet (e : Effect) : Prop := e.change? = none ∧ e.applied? = none

theorem IsLog.quiet {e : Effect} (h : e.IsLog) : e.Quiet := by
  obtain ⟨entry, rfl⟩ := h
  exact ⟨rfl, rfl⟩

theorem changes_append (a b : List Effect) : changes (a ++ b) = changes a ++ changes b :=
  List.filterMap_append

theorem applied_append (a b : List Effect) : applied (a ++ b) = applied a ++ applied b :=
  List.filterMap_append

theorem changes_of_quiet {effects : List Effect} (h : ∀ e ∈ effects, e.Quiet) :
    changes effects = [] :=
  List.filterMap_eq_nil_iff.2 fun e he => (h e he).1

theorem applied_of_quiet {effects : List Effect} (h : ∀ e ∈ effects, e.Quiet) :
    applied effects = [] :=
  List.filterMap_eq_nil_iff.2 fun e he => (h e he).2

end Effect

namespace Controller

variable {parser : Parser} {live : Snapshot} {c : Controller} {turn : Option Nat}
  {out : Controller × List Effect}

theorem commit_effects (c : Controller) (s : Snapshot) (items : List Item) (timing : Timing) :
    ∃ logs, (c.commit s items timing).2 = .changed ⟨c.tree, .parsed s items⟩ :: logs ∧
      ∀ e ∈ logs, e.IsLog := by
  refine ⟨_, rfl, fun e he => ?_⟩
  obtain ⟨entry, -, rfl⟩ := List.mem_map.1 he
  exact ⟨entry, rfl⟩

theorem respond_quiet {s : Snapshot} {a : Answer}
    (h : ∀ v, c.verdict live s a.result ≠ .applied v) :
    ∀ e ∈ (c.respond live s a).2, e.Quiet := by
  intro e he
  simp only [respond] at he
  split at he
  · rename_i hverdict
    exact absurd hverdict (h _)
  · rw [List.mem_singleton.1 he]
    exact ⟨rfl, rfl⟩
  · exact absurd he List.not_mem_nil
  · rw [List.mem_singleton.1 he]
    exact ⟨rfl, rfl⟩
  · split at he
    · exact absurd he List.not_mem_nil
    · rw [List.mem_singleton.1 he]
      exact ⟨rfl, rfl⟩

/-- A parse that is concluded sends one change and counts as applied, or it leaves the tree
alone and does neither. -/
theorem conclude_changes (c : Controller) (live : Snapshot) (job : Job) (a : Answer) :
    let out := c.conclude live job a
    (out.1.tree = c.tree ∧ Effect.changes out.2 = [] ∧ Effect.applied out.2 = []) ∨
    ∃ items, live = job.snapshot ∧ c.tree.version?.any (live.version ≤ ·) = false ∧
      out.1.tree = .parsed live items ∧
      Effect.changes out.2 = [⟨c.tree, .parsed live items⟩] ∧
      Effect.applied out.2 = [(job.id, live.version)] := by
  intro out
  have heffects : out.2 = (c.respond live job.snapshot a).2 ++
      [.concluded job.id (c.verdict live job.snapshot a.result)] := rfl
  rcases conclude_tree c live job a with ⟨items, hresult, hverdict, htree, -⟩ | ⟨hno, htree, -⟩
  · obtain ⟨-, -, rfl, hnewer, -⟩ := verdict_eq_applied_iff.1 hverdict
    have hrespond : c.respond job.snapshot job.snapshot a =
        c.commit job.snapshot items a.timing := by
      rw [hresult] at hverdict
      simp only [respond, hresult, hverdict]
    obtain ⟨logs, hlogs, hlog⟩ := commit_effects c job.snapshot items a.timing
    have hquiet : ∀ e ∈ logs, e.Quiet := fun e he => (hlog e he).quiet
    refine .inr ⟨items, rfl, hnewer, htree, ?_, ?_⟩
    · rw [heffects, hrespond, hlogs, hverdict, Effect.changes_append]
      show ⟨c.tree, .parsed job.snapshot items⟩ :: Effect.changes logs ++ [] = _
      rw [Effect.changes_of_quiet hquiet]
      rfl
    · rw [heffects, hrespond, hlogs, hverdict, Effect.applied_append]
      show Effect.applied logs ++ [(job.id, job.snapshot.version)] = _
      rw [Effect.applied_of_quiet hquiet]
      rfl
  · have hend : (Effect.concluded job.id (c.verdict live job.snapshot a.result)).Quiet := by
      refine ⟨rfl, ?_⟩
      unfold Effect.applied?
      split
      · rename_i heq
        exact absurd (Effect.concluded.inj heq).2 (hno _)
      · rfl
    have hquiet : ∀ e ∈ out.2, e.Quiet := by
      intro e he
      rw [heffects] at he
      rcases List.mem_append.1 he with he | he
      · exact respond_quiet hno e he
      · exact List.mem_singleton.1 he ▸ hend
    exact .inl ⟨htree, Effect.changes_of_quiet hquiet, Effect.applied_of_quiet hquiet⟩

/-- An action that is heard of in the tree sends one change and applies one parse, and
an action that is not does neither. -/
theorem Next.changes_cases (h : c.Next parser live turn out) :
    (out.1.tree = c.tree ∧ Effect.changes out.2 = [] ∧ Effect.applied out.2 = []) ∨
    ∃ job ∈ c.jobs, ∃ items, c.tree.version?.any (live.version ≤ ·) = false ∧
      out.1.tree = .parsed live items ∧ out.1.jobs = c.jobs.filter (·.id != job.id) ∧
      Effect.changes out.2 = [⟨c.tree, .parsed live items⟩] ∧
      Effect.applied out.2 = [(job.id, live.version)] := by
  have hsilent : ∀ effects : List Effect, (∀ e ∈ effects, e.IsLog) →
      Effect.changes effects = [] ∧ Effect.applied effects = [] :=
    fun _ hlog => ⟨Effect.changes_of_quiet fun e he => (hlog e he).quiet,
      Effect.applied_of_quiet fun e he => (hlog e he).quiet⟩
  cases h with
  | idle _ _ _ _ hlog => exact .inl ⟨rfl, hsilent _ hlog⟩
  | schedule s hlog => exact .inl ⟨rfl, hsilent _ hlog⟩
  | call => exact .inl ⟨rfl, rfl, rfl⟩
  | resume => exact .inl ⟨rfl, rfl, rfl⟩
  | @conclude job call a hmem hturn hstage =>
    rcases conclude_changes c live job a with hsame | ⟨items, -, hnewer, htree, hchanges, happlied⟩
    · exact .inl hsame
    · exact .inr ⟨job, hmem, items, hnewer, htree, conclude_jobs c live job a, hchanges, happlied⟩

/-- What the effects of a run so far say about the controller after it. -/
structure Recorded (effects : List Effect) (c : Controller) : Prop where
  linked : Linked .empty (Effect.changes effects) c.tree
  versions : (Effect.changes effects).map (·.current.version?) =
    (Effect.applied effects).map fun parse => some parse.2
  latest : ∀ parse ∈ Effect.applied effects, ∃ v, c.tree.version? = some v ∧ parse.2 ≤ v
  ascending : (Effect.applied effects).Pairwise (·.2 < ·.2)
  ended : ∀ parse ∈ Effect.applied effects,
    parse.1 < c.scheduled ∧ ∀ job ∈ c.jobs, job.id ≠ parse.1
  once : ((Effect.applied effects).map Prod.fst).Nodup

/-- A parse that is over stays so: no action brings a job back or gives its number away
again. -/
theorem Next.stays_over (h : c.Next parser live turn out) (hc : c.Numbered) {id : Nat}
    (hid : id < c.scheduled) (hover : ∀ job ∈ c.jobs, job.id ≠ id) :
    id < out.1.scheduled ∧ ∀ job ∈ out.1.jobs, job.id ≠ id := by
  refine ⟨Nat.lt_of_lt_of_le hid (next_counters_le h).1, fun job hjob => ?_⟩
  cases h.descends hc hjob with
  | kept hmem => exact hover _ hmem
  | scheduled s hcount => exact Nat.ne_of_gt hid
  | called hmem =>
    have hne := hover _ hmem
    exact hne
  | resumed hmem =>
    have hne := hover _ hmem
    exact hne

theorem Next.recorded {effects : List Effect} (h : c.Next parser live turn out)
    (hc : c.Numbered) (hrecorded : c.Recorded effects) :
    out.1.Recorded (effects ++ out.2) := by
  obtain ⟨hlinked, hversions, hlatest, hascending, hover, honce⟩ := hrecorded
  have hstays : ∀ parse ∈ Effect.applied effects,
      parse.1 < out.1.scheduled ∧ ∀ job ∈ out.1.jobs, job.id ≠ parse.1 :=
    fun parse hparse => h.stays_over hc (hover parse hparse).1 (hover parse hparse).2
  rcases h.changes_cases with
    ⟨htree, hchanges, happlied⟩ | ⟨job, hmem, items, hnewer, htree, hjobs, hchanges, happlied⟩
  · refine ⟨?_, ?_, ?_, ?_, ?_, ?_⟩ <;>
      simp only [Effect.changes_append, Effect.applied_append, hchanges, happlied, htree,
        List.append_nil] <;> assumption
  · have hbelow : ∀ parse ∈ Effect.applied effects, parse.2 < live.version := by
      intro parse hparse
      obtain ⟨v, hv, hle⟩ := hlatest parse hparse
      rw [hv, Option.any_some, decide_eq_false_iff_not] at hnewer
      omega
    refine ⟨?_, ?_, ?_, ?_, ?_, ?_⟩ <;>
      simp only [Effect.changes_append, Effect.applied_append, hchanges, happlied, htree]
    · exact hlinked.concat
    · rw [List.map_append, List.map_append, hversions]
      rfl
    · intro parse hparse
      refine ⟨live.version, rfl, ?_⟩
      rcases List.mem_append.1 hparse with hparse | hparse
      · exact Nat.le_of_lt (hbelow parse hparse)
      · exact Nat.le_of_eq (congrArg Prod.snd (List.mem_singleton.1 hparse))
    · rw [List.pairwise_append]
      refine ⟨hascending, List.pairwise_singleton _ _, fun parse hparse next hnext => ?_⟩
      rw [List.mem_singleton.1 hnext]
      exact hbelow parse hparse
    · intro parse hparse
      rcases List.mem_append.1 hparse with hparse | hparse
      · exact hstays parse hparse
      · rw [List.mem_singleton.1 hparse]
        refine ⟨Nat.lt_of_lt_of_le (hc.id_lt job hmem) (next_counters_le h).1, ?_⟩
        intro k hk
        rw [hjobs, List.mem_filter, bne_iff_ne] at hk
        exact hk.2
    · rw [List.map_append, List.nodup_append]
      refine ⟨honce, List.nodup_singleton _, ?_⟩
      rintro id hid _ hjob rfl
      obtain ⟨parse, hparse, rfl⟩ := List.mem_map.1 hid
      rw [List.map_singleton, List.mem_singleton] at hjob
      exact (hover parse hparse).2 job hmem hjob.symm

end Controller

namespace Session

/-- All that a run brings about, from the attachment of the controller on. -/
def effectsOf (parser : Parser) (b : Buffer) (options : ControllerOptions)
    (actions : List Action) : List Effect :=
  (attach b options).2 ++ ((attach b options).1.run parser actions).2

theorem effectsOf_concat (parser : Parser) (b : Buffer) (options : ControllerOptions)
    (actions : List Action) (a : Action) :
    effectsOf parser b options (actions ++ [a]) =
      effectsOf parser b options actions ++
        ((after parser b options actions).act parser a).2 := by
  simp only [effectsOf, after, run_append, run, List.append_nil, List.append_assoc]

theorem effectsOf_recorded (parser : Parser) (b : Buffer) (options : ControllerOptions)
    (actions : List Action) :
    (after parser b options actions).controller.Recorded
      (effectsOf parser b options actions) := by
  induction actions using List.reverseRecOn with
  | nil =>
    exact ⟨rfl, rfl, List.forall_mem_nil _, List.Pairwise.nil, List.forall_mem_nil _,
      List.nodup_nil⟩
  | append_singleton rest a ih =>
    rw [after_concat, effectsOf_concat]
    exact (act_next parser _ a).recorded (after_sound parser b options rest).numbered ih

/-- One change is sent out for each parse that is applied, and in the same order.  The first
change goes on from the empty tree and each later one from the tree of the change before
it, the last one leads to the current tree, and the versions rise. -/
theorem changes_of_run (parser : Parser) (b : Buffer) (options : ControllerOptions)
    (actions : List Action) :
    let effects := effectsOf parser b options actions
    let changes := Effect.changes effects
    let applied := Effect.applied effects
    changes.length = applied.length ∧
      changes.map (·.current.version?) = applied.map (fun parse => some parse.2) ∧
      (applied.map Prod.fst).Nodup ∧ (applied.map Prod.snd).Pairwise (· < ·) ∧
      Linked .empty changes (after parser b options actions).controller.tree := by
  intro effects changes applied
  obtain ⟨hlinked, hversions, -, hascending, -, honce⟩ :=
    effectsOf_recorded parser b options actions
  refine ⟨?_, hversions, honce, List.pairwise_map.2 hascending, hlinked⟩
  have hlength := congrArg List.length hversions
  rw [List.length_map, List.length_map] at hlength
  exact hlength

end Session
end LiveSheet
