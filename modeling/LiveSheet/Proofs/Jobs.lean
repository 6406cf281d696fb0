import Mathlib.Data.List.Nodup
import LiveSheet.Proofs.Controller

/-!
# The parses in flight

Where the jobs of a controller come from, and what becomes of them.  Jobs are told
apart by their numbers, calls of the parser by theirs, and whatever a job is on the
way to was on the way from the call that it made.
-/

namespace LiveSheet

def Stage.call? : Stage → Option Nat
  | waiting => none
  | called call => some call
  | underway call _ => some call

/-- All that the work of a job can end in, the call that it made can end in. -/
def Job.Genuine (parser : Parser) (job : Job) : Prop :=
  ∀ call work, job.stage = .underway call work →
    ∀ a, work.Ends a → (parser call job.snapshot).Ends a

/-- The work of a job has not been disturbed so far. -/
def Job.OnTrack (parser : Parser) (job : Job) : Prop :=
  ∀ call work, job.stage = .underway call work →
    work.undisturbed = (parser call job.snapshot).undisturbed

namespace Job.Ahead

theorem call {parser : Parser} {job : Job} {call : Nat} {work : Work Answer}
    (h : job.Ahead parser call work) : job.stage.call? = some call := by
  cases h with
  | called h => rw [h]; rfl
  | paused h => rw [h]; rfl
  | polling h => rw [h]; rfl

theorem ends {parser : Parser} {job : Job} {call : Nat} {work : Work Answer}
    (h : job.Ahead parser call work) (hgenuine : job.Genuine parser) {a : Answer}
    (ha : work.Ends a) : (parser call job.snapshot).Ends a := by
  cases h with
  | called h => exact ha
  | paused h => exact hgenuine _ _ h a (.pause ha)
  | polling h => exact hgenuine _ _ h a ha

theorem undisturbed {parser : Parser} {job : Job} {call : Nat} {work : Work Answer}
    (h : job.Ahead parser call work) (htrack : job.OnTrack parser) :
    work.undisturbed = (parser call job.snapshot).undisturbed := by
  cases h with
  | called h => rfl
  | paused h =>
    have hpause := htrack _ _ h
    exact hpause
  | polling h => exact htrack _ _ h

end Job.Ahead

namespace Controller

/-- Jobs are numbered in the order in which they were scheduled, and calls in the
order in which they were made. -/
structure Numbered (c : Controller) : Prop where
  nodup : (c.jobs.map Job.id).Nodup
  id_lt : ∀ j ∈ c.jobs, j.id < c.scheduled
  call_lt : ∀ j ∈ c.jobs, ∀ call, j.stage.call? = some call → call < c.calls
  call_inj : ∀ j ∈ c.jobs, ∀ k ∈ c.jobs, ∀ call,
    j.stage.call? = some call → k.stage.call? = some call → j.id = k.id

theorem Numbered.eq_of_id {c : Controller} (h : c.Numbered) {j k : Job} (hj : j ∈ c.jobs)
    (hk : k ∈ c.jobs) (hid : j.id = k.id) : j = k :=
  List.inj_on_of_nodup_map h.nodup hj hk hid

theorem mem_reach {c : Controller} {id : Nat} {stage : Stage} {j : Job} :
    j ∈ (c.reach id stage).jobs ↔
      (j ∈ c.jobs ∧ j.id ≠ id) ∨ ∃ k ∈ c.jobs, k.id = id ∧ j = { k with stage := stage } := by
  simp only [reach, List.mem_map]
  constructor
  · rintro ⟨k, hk, rfl⟩
    by_cases hid : k.id = id
    · exact .inr ⟨k, hk, hid, by simp [hid]⟩
    · exact .inl (by simp [hid, hk])
  · rintro (⟨hj, hid⟩ | ⟨k, hk, hid, rfl⟩)
    · exact ⟨j, hj, by simp [hid]⟩
    · exact ⟨k, hk, by simp [hid]⟩

/-- Where a job that is in flight after an action was before it. -/
inductive Descends (parser : Parser) (live : Snapshot) (c : Controller)
    (out : Controller × List Effect) : Job → Prop where
  | kept {job : Job} (hmem : job ∈ c.jobs) : Descends parser live c out job
  | scheduled (s : Snapshot) (hcount : out.1.scheduled = c.scheduled + 1) :
      Descends parser live c out ⟨c.scheduled, s, .waiting⟩
  | called {job : Job} (hmem : job ∈ c.jobs) (hcount : out.1.calls = c.calls + 1)
      (honly : ∀ k ∈ out.1.jobs, k.stage.call? = some c.calls → k.id = job.id) :
      Descends parser live c out { job with stage := .called c.calls }
  | resumed {job : Job} {call : Nat} {work : Work Answer} (hmem : job ∈ c.jobs)
      (hahead : job.Ahead parser call work) :
      Descends parser live c out { job with
        stage := .underway call (work.resume (c.requested live job.snapshot)) }

theorem Next.descends {parser : Parser} {live : Snapshot} {c : Controller}
    {turn : Option Nat} {out : Controller × List Effect} (h : c.Next parser live turn out) (hc : c.Numbered) {j : Job}
    (hj : j ∈ out.1.jobs) : c.Descends parser live out j := by
  cases h with
  | idle => exact .kept hj
  | schedule s =>
    rcases List.mem_append.1 hj with hj | hj
    · exact .kept hj
    · rw [List.mem_singleton.1 hj]
      exact .scheduled s rfl
  | @call job hmem hturn hstage =>
    rcases mem_reach.1 hj with ⟨hj, -⟩ | ⟨k, hk, hid, rfl⟩
    · exact .kept hj
    · rw [hc.eq_of_id hk hmem hid]
      refine .called hmem rfl fun k hk hcall => ?_
      rcases mem_reach.1 hk with ⟨hk, -⟩ | ⟨_, _, hid, rfl⟩
      · exact absurd (hc.call_lt k hk _ hcall) (Nat.lt_irrefl _)
      · exact hid
  | resume hmem hturn hahead =>
    rcases mem_reach.1 hj with ⟨hj, -⟩ | ⟨k, hk, hid, rfl⟩
    · exact .kept hj
    · rw [hc.eq_of_id hk hmem hid]
      exact .resumed hmem hahead
  | conclude hmem hturn hstage =>
    rw [conclude_jobs] at hj
    exact .kept (List.mem_filter.1 hj).1

/-- What becomes of a job that is in flight before an action. -/
inductive Fate (parser : Parser) (live : Snapshot) (c : Controller) (job : Job) :
    Controller × List Effect → Prop where
  | kept {out : Controller × List Effect} (hmem : job ∈ out.1.jobs) :
      Fate parser live c job out
  | called {out : Controller × List Effect} (hstage : job.stage = .waiting)
      (hmem : { job with stage := .called c.calls } ∈ out.1.jobs) :
      Fate parser live c job out
  | resumed {out : Controller × List Effect} {call : Nat} {work : Work Answer}
      (hahead : job.Ahead parser call work)
      (hmem : { job with
        stage := .underway call (work.resume (c.requested live job.snapshot)) } ∈ out.1.jobs) :
      Fate parser live c job out
  | concluded {call : Nat} {a : Answer} (hstage : job.stage = .underway call (.done a)) :
      Fate parser live c job (c.conclude live job a)

theorem Next.fate {parser : Parser} {live : Snapshot} {c : Controller}
    {turn : Option Nat} {out : Controller × List Effect} (h : c.Next parser live turn out) (hc : c.Numbered) {j : Job}
    (hj : j ∈ c.jobs) : c.Fate parser live j out := by
  cases h with
  | idle => exact .kept hj
  | schedule s => exact .kept (List.mem_append_left _ hj)
  | @call job hmem hturn hstage =>
    by_cases hid : j.id = job.id
    · rw [hc.eq_of_id hj hmem hid]
      exact .called hstage (mem_reach.2 (.inr ⟨job, hmem, rfl, rfl⟩))
    · exact .kept (mem_reach.2 (.inl ⟨hj, hid⟩))
  | @resume job call work hmem hturn hahead =>
    by_cases hid : j.id = job.id
    · rw [hc.eq_of_id hj hmem hid]
      exact .resumed hahead (mem_reach.2 (.inr ⟨job, hmem, rfl, rfl⟩))
    · exact .kept (mem_reach.2 (.inl ⟨hj, hid⟩))
  | @conclude job call a hmem hturn hstage =>
    by_cases hid : j.id = job.id
    · rw [hc.eq_of_id hj hmem hid]
      exact .concluded hstage
    · refine .kept ?_
      rw [conclude_jobs]
      exact List.mem_filter.2 ⟨hj, by simp [hid]⟩

theorem next_counters_le {parser : Parser} {live : Snapshot} {c : Controller}
    {turn : Option Nat} {out : Controller × List Effect} (h : c.Next parser live turn out) :
    c.scheduled ≤ out.1.scheduled ∧ c.calls ≤ out.1.calls := by
  cases h with
  | idle => exact ⟨Nat.le_refl _, Nat.le_refl _⟩
  | schedule s => exact ⟨Nat.le_succ _, Nat.le_refl _⟩
  | call => exact ⟨Nat.le_refl _, Nat.le_succ _⟩
  | resume => exact ⟨Nat.le_refl _, Nat.le_refl _⟩
  | @conclude job call a =>
    obtain ⟨hs, hc, -⟩ := conclude_counters c live job a
    exact ⟨Nat.le_of_eq hs.symm, Nat.le_of_eq hc.symm⟩

theorem reach_ids (c : Controller) (id : Nat) (stage : Stage) :
    (c.reach id stage).jobs.map Job.id = c.jobs.map Job.id := by
  simp only [reach, List.map_map]
  refine List.map_congr_left fun j _ => ?_
  simp only [Function.comp_apply]
  split <;> rfl

theorem next_ids_nodup {parser : Parser} {live : Snapshot} {c : Controller}
    {turn : Option Nat} {out : Controller × List Effect} (h : c.Next parser live turn out) (hc : c.Numbered) :
    (out.1.jobs.map Job.id).Nodup := by
  cases h with
  | idle => exact hc.nodup
  | schedule s =>
    simp only [schedule, List.map_append, List.map_cons, List.map_nil]
    rw [← List.concat_eq_append]
    refine hc.nodup.concat ?_
    intro hmem
    obtain ⟨j, hj, hid⟩ := List.mem_map.1 hmem
    have := hc.id_lt j hj
    omega
  | call =>
    simp only [call, reach_ids]
    exact hc.nodup
  | resume =>
    simp only [reach_ids]
    exact hc.nodup
  | conclude =>
    rw [conclude_jobs]
    exact hc.nodup.sublist (List.filter_sublist.map _)

/-- The call of a job, seen after an action, was made before it or is the call that the
action made. -/
theorem Descends.call_cases {parser : Parser} {live : Snapshot} {c : Controller}
    {out : Controller × List Effect} {j : Job} {call : Nat}
    (h : c.Descends parser live out j) (hcall : j.stage.call? = some call) :
    (∃ k ∈ c.jobs, k.id = j.id ∧ k.snapshot = j.snapshot ∧ k.stage.call? = some call) ∨
      (call = c.calls ∧ out.1.calls = c.calls + 1 ∧
        ∀ k ∈ out.1.jobs, k.stage.call? = some call → k.id = j.id) := by
  cases h with
  | kept hmem => exact .inl ⟨_, hmem, rfl, rfl, hcall⟩
  | scheduled s hcount => exact nomatch hcall
  | called hmem hcount honly =>
    cases hcall
    exact .inr ⟨rfl, hcount, honly⟩
  | resumed hmem hahead =>
    cases hcall
    exact .inl ⟨_, hmem, rfl, rfl, hahead.call⟩

theorem next_numbered {parser : Parser} {live : Snapshot} {c : Controller}
    {turn : Option Nat} {out : Controller × List Effect} (h : c.Next parser live turn out) (hc : c.Numbered) :
    out.1.Numbered := by
  obtain ⟨hscheduled, hcalls⟩ := next_counters_le h
  refine ⟨next_ids_nodup h hc, ?_, ?_, ?_⟩
  · intro j hj
    cases h.descends hc hj with
    | kept hmem => exact Nat.lt_of_lt_of_le (hc.id_lt _ hmem) hscheduled
    | scheduled s hcount =>
      rw [hcount]
      exact Nat.lt_succ_self _
    | called hmem =>
      have hid := hc.id_lt _ hmem
      exact Nat.lt_of_lt_of_le hid hscheduled
    | resumed hmem =>
      have hid := hc.id_lt _ hmem
      exact Nat.lt_of_lt_of_le hid hscheduled
  · intro j hj call hcall
    rcases (h.descends hc hj).call_cases hcall with ⟨k, hk, -, -, hold⟩ | ⟨rfl, hcount, -⟩
    · exact Nat.lt_of_lt_of_le (hc.call_lt k hk call hold) hcalls
    · omega
  · intro j hj k hk call hcallj hcallk
    rcases (h.descends hc hj).call_cases hcallj with ⟨j', hj', hidj, -, holdj⟩ | ⟨-, -, honly⟩
    · rcases (h.descends hc hk).call_cases hcallk with
        ⟨k', hk', hidk, -, holdk⟩ | ⟨-, -, honly⟩
      · rw [← hidj, ← hidk]
        exact hc.call_inj j' hj' k' hk' call holdj holdk
      · exact honly j hj hcallj
    · exact (honly k hk hcallk).symm

theorem next_genuine {parser : Parser} {live : Snapshot} {c : Controller}
    {turn : Option Nat} {out : Controller × List Effect} (h : c.Next parser live turn out) (hc : c.Numbered)
    (hgenuine : ∀ j ∈ c.jobs, j.Genuine parser) : ∀ j ∈ out.1.jobs, j.Genuine parser := by
  intro j hj
  cases h.descends hc hj with
  | kept hmem => exact hgenuine j hmem
  | scheduled s hcount =>
    intro call work hstage
    exact nomatch hstage
  | called hmem hcount honly =>
    intro call work hstage
    exact nomatch hstage
  | resumed hmem hahead =>
    intro call work hstage a ha
    cases hstage
    exact hahead.ends (hgenuine _ hmem) (Work.ends_of_resume ha)

end Controller

end LiveSheet
