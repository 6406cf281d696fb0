import LiveSheet.Proofs.Runs
import LiveSheet.Proofs.Watched

/-!
# Freshness

As long as a controller is open, somebody is on the way to the tree of the live
snapshot: a notice in the controller's stream, or a parse of that snapshot that nothing
has disturbed.  So when all notices are taken and no parse is in flight, the tree is
that of the live snapshot, unless its text is malformed.
-/

namespace LiveSheet

/-- A parser that has one result for each snapshot, and gives it unless it is
cancelled. -/
structure Parser.Steady (parser : Parser)
    (result : Snapshot → Except ParseError (List Item)) : Prop where
  ends : ∀ call s a, (parser call s).Ends a →
    a.result = .error (.cancelled s.version) ∨ a.result = result s
  undisturbed : ∀ call s, (parser call s).undisturbed.result = result s

namespace Grammar

def resultFor (s : Snapshot) : Except ParseError (List Item) := reported (parse s.text)

theorem resultFor_eq_ok_iff {s : Snapshot} {items : List Item} :
    resultFor s = .ok items ↔ parse s.text = .ok items := by
  unfold resultFor
  cases parse s.text with
  | ok fresh => simp
  | error e => simp

theorem parser_steady (interval : Nat) (clock : Nat → Timing) :
    Parser.Steady (parser interval clock) resultFor :=
  ⟨fun _ _ _ h => result_of_parser_ends h,
    fun call s => result_of_parser_undisturbed interval clock call s⟩

end Grammar

namespace Controller

/-- The tree is of the live snapshot or of an older one, and has the items of its
snapshot. -/
def Current (result : Snapshot → Except ParseError (List Item)) (live : Snapshot)
    (c : Controller) : Prop :=
  ∀ s items, c.tree = .parsed s items →
    result s = .ok items ∧ (s = live ∨ s.version < live.version)

/-- A parse of the live snapshot is in flight and has not been disturbed. -/
def Parsing (parser : Parser) (live : Snapshot) (c : Controller) : Prop :=
  ∃ job ∈ c.jobs, job.snapshot = live ∧ job.OnTrack parser

/-- The tree is that of the live snapshot, if that snapshot has a tree at all. -/
def Settled (result : Snapshot → Except ParseError (List Item)) (live : Snapshot)
    (c : Controller) : Prop :=
  ∀ items, result live = .ok items → c.tree = .parsed live items

section

variable {parser : Parser} {result : Snapshot → Except ParseError (List Item)}
  {live : Snapshot} {c : Controller} {turn : Option Nat} {out : Controller × List Effect}

/-- Only the result of the live snapshot can be taken over. -/
theorem Next.tree_eq (h : c.Next parser live turn out) (hsteady : parser.Steady result)
    (hgenuine : ∀ j ∈ c.jobs, j.Genuine parser) :
    out.1.tree = c.tree ∨
      ∃ items, result live = .ok items ∧ out.1.tree = .parsed live items := by
  rcases h.tree_cases with
    ⟨htree, -⟩ | ⟨job, call, items, timing, -, hmem, -, -, htree, -⟩
  · exact .inl htree
  · have hends := hgenuine _ hmem call _ rfl _ (.done _)
    rcases hsteady.ends call live _ hends with herror | hresult
    · exact nomatch herror
    · exact .inr ⟨items, hresult.symm, htree⟩

theorem Next.current (h : c.Next parser live turn out) (hsteady : parser.Steady result)
    (hgenuine : ∀ j ∈ c.jobs, j.Genuine parser) (hcurrent : c.Current result live) :
    out.1.Current result live := by
  intro s items hparsed
  rcases h.tree_eq hsteady hgenuine with htree | ⟨fresh, hresult, htree⟩
  · exact hcurrent s items (htree ▸ hparsed)
  · rw [htree, Tree.parsed.injEq] at hparsed
    obtain ⟨rfl, rfl⟩ := hparsed
    exact ⟨hresult, .inl rfl⟩

theorem Next.settled (h : c.Next parser live turn out) (hsteady : parser.Steady result)
    (hgenuine : ∀ j ∈ c.jobs, j.Genuine parser) (hsettled : c.Settled result live) :
    out.1.Settled result live := by
  intro items hitems
  rcases h.tree_eq hsteady hgenuine with htree | ⟨fresh, hresult, htree⟩
  · rw [htree]
    exact hsettled items hitems
  · rw [hitems, Except.ok.injEq] at hresult
    rw [htree, hresult]

/-- A parse of the live snapshot that was not disturbed settles the controller when it
is concluded.  If it is not applied, then the tree is that of the snapshot already,
because no other snapshot of this version or a later one was ever live. -/
theorem settled_of_conclude (hsteady : parser.Steady result)
    (hcurrent : c.Current result live) (hopen : c.closed = false) {job : Job} {call : Nat}
    {a : Answer} (hlive : job.snapshot = live) (htrack : job.OnTrack parser)
    (hstage : job.stage = .underway call (.done a)) :
    (c.conclude live job a).1.Settled result live := by
  intro items hitems
  have hundisturbed := htrack call _ hstage
  have hanswer : a.result = .ok items := by
    rw [← hitems, ← hlive, ← hsteady.undisturbed call job.snapshot, ← hundisturbed]
    rfl
  rcases conclude_tree c live job a with ⟨fresh, hfresh, -, htree, -⟩ | ⟨hno, htree, -⟩
  · rw [hanswer, Except.ok.injEq] at hfresh
    rw [htree, hfresh, hlive]
  · have hold : c.tree.version?.any (live.version ≤ ·) = true := by
      by_contra hnew
      refine hno job.snapshot.version (verdict_eq_applied_iff.2
        ⟨⟨items, hanswer⟩, hopen, hlive.symm, ?_, rfl⟩)
      rw [hlive]
      exact Bool.eq_false_iff.2 hnew
    rw [htree]
    cases hc : c.tree with
    | empty =>
      rw [hc] at hold
      exact nomatch hold
    | parsed s old =>
      rw [hc] at hold
      have hle : live.version ≤ s.version := of_decide_eq_true hold
      obtain ⟨hresult, rfl | hlt⟩ := hcurrent s old hc
      · rw [hitems, Except.ok.injEq] at hresult
        rw [hresult]
      · omega

theorem Next.parsing (h : c.Next parser live turn out) (hsteady : parser.Steady result)
    (hnumbered : c.Numbered) (hcurrent : c.Current result live)
    (hparsing : c.Parsing parser live) :
    out.1.closed = true ∨ out.1.Parsing parser live ∨ out.1.Settled result live := by
  cases hopen : c.closed with
  | true => exact .inl (h.closed hopen)
  | false =>
    obtain ⟨job, hmem, hlive, htrack⟩ := hparsing
    cases h.fate hnumbered hmem with
    | kept hmem => exact .inr (.inl ⟨job, hmem, hlive, htrack⟩)
    | called hstage hmem =>
      refine .inr (.inl ⟨_, hmem, hlive, ?_⟩)
      intro call work hunderway
      exact nomatch hunderway
    | resumed hahead hmem =>
      refine .inr (.inl ⟨_, hmem, hlive, ?_⟩)
      intro call work hunderway
      have hrequested : c.requested live job.snapshot = false := by
        simp [requested, cancellationRequested, hopen, hlive]
      cases hunderway
      rw [hrequested, Work.undisturbed_resume]
      exact hahead.undisturbed htrack
    | concluded hstage =>
      exact .inr (.inr (settled_of_conclude hsteady hcurrent hopen hlive htrack hstage))

end

end Controller

theorem Inbox.mem_waiting_push {α : Type} (capacity : Nat) (value : α) (b : Inbox α) :
    value ∈ (b.push capacity value).waiting := by
  unfold push
  split
  · exact List.mem_append_right _ (List.mem_singleton_self _)
  · exact List.mem_append_right _ (List.mem_singleton_self _)

namespace Session

/-- A notice that leads to a parse of the live snapshot is in the stream of the
controller: that of the snapshot itself, or word that notices were lost. -/
def Noticed (s : Session) : Prop :=
  ∃ inbox, s.buffer.streams[s.controller.stream]? = some inbox ∧
    (0 < inbox.missed ∨ s.buffer.live ∈ inbox.waiting)

/-- No parse is in flight, and there is nothing to take from the stream. -/
def AtRest (s : Session) : Prop :=
  s.controller.jobs = [] ∧ s.buffer.take? s.controller.stream = none

/-- Somebody is on the way to the tree of the live snapshot, or that tree is there. -/
structure Fresh (parser : Parser) (result : Snapshot → Except ParseError (List Item))
    (s : Session) : Prop where
  sound : s.Sound parser
  current : s.controller.Current result s.buffer.live
  subscribed : ∃ inbox, s.buffer.streams[s.controller.stream]? = some inbox
  awaited : s.controller.closed = true ∨ s.Noticed ∨
    s.controller.Parsing parser s.buffer.live ∨ s.controller.Settled result s.buffer.live

section

variable {parser : Parser} {result : Snapshot → Except ParseError (List Item)} {s : Session}

theorem attach_fresh (parser : Parser) (result : Snapshot → Except ParseError (List Item))
    (b : Buffer) (options : ControllerOptions) :
    (attach b options).1.Fresh parser result := by
  refine ⟨attach_sound parser b options, ?_, ⟨.empty, ?_⟩, .inr (.inr (.inl ?_))⟩
  · intro s items hparsed
    exact nomatch hparsed
  · show (b.streams ++ [Inbox.empty])[b.streams.length]? = some .empty
    rw [List.getElem?_concat_length]
  · refine ⟨⟨0, b.live, .waiting⟩, List.mem_singleton_self _, rfl, ?_⟩
    intro call work hstage
    exact nomatch hstage

theorem act_buffer (parser : Parser) (s : Session) {a : Action} (hedit : ∀ f, a ≠ .edit f)
    (hlisten : a ≠ .listen) : (s.act parser a).1.buffer = s.buffer := by
  cases a with
  | edit f => exact absurd rfl (hedit f)
  | listen => exact absurd rfl hlisten
  | advance job =>
    simp only [act, advance]
    split <;> rfl
  | _ => rfl

theorem edit_fresh (h : s.Fresh parser result) (f : Text → Text) :
    (s.act parser (.edit f)).1.Fresh parser result := by
  obtain ⟨inbox, hinbox⟩ := h.subscribed
  have hstream : (s.buffer.edit f).streams[s.controller.stream]? =
      some (inbox.push Buffer.capacity (s.buffer.edit f).live) := by
    show (s.buffer.streams.map _)[_]? = _
    rw [List.getElem?_map, hinbox]
    rfl
  refine ⟨act_sound h.sound _, ?_, ⟨_, hstream⟩,
    .inr (.inl ⟨_, hstream, .inr (Inbox.mem_waiting_push _ _ _)⟩)⟩
  intro t items hparsed
  obtain ⟨hresult, hage⟩ := h.current t items hparsed
  refine ⟨hresult, .inr ?_⟩
  show t.version < s.buffer.live.version + 1
  rcases hage with rfl | hlt
  · exact Nat.lt_succ_self _
  · exact Nat.lt_succ_of_lt hlt

/-- Taking a notice either leaves one that matters in the stream, or schedules a parse
of the live snapshot. -/
theorem hear_awaited {inbox rest : Inbox Snapshot} {notice : Notice Snapshot}
    (htake : inbox.take? = some (notice, rest)) {live : Snapshot} {c : Controller}
    (hopen : c.closed = false) (h : 0 < inbox.missed ∨ live ∈ inbox.waiting) :
    live ∈ rest.waiting ∨ (c.hear live notice).1 = (c.schedule live).1 := by
  have hself : (c.notify live live).1 = (c.schedule live).1 := by
    simp [Controller.notify, hopen]
  unfold Inbox.take? at htake
  split at htake
  · -- word of lost notices leads to a parse of whatever is live
    cases htake
    exact .inr hself
  · rename_i hnone
    split at htake
    · exact nomatch htake
    · rename_i value waiting hwaiting
      cases htake
      rcases h with hmissed | hmem
      · exact absurd hmissed hnone
      · rw [hwaiting] at hmem
        rcases List.mem_cons.1 hmem with rfl | hmem
        · exact .inr hself
        · exact .inl hmem

theorem schedule_parsing (parser : Parser) (live : Snapshot) (c : Controller) :
    (c.schedule live).1.Parsing parser live := by
  refine ⟨⟨c.scheduled, live, .waiting⟩, List.mem_append_right _ (List.mem_singleton_self _),
    rfl, ?_⟩
  intro call work hstage
  exact nomatch hstage

theorem listen_cases (parser : Parser) (s : Session) :
    (s.act parser .listen).1 = s ∨
    ∃ inbox notice rest, s.controller.closed = false ∧
      s.buffer.streams[s.controller.stream]? = some inbox ∧
      inbox.take? = some (notice, rest) ∧
      (s.act parser .listen).1 =
        ⟨{ s.buffer with streams := s.buffer.streams.set s.controller.stream rest },
          (s.controller.hear s.buffer.live notice).1⟩ := by
  simp only [act, listen]
  split
  · exact .inl rfl
  · rename_i hopen
    split
    · exact .inl rfl
    · rename_i htake
      obtain ⟨inbox, rest, hinbox, hnotice, rfl⟩ := Buffer.take?_eq_some htake
      exact .inr ⟨inbox, _, rest, Bool.eq_false_iff.2 hopen, hinbox, hnotice, rfl⟩

/-- What is awaited, apart from notices, stays awaited or is settled. -/
theorem Fresh.next_awaited (h : s.Fresh parser result) (hsteady : parser.Steady result)
    {turn : Option Nat} {out : Controller × List Effect}
    (hnext : s.controller.Next parser s.buffer.live turn out)
    (hawaited : s.controller.closed = true ∨ s.controller.Parsing parser s.buffer.live ∨
      s.controller.Settled result s.buffer.live) :
    out.1.closed = true ∨ out.1.Parsing parser s.buffer.live ∨
      out.1.Settled result s.buffer.live := by
  rcases hawaited with hclosed | hparsing | hsettled
  · exact .inl (hnext.closed hclosed)
  · exact hnext.parsing hsteady h.sound.numbered h.current hparsing
  · exact .inr (.inr (hnext.settled hsteady h.sound.genuine hsettled))

theorem listen_fresh (h : s.Fresh parser result) (hsteady : parser.Steady result) :
    (s.act parser .listen).1.Fresh parser result := by
  rcases listen_cases parser s with
    hsame | ⟨inbox, notice, rest, hopen, hinbox, htake, hafter⟩
  · rw [hsame]
    exact h
  · have hsound := act_sound h.sound .listen
    have hnext := Controller.next_hear parser s.buffer.live notice s.controller
    have hstream : (s.buffer.streams.set s.controller.stream rest)[
        (s.controller.hear s.buffer.live notice).1.stream]? = some rest := by
      obtain ⟨hlt, -⟩ := List.getElem?_eq_some_iff.1 hinbox
      rw [hnext.stream, List.getElem?_set_self hlt]
    rw [hafter] at hsound ⊢
    refine ⟨hsound, hnext.current hsteady h.sound.genuine h.current, ⟨rest, hstream⟩, ?_⟩
    rcases h.awaited with hclosed | ⟨inbox', hinbox', hmatters⟩ | hawaited
    · exact .inl (hnext.closed hclosed)
    · rw [hinbox, Option.some.injEq] at hinbox'
      rcases hear_awaited htake hopen (hinbox' ▸ hmatters) with hmem | hscheduled
      · exact .inr (.inl ⟨rest, hstream, .inr hmem⟩)
      · refine .inr (.inr (.inl ?_))
        show (s.controller.hear s.buffer.live notice).1.Parsing parser s.buffer.live
        rw [hscheduled]
        exact schedule_parsing parser s.buffer.live s.controller
    · rcases h.next_awaited hsteady hnext (.inr hawaited) with hclosed | hawaited
      · exact .inl hclosed
      · exact .inr (.inr hawaited)

/-- Every action keeps a session fresh.  Edits and listening are the ones that reach the
stream; all others can only move the parses on. -/
theorem act_fresh (h : s.Fresh parser result) (hsteady : parser.Steady result) (a : Action) :
    (s.act parser a).1.Fresh parser result := by
  by_cases hedit : ∃ f, a = .edit f
  · obtain ⟨f, rfl⟩ := hedit
    exact edit_fresh h f
  by_cases hlisten : a = .listen
  · rw [hlisten]
    exact listen_fresh h hsteady
  have hbuffer := act_buffer parser s (fun f hf => hedit ⟨f, hf⟩) hlisten
  have hnext := act_next parser s a
  refine ⟨act_sound h.sound a, ?_, ?_, ?_⟩
  · rw [hbuffer]
    exact hnext.current hsteady h.sound.genuine h.current
  · rw [hbuffer, hnext.stream]
    exact h.subscribed
  · rcases h.awaited with hclosed | ⟨inbox, hinbox, hmatters⟩ | hawaited
    · exact .inl (hnext.closed hclosed)
    · refine .inr (.inl ⟨inbox, ?_, ?_⟩)
      · rw [hbuffer, hnext.stream]
        exact hinbox
      · rw [hbuffer]
        exact hmatters
    · rw [hbuffer]
      rcases h.next_awaited hsteady hnext (.inr hawaited) with hclosed | hawaited
      · exact .inl hclosed
      · exact .inr (.inr hawaited)

/-- At rest nobody is on the way any more, so the tree is there. -/
theorem Fresh.settled_at_rest (h : s.Fresh parser result)
    (hopen : s.controller.closed = false) (hrest : s.AtRest) :
    s.controller.Settled result s.buffer.live := by
  rcases h.awaited with hclosed | ⟨inbox, hinbox, hmatters⟩ | ⟨job, hmem, -⟩ | hsettled
  · rw [hopen] at hclosed
    exact nomatch hclosed
  · -- an empty stream holds neither the live snapshot nor word of lost notices
    have hnone := hrest.2
    simp only [Buffer.take?, hinbox, Option.bind_eq_bind, Option.bind_some,
      Option.bind_eq_none_iff, Option.pure_def, reduceCtorEq] at hnone
    cases htake : inbox.take? with
    | some taken => exact absurd htake (by simpa using hnone taken)
    | none =>
      have hempty := (Inbox.take?_eq_none_iff inbox).1 htake
      simp only [Inbox.contents, List.append_eq_nil_iff, List.map_eq_nil_iff] at hempty
      rcases hmatters with hmissed | hmem
      · exact absurd hempty.1 (by simp [hmissed])
      · rw [hempty.2] at hmem
        exact absurd hmem List.not_mem_nil
  · rw [hrest.1] at hmem
    exact absurd hmem List.not_mem_nil
  · exact hsettled

theorem after_live (parser : Parser) (b : Buffer) (options : ControllerOptions)
    (before later : List Action) (hedit : ∀ f, Action.edit f ∉ later) :
    (after parser b options (before ++ later)).buffer.live =
      (after parser b options before).buffer.live := by
  induction later using List.reverseRecOn with
  | nil => rw [List.append_nil]
  | append_singleton rest a ih =>
    rw [← List.append_assoc, after_concat, act_live]
    cases a with
    | edit f => exact absurd (List.mem_append_right _ (List.mem_singleton_self _)) (hedit f)
    | _ => exact ih fun f hf => hedit f (List.mem_append_left _ hf)

/-- While the live snapshot has no tree to give, the tree stays the same. -/
theorem after_tree_of_error (hsteady : parser.Steady result) (b : Buffer)
    (options : ControllerOptions) (before later : List Action)
    (hedit : ∀ f, Action.edit f ∉ later)
    (herror : ∀ items,
      result (after parser b options (before ++ later)).buffer.live ≠ .ok items) :
    (after parser b options (before ++ later)).controller.tree =
      (after parser b options before).controller.tree := by
  induction later using List.reverseRecOn with
  | nil => rw [List.append_nil]
  | append_singleton rest a ih =>
    have hrest : ∀ f, Action.edit f ∉ rest := fun f hf => hedit f (List.mem_append_left _ hf)
    have hgenuine := (after_sound parser b options (before ++ rest)).genuine
    rw [after_live parser b options before (rest ++ [a]) hedit,
      ← after_live parser b options before rest hrest] at herror
    rw [← List.append_assoc, after_concat, ← ih hrest herror]
    rcases (act_next parser _ a).tree_eq hsteady hgenuine with htree | ⟨items, hresult, -⟩
    · exact htree
    · exact absurd hresult (herror items)

end

/-- Freshness.  When an open controller has taken all notices and no parse is in flight,
then its tree is that of the live snapshot, with the items of its text.  If that text is
malformed, it is the tree that was there when the live snapshot became live: the one
before the last edit, or the empty tree if there was no edit. -/
theorem tree_at_rest (interval : Nat) (clock : Nat → Timing) (b : Buffer)
    (options : ControllerOptions) (actions : List Action)
    (hopen : (after (Grammar.parser interval clock) b options actions).controller.closed = false)
    (hrest : (after (Grammar.parser interval clock) b options actions).AtRest) :
    let parser := Grammar.parser interval clock
    let s := after parser b options actions
    match Grammar.parse s.buffer.live.text with
    | .ok items => s.controller.tree = .parsed s.buffer.live items
    | .error _ =>
      (∀ before f later, actions = before ++ .edit f :: later → (∀ g, .edit g ∉ later) →
        s.controller.tree = (after parser b options before).controller.tree) ∧
      ((∀ g, .edit g ∉ actions) → s.controller.tree = .empty) := by
  intro parser s
  have hsteady : parser.Steady Grammar.resultFor := Grammar.parser_steady interval clock
  cases hparse : Grammar.parse s.buffer.live.text with
  | ok items =>
    have hfresh : s.Fresh parser Grammar.resultFor :=
      after_invariant (attach_fresh parser _ b options) (fun _ a h => act_fresh h hsteady a)
        actions
    exact hfresh.settled_at_rest hopen hrest items (Grammar.resultFor_eq_ok_iff.2 hparse)
  | error e =>
    have herror : ∀ items, Grammar.resultFor s.buffer.live ≠ .ok items := by
      intro items hitems
      rw [Grammar.resultFor_eq_ok_iff, hparse] at hitems
      exact nomatch hitems
    refine ⟨?_, ?_⟩
    · intro before f later hactions hedit
      have hsplit : actions = (before ++ [.edit f]) ++ later := by
        rw [hactions, List.append_assoc, List.singleton_append]
      subst hsplit
      show (after parser b options (before ++ [.edit f] ++ later)).controller.tree = _
      rw [after_tree_of_error hsteady b options _ later hedit herror, after_concat]
      rfl
    · intro hedit
      show (after parser b options ([] ++ actions)).controller.tree = _
      rw [after_tree_of_error hsteady b options [] actions hedit herror]
      rfl

/-- The edits overflow the stream while the first text is parsed, the last of them is
heard of twice, and of its two parses the later one is over first. -/
def flood : List Action :=
  .advance 0 :: List.replicate 66 (.edit fun _ => ['a', '\x7b', '\x7d']) ++
    .schedule ⟨66, .outside 0, ['\x7d']⟩ :: List.replicate 65 .listen ++
    [3, 2, 3, 1, 3, 0, 3, 1, 2, 0, 2, 1, 2].map .advance

def afterFlood : Session :=
  after (Grammar.parser 1 fun _ => .zero) (.create 0 0 none ['\x7d']) ⟨"", false, false⟩ flood

set_option maxRecDepth 20000 in
theorem tree_at_rest_after_flood :
    afterFlood.controller.closed = false ∧ afterFlood.AtRest ∧
      ∃ items, Grammar.parse ['a', '\x7b', '\x7d'] = .ok items ∧
        afterFlood.controller.tree = .parsed ⟨66, .buffer 0, ['a', '\x7b', '\x7d']⟩ items := by
  have hopen : afterFlood.controller.closed = false := by decide +kernel
  have hrest : afterFlood.AtRest :=
    ⟨List.isEmpty_iff.1 (by decide +kernel), Option.isNone_iff_eq_none.1 (by decide +kernel)⟩
  have hlive : afterFlood.buffer.live = ⟨66, .buffer 0, ['a', '\x7b', '\x7d']⟩ := by
    decide +kernel
  have hok : (Grammar.parse ['a', '\x7b', '\x7d']).isOk = true := by decide +kernel
  have htree := tree_at_rest 1 (fun _ => .zero) (.create 0 0 none ['\x7d']) ⟨"", false, false⟩
    flood hopen hrest
  refine ⟨hopen, hrest, ?_⟩
  change match Grammar.parse afterFlood.buffer.live.text with
    | .ok items => afterFlood.controller.tree = .parsed afterFlood.buffer.live items
    | .error _ => _ at htree
  rw [hlive] at htree
  generalize Grammar.parse _ = result at hok htree ⊢
  cases result with
  | error e => exact nomatch hok
  | ok items => exact ⟨items, rfl, htree⟩

end Session
end LiveSheet
