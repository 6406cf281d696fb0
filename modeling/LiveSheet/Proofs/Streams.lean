import LiveSheet.Buffer

/-!
# Streams

Every edit of a buffer sends out one snapshot, and each stream tells of all that were sent out
since it was subscribed, in their order.  An inbox is described by what its owner has not taken
yet: of that the latest wait, as many as there is room for, and the number of the others is kept.
-/

namespace LiveSheet

/-- The notices tell of the values in their order.  Each value is received, or it is one of
several in a row for which a single notice gives their number. -/
inductive Tells {α : Type} : List α → List (Notice α) → Prop
  | nil : Tells [] []
  | received {value : α} {values : List α} {notices : List (Notice α)} :
      Tells values notices → Tells (value :: values) (.received value :: notices)
  | missed {lost values : List α} {notices : List (Notice α)} :
      lost ≠ [] → Tells values notices →
      Tells (lost ++ values) (.missed lost.length :: notices)

namespace Tells

variable {α : Type} {values values' : List α} {notices notices' : List (Notice α)}

theorem append (h : Tells values notices) (h' : Tells values' notices') :
    Tells (values ++ values') (notices ++ notices') := by
  induction h with
  | nil => exact h'
  | received _ ih => exact ih.received
  | missed hlost _ ih =>
    rw [List.append_assoc]
    exact ih.missed hlost

theorem map_received (values : List α) : Tells values (values.map .received) := by
  induction values with
  | nil => exact nil
  | cons value values ih => exact ih.received

end Tells

namespace Inbox

variable {α : Type} {capacity : Nat}

/-- The inbox of somebody who has not taken the values of `unread` yet. -/
def holding (capacity : Nat) (unread : List α) : Inbox α :=
  ⟨unread.length - capacity, unread.drop (unread.length - capacity)⟩

theorem holding_of_le {unread : List α} (h : unread.length ≤ capacity) :
    holding capacity unread = ⟨0, unread⟩ := by
  have hnone : unread.length - capacity = 0 := by omega
  rw [holding, hnone, List.drop_zero]

theorem push_holding (hcapacity : 0 < capacity) (unread : List α) (value : α) :
    (holding capacity unread).push capacity value = holding capacity (unread ++ [value]) := by
  have hwaiting : (holding capacity unread).waiting.length =
      unread.length - (unread.length - capacity) := List.length_drop
  by_cases hroom : unread.length < capacity
  · have hle : (unread ++ [value]).length ≤ capacity := by
      simp only [List.length_append, List.length_singleton]
      omega
    rw [holding_of_le hle, holding_of_le (by omega), push]
    exact if_pos hroom
  · have hfull : ¬(holding capacity unread).waiting.length < capacity := by omega
    have hlost : (unread ++ [value]).length - capacity = unread.length - capacity + 1 := by
      simp only [List.length_append, List.length_singleton]
      omega
    rw [push, if_neg hfull]
    show Inbox.mk (unread.length - capacity + 1) _ = Inbox.mk _ _
    rw [hlost, List.drop_append_of_le_length (by omega)]
    congr 2
    show (unread.drop _).tail = _
    rw [List.tail_drop]

/-- Nothing is lost as long as there is room for all, and otherwise only what there is no room
for. -/
theorem contents_holding_eq (capacity : Nat) (unread : List α) :
    (holding capacity unread).contents =
      if unread.length ≤ capacity then unread.map .received
      else .missed (unread.length - capacity) ::
        (unread.drop (unread.length - capacity)).map .received := by
  by_cases hle : unread.length ≤ capacity
  · rw [if_pos hle, holding_of_le hle]
    rfl
  · rw [if_neg hle, contents]
    have hlost : 0 < (holding capacity unread).missed := by
      show 0 < unread.length - capacity
      omega
    rw [if_pos hlost]
    rfl

example : (holding 2 [1, 2, 3]).contents = [.missed 1, .received 2, .received 3] := rfl

/-- What was not taken yet ends with what came last. -/
theorem getLast?_contents_holding (hcapacity : 0 < capacity) (unread : List α) :
    (holding capacity unread).contents.getLast? = unread.getLast?.map .received := by
  rw [contents_holding_eq]
  by_cases hle : unread.length ≤ capacity
  · rw [if_pos hle, List.getLast?_map]
  · have hne : (unread.drop (unread.length - capacity)).getLast? = unread.getLast? := by
      rw [List.getLast?_drop, if_neg (by omega)]
    have hunread : unread ≠ [] := by
      apply List.ne_nil_of_length_pos
      omega
    rw [if_neg hle, List.getLast?_cons, List.getLast?_map, hne,
      List.getLast?_eq_some_getLast hunread]
    rfl

/-- All that an inbox holds tells of all that was not taken yet. -/
theorem contents_holding (capacity : Nat) (unread : List α) :
    Tells unread (holding capacity unread).contents := by
  rw [contents_holding_eq]
  by_cases hle : unread.length ≤ capacity
  · rw [if_pos hle]
    exact Tells.map_received unread
  · have hlength : (unread.take (unread.length - capacity)).length = unread.length - capacity := by
      rw [List.length_take]
      omega
    have hne : unread.take (unread.length - capacity) ≠ [] := by
      apply List.ne_nil_of_length_pos
      omega
    have htells := (Tells.map_received (unread.drop (unread.length - capacity))).missed hne
    rw [List.take_append_drop, hlength] at htells
    rw [if_neg hle]
    exact htells

/-- What is taken tells of some values that were not taken yet, and the inbox holds the others. -/
theorem take?_holding {unread : List α} {notice : Notice α} {next : Inbox α}
    (h : (holding capacity unread).take? = some (notice, next)) :
    ∃ told rest, unread = told ++ rest ∧ Tells told [notice] ∧ next = holding capacity rest := by
  by_cases hlost : 0 < unread.length - capacity
  · have hlength : (unread.take (unread.length - capacity)).length = unread.length - capacity := by
      rw [List.length_take]
      omega
    have hne : unread.take (unread.length - capacity) ≠ [] := by
      apply List.ne_nil_of_length_pos
      omega
    have hrest : (unread.drop (unread.length - capacity)).length ≤ capacity := by
      rw [List.length_drop]
      omega
    rw [take?, if_pos (show 0 < (holding capacity unread).missed from hlost)] at h
    cases h
    refine ⟨_, _, (List.take_append_drop (unread.length - capacity) unread).symm, ?_,
      (holding_of_le hrest).symm⟩
    have htells := (Tells.nil (α := α)).missed hne
    rw [List.append_nil, hlength] at htells
    exact htells
  · have hle : unread.length ≤ capacity := by omega
    rw [holding_of_le hle, take?, if_neg (Nat.lt_irrefl 0)] at h
    cases unread with
    | nil => exact nomatch h
    | cons value rest =>
      cases h
      refine ⟨[value], rest, rfl, Tells.nil.received, (holding_of_le ?_).symm⟩
      rw [List.length_cons] at hle
      omega

end Inbox

namespace Buffer

/-- What an action makes of the text.  The ends of an edit are cut off at the end of the text,
and an end before the start counts as the start. -/
def Action.change? : Action → Option (Text → Text)
  | replace text => some fun _ => text
  | applyEdit e => some fun t =>
    let start := min e.start t.length
    let stop := max start (min e.stop t.length)
    t.take start ++ e.insertion ++ t.drop stop
  | update f => some f
  | subscribe => none
  | take _ => none
  | drain _ => none

/-- The snapshots that were sent out. -/
def published (events : List Event) : List Snapshot :=
  events.filterMap fun
    | .published s => some s
    | .taken _ _ => none

/-- What came out of one stream. -/
def takenFrom (stream : Nat) (events : List Event) : List (Notice Snapshot) :=
  events.flatMap fun
    | .published _ => []
    | .taken i notices => if i = stream then notices else []

variable {b next : Buffer} {a : Action} {f : Text → Text} {stream : Nat} {unread : List Snapshot}

theorem published_append (events later : List Event) :
    published (events ++ later) = published events ++ published later := List.filterMap_append

theorem takenFrom_append (stream : Nat) (events later : List Event) :
    takenFrom stream (events ++ later) = takenFrom stream events ++ takenFrom stream later :=
  List.flatMap_append

theorem takenFrom_self (stream : Nat) (notices : List (Notice Snapshot)) :
    takenFrom stream [.taken stream notices] = notices := by
  rw [takenFrom, List.flatMap_singleton]
  exact if_pos rfl

theorem takenFrom_ne {i : Nat} (h : i ≠ stream) (notices : List (Notice Snapshot)) :
    takenFrom stream [.taken i notices] = [] := by
  rw [takenFrom, List.flatMap_singleton]
  exact if_neg h

/-! ## Edits -/

theorem apply_eq_clamped (e : TextEdit) (t : Text) :
    e.apply t = t.take (min e.start t.length) ++ e.insertion ++
      t.drop (max (min e.start t.length) (min e.stop t.length)) := by
  have hdrop : t.drop (max e.start e.stop) =
      t.drop (max (min e.start t.length) (min e.stop t.length)) := by
    by_cases hin : max e.start e.stop ≤ t.length
    · rw [Nat.min_eq_left (by omega), Nat.min_eq_left (by omega)]
    · rw [List.drop_eq_nil_of_le (by omega), List.drop_eq_nil_of_le (by omega)]
  rw [TextEdit.apply, Text.splice, List.take_eq_take_min, hdrop]

theorem edit_of_change? (h : a.change? = some f) :
    b.act a = (b.edit f, [.published (b.edit f).live]) := by
  cases a with
  | replace text =>
    cases h
    rfl
  | applyEdit e =>
    cases h
    rw [← funext (apply_eq_clamped e)]
    rfl
  | update g =>
    cases h
    rfl
  | subscribe => cases h
  | take => cases h
  | drain => cases h

/-- A stream gives out what comes first, if anything waits there. -/
theorem act_take_cases (b : Buffer) (stream : Nat) :
    (∃ inbox notice left, b.streams[stream]? = some inbox ∧ inbox.take? = some (notice, left) ∧
      b.act (.take stream) =
        ({ b with streams := b.streams.set stream left }, [.taken stream [notice]])) ∨
      b.act (.take stream) = (b, []) := by
  cases htake : b.take? stream with
  | none =>
    right
    simp only [act, htake]
  | some taken =>
    obtain ⟨notice, next⟩ := taken
    obtain ⟨inbox, left, hinbox, hnotice, rfl⟩ := take?_eq_some htake
    refine .inl ⟨inbox, notice, left, hinbox, hnotice, ?_⟩
    simp only [act, htake]

theorem drain_of_some {inbox : Inbox Snapshot} (h : b.streams[stream]? = some inbox) :
    b.drain stream = (inbox.contents, { b with streams := b.streams.set stream .empty }) := by
  rw [drain, h]

theorem drain_of_none (h : b.streams[stream]? = none) : b.drain stream = ([], b) := by
  rw [drain, h]

theorem act_of_no_change (h : a.change? = none) :
    (b.act a).1.live = b.live ∧ (b.act a).1.id = b.id ∧ published (b.act a).2 = [] := by
  cases a with
  | replace => cases h
  | applyEdit => cases h
  | update => cases h
  | subscribe => exact ⟨rfl, rfl, rfl⟩
  | take stream =>
    rcases act_take_cases b stream with ⟨_, _, _, -, -, hact⟩ | hact
    · rw [hact]
      exact ⟨rfl, rfl, rfl⟩
    · rw [hact]
      exact ⟨rfl, rfl, rfl⟩
  | drain stream =>
    cases hstream : b.streams[stream]? with
    | some inbox =>
      rw [act, drain_of_some hstream]
      exact ⟨rfl, rfl, rfl⟩
    | none =>
      rw [act, drain_of_none hstream]
      exact ⟨rfl, rfl, rfl⟩

/-- An action makes one new snapshot and sends it out, or none. -/
theorem act_cases (b : Buffer) (a : Action) :
    (∃ f, b.act a = (b.edit f, [.published (b.edit f).live])) ∨
      (b.act a).1.live = b.live ∧ (b.act a).1.id = b.id ∧ published (b.act a).2 = [] := by
  cases hchange : a.change? with
  | none => exact .inr (act_of_no_change hchange)
  | some f => exact .inl ⟨f, edit_of_change? hchange⟩

/-! ## Versions -/

theorem run_cons (b : Buffer) (a : Action) (rest : List Action) :
    b.run (a :: rest) =
      (((b.act a).1.run rest).1, (b.act a).2 ++ ((b.act a).1.run rest).2) := rfl

/-- The snapshots that are sent out have consecutive versions, and the last of them is live. -/
theorem run_published (b : Buffer) (actions : List Action) :
    let out := b.run actions
    (published out.2).map Snapshot.version =
        List.range' (b.live.version + 1) (published out.2).length ∧
      out.1.live = (published out.2).getLast?.getD b.live := by
  induction actions generalizing b with
  | nil => exact ⟨rfl, rfl⟩
  | cons a rest ih =>
    obtain ⟨hversions, hlive⟩ := ih (b.act a).1
    simp only [run_cons, published_append]
    rcases act_cases b a with ⟨f, hact⟩ | ⟨hsame, -, hnone⟩
    · rw [hact] at hversions hlive ⊢
      simp only [published, List.filterMap_cons, List.filterMap_nil, List.singleton_append,
        List.map_cons, List.length_cons, List.range'_succ] at hversions hlive ⊢
      refine ⟨?_, ?_⟩
      · rw [hversions]
        rfl
      · rw [hlive, List.getLast?_cons]
        rfl
    · rw [hsame] at hversions hlive
      rw [hnone, List.nil_append]
      exact ⟨hversions, hlive⟩

/-! ## Streams -/

/-- The owner of a stream has not taken these snapshots yet. -/
def Leaves (b : Buffer) (stream : Nat) (unread : List Snapshot) : Prop :=
  b.streams[stream]? = some (.holding capacity unread)

theorem leaves_subscribe (b : Buffer) : b.subscribe.2.Leaves b.subscribe.1 [] :=
  List.getElem?_concat_length

theorem Leaves.drain_eq (h : b.Leaves stream unread) :
    (b.drain stream).1 = (Inbox.holding capacity unread).contents := by
  rw [drain_of_some h]

/-- What another stream does with its inbox does not matter. -/
theorem Leaves.set_ne (h : b.Leaves stream unread) {i : Nat} (hne : i ≠ stream)
    (inbox : Inbox Snapshot) : { b with streams := b.streams.set i inbox }.Leaves stream unread :=
  (List.getElem?_set_ne hne).trans h

theorem Leaves.set_self (h : b.Leaves stream unread) (rest : List Snapshot) :
    { b with streams := b.streams.set stream (.holding capacity rest) }.Leaves stream rest :=
  List.getElem?_set_self (List.getElem?_eq_some_iff.1 h).1

/-- In every action a stream tells of some of the snapshots that it had left and of those that
are sent out, and it leaves the others. -/
theorem Leaves.act (h : b.Leaves stream unread) (a : Action) :
    ∃ told rest, unread ++ published (b.act a).2 = told ++ rest ∧
      Tells told (takenFrom stream (b.act a).2) ∧ (b.act a).1.Leaves stream rest := by
  have hstream : b.streams[stream]? = some (.holding capacity unread) := h
  cases hchange : a.change? with
  | some f =>
    refine ⟨[], _, rfl, ?_, ?_⟩
    · rw [edit_of_change? hchange]
      exact .nil
    · rw [edit_of_change? hchange]
      show (b.streams.map _)[stream]? = _
      rw [List.getElem?_map, hstream, Option.map_some, Inbox.push_holding (by decide)]
      rfl
  | none =>
    rw [(act_of_no_change hchange).2.2, List.append_nil]
    cases a with
    | replace => cases hchange
    | applyEdit => cases hchange
    | update => cases hchange
    | subscribe =>
      refine ⟨[], unread, rfl, .nil, ?_⟩
      have hlt := (List.getElem?_eq_some_iff.1 hstream).1
      exact (List.getElem?_append_left hlt).trans h
    | take i =>
      rcases act_take_cases b i with ⟨inbox, notice, left, hinbox, hnotice, hact⟩ | hact
      · rw [hact]
        by_cases hi : i = stream
        · subst hi
          cases hinbox.symm.trans hstream
          obtain ⟨told, rest, hunread, htells, rfl⟩ := Inbox.take?_holding hnotice
          refine ⟨told, rest, hunread, ?_, h.set_self rest⟩
          rw [takenFrom_self]
          exact htells
        · refine ⟨[], unread, rfl, ?_, h.set_ne hi left⟩
          rw [takenFrom_ne hi]
          exact .nil
      · rw [hact]
        exact ⟨[], unread, rfl, .nil, h⟩
    | drain i =>
      rw [Buffer.act]
      by_cases hi : i = stream
      · subst hi
        rw [drain_of_some hstream]
        refine ⟨unread, [], (List.append_nil _).symm, ?_, h.set_self []⟩
        rw [takenFrom_self]
        exact Inbox.contents_holding capacity unread
      · refine ⟨[], unread, rfl, ?_, ?_⟩
        · rw [takenFrom_ne hi]
          exact .nil
        · cases hother : b.streams[i]? with
          | some inbox =>
            rw [drain_of_some hother]
            exact h.set_ne hi _
          | none =>
            rw [drain_of_none hother]
            exact h

/-- Over a whole run a stream tells of what it had left and of all that is sent out. -/
theorem Leaves.run (h : b.Leaves stream unread) (actions : List Action) :
    ∃ told rest, unread ++ published (b.run actions).2 = told ++ rest ∧
      Tells told (takenFrom stream (b.run actions).2) ∧ (b.run actions).1.Leaves stream rest := by
  induction actions generalizing b unread with
  | nil => exact ⟨[], unread, List.append_nil _, .nil, h⟩
  | cons a later ih =>
    obtain ⟨told, rest, hsplit, htells, hleaves⟩ := h.act a
    obtain ⟨told', rest', hsplit', htells', hleaves'⟩ := ih hleaves
    refine ⟨told ++ told', rest', ?_, ?_, hleaves'⟩
    · rw [run_cons, published_append, ← List.append_assoc, hsplit, List.append_assoc, hsplit',
        List.append_assoc]
    · rw [run_cons, takenFrom_append]
      exact htells.append htells'

/-- What a stream still holds ends with the live snapshot, if it holds anything. -/
theorem getLast?_drain (h : b.Leaves stream unread) (hne : (b.drain stream).1 ≠ [])
    (hlive : unread ≠ [] → unread.getLast? = some b.live) :
    (b.drain stream).1.getLast? = some (.received b.live) := by
  rw [h.drain_eq] at hne ⊢
  have hunread : unread ≠ [] := by
    intro hnil
    rw [hnil] at hne
    exact hne rfl
  rw [Inbox.getLast?_contents_holding (by decide), hlive hunread, Option.map_some]

/-- An edit makes exactly one snapshot, one version on, with the changed text.  It becomes live
and is sent out, and nothing else is.  Whatever is done after a stream was subscribed, in any
order and with any other streams, the stream tells of exactly the snapshots that were sent out
since, whose versions are consecutive: of a first part of them with what was taken so far, and
of all others when it is drained next.  Those are received one by one as far as the latest
`capacity` of them reach, and one notice gives the number of those before.  A drain that brings
anything ends with the live snapshot. -/
theorem edits_told_once_in_order (b : Buffer) :
    (∀ a f, a.change? = some f →
      (b.act a).1.live = ⟨b.live.version + 1, .buffer b.id, f b.live.text⟩ ∧
      (b.act a).2 = [.published (b.act a).1.live]) ∧
    (∀ a, a.change? = none → (b.act a).1.live = b.live ∧ published (b.act a).2 = []) ∧
    ∀ rest : List Action,
      let stream := b.subscribe.1
      let out := b.subscribe.2.run rest
      let notices := (out.1.drain stream).1
      ∃ told unread, published out.2 = told ++ unread ∧
        (published out.2).map Snapshot.version =
          List.range' (b.live.version + 1) (published out.2).length ∧
        Tells told (takenFrom stream out.2) ∧
        Tells unread notices ∧
        (notices = if unread.length ≤ capacity then unread.map .received
          else .missed (unread.length - capacity) ::
            (unread.drop (unread.length - capacity)).map .received) ∧
        (notices ≠ [] → notices.getLast? = some (.received out.1.live)) := by
  refine ⟨?_, ?_, ?_⟩
  · intro a f hchange
    rw [edit_of_change? hchange]
    exact ⟨rfl, rfl⟩
  · intro a hchange
    obtain ⟨hlive, -, hnone⟩ := act_of_no_change (b := b) hchange
    exact ⟨hlive, hnone⟩
  · intro rest stream out notices
    obtain ⟨told, unread, hsplit, htells, hleaves⟩ := (leaves_subscribe b).run rest
    rw [List.nil_append] at hsplit
    obtain ⟨hversions, hlive⟩ := run_published b.subscribe.2 rest
    have hnotices : notices = (Inbox.holding capacity unread).contents := hleaves.drain_eq
    refine ⟨told, unread, hsplit, hversions, htells, ?_, ?_, ?_⟩
    · rw [hnotices]
      exact Inbox.contents_holding capacity unread
    · rw [hnotices]
      exact Inbox.contents_holding_eq capacity unread
    · intro hne
      refine getLast?_drain hleaves hne ?_
      intro hunread
      rw [hlive, hsplit, List.getLast?_append, List.getLast?_eq_some_getLast hunread]
      rfl

/-- An edit far after the end appends, and a stream that is drained after it ends with it. -/
theorem edits_told_once_in_order_clamped :
    let b := create 0 0 none ['a']
    let e : Action := .applyEdit ⟨10, 2, ['b']⟩
    (b.act e).2 = [.published ⟨1, .buffer 0, ['a', 'b']⟩] ∧
      (b.act .subscribe).1.live = b.live ∧
      ((b.subscribe.2.run [.subscribe, e, .drain 1]).1.drain 0).1.getLast? =
        some (.received ⟨1, .buffer 0, ['a', 'b']⟩) := by
  intro b e
  obtain ⟨hedit, hother, htold⟩ := edits_told_once_in_order b
  obtain ⟨-, -, -, -, -, -, -, hlast⟩ := htold [.subscribe, e, .drain 1]
  exact ⟨(hedit e _ rfl).2, (hother .subscribe rfl).1, hlast (List.cons_ne_nil _ _)⟩

end Buffer
end LiveSheet
