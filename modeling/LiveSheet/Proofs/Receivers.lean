import LiveSheet.Proofs.Changes
import LiveSheet.Proofs.Streams

/-!
# Receivers of tree changes

A change that is marked as an effect is given to every receiver, and a receiver is given nothing
else.  So over a run each receiver tells of exactly the changes that were marked since it was
subscribed, in their order, and what it has no room for is counted.
-/

namespace LiveSheet

theorem Inbox.foldl_push_holding {α : Type} {capacity : Nat} (hcapacity : 0 < capacity)
    (unread values : List α) :
    values.foldl (fun inbox value => inbox.push capacity value) (holding capacity unread) =
      holding capacity (unread ++ values) := by
  induction values generalizing unread with
  | nil => rw [List.append_nil, List.foldl_nil]
  | cons value rest ih =>
    rw [List.foldl_cons, push_holding hcapacity, ih, List.append_assoc, List.singleton_append]

namespace Controller

/-- Every receiver is given the changes that the effects mark, and nothing else. -/
def Gives (c : Controller) (out : Controller × List Effect) : Prop :=
  out.1.receivers = c.receivers.map fun inbox =>
    (Effect.changes out.2).foldl (fun inbox change => inbox.push capacity change) inbox

/-- The owner of a receiver has not taken these changes yet. -/
def Owes (c : Controller) (receiver : Nat) (unread : List TreeChange) : Prop :=
  c.receivers[receiver]? = some (.holding capacity unread)

variable {c : Controller} {out : Controller × List Effect} {receiver : Nat}
  {unread : List TreeChange}

theorem gives_of_unmarked (hreceivers : out.1.receivers = c.receivers)
    (hchanges : Effect.changes out.2 = []) : c.Gives out := by
  unfold Gives
  rw [hreceivers, hchanges]
  exact (List.map_id _).symm

theorem Owes.given (h : c.Owes receiver unread) (hgives : c.Gives out) :
    out.1.Owes receiver (unread ++ Effect.changes out.2) := by
  unfold Owes at h ⊢
  rw [hgives, List.getElem?_map, h, Option.map_some, Inbox.foldl_push_holding (by decide)]

/-! ## One action -/

theorem changes_commit (c : Controller) (s : Snapshot) (items : List Item) (timing : Timing) :
    Effect.changes (c.commit s items timing).2 = [⟨c.tree, .parsed s items⟩] := by
  obtain ⟨logs, heffects, hlog⟩ := commit_effects c s items timing
  rw [heffects]
  exact congrArg (_ :: ·) (Effect.changes_of_quiet fun e he => (hlog e he).quiet)

/-- A commit marks one change and gives it to every receiver. -/
theorem gives_commit (c : Controller) (s : Snapshot) (items : List Item) (timing : Timing) :
    c.Gives (c.commit s items timing) := by
  unfold Gives
  rw [changes_commit]
  rfl

theorem gives_respond (c : Controller) (live s : Snapshot) (a : Answer) :
    c.Gives (c.respond live s a) := by
  rcases respond_cases c live s a with ⟨items, -, -, hcommit⟩ | ⟨hno, hsame⟩
  · rw [hcommit]
    exact gives_commit c s items a.timing
  · exact gives_of_unmarked (congrArg receivers hsame) (Effect.changes_of_quiet (respond_quiet hno))

theorem gives_conclude (c : Controller) (live : Snapshot) (job : Job) (a : Answer) :
    c.Gives (c.conclude live job a) := by
  have hchanges : Effect.changes (c.conclude live job a).2 =
      Effect.changes (c.respond live job.snapshot a).2 := by
    simp only [conclude, Effect.changes_append]
    exact List.append_nil _
  unfold Gives
  rw [hchanges]
  exact gives_respond c live job.snapshot a

theorem gives_advance (parser : Parser) (c : Controller) (live : Snapshot) (job : Job) :
    c.Gives (c.advance parser live job) := by
  unfold advance
  split
  · exact gives_of_unmarked rfl rfl
  · exact gives_of_unmarked rfl rfl
  · exact gives_conclude c live job _
  · exact gives_of_unmarked rfl rfl
  · exact gives_of_unmarked rfl rfl

theorem gives_notify (c : Controller) (live s : Snapshot) : c.Gives (c.notify live s) := by
  unfold notify
  split
  · exact gives_of_unmarked rfl rfl
  · split <;> exact gives_of_unmarked rfl rfl

theorem gives_hear (c : Controller) (live : Snapshot) (notice : Notice Snapshot) :
    c.Gives (c.hear live notice) := by
  cases notice with
  | received s => exact gives_notify c live s
  | missed count => exact gives_notify c live live

/-! ## Draining -/

theorem Owes.drain_eq (h : c.Owes receiver unread) :
    (c.drain receiver).1 = (Inbox.holding capacity unread).contents := by
  unfold Owes at h
  rw [drain, h]

theorem Owes.drained (h : c.Owes receiver unread) : (c.drain receiver).2.Owes receiver [] := by
  unfold Owes at h
  rw [drain, h]
  exact List.getElem?_set_self (List.getElem?_eq_some_iff.1 h).1

theorem Owes.drained_ne (h : c.Owes receiver unread) {i : Nat} (hne : i ≠ receiver) :
    (c.drain i).2.Owes receiver unread := by
  unfold drain
  split
  · exact (List.getElem?_set_ne hne).trans h
  · exact h

theorem Owes.subscribed (h : c.Owes receiver unread) : c.subscribe.2.Owes receiver unread :=
  (List.getElem?_append_left (List.getElem?_eq_some_iff.1 h).1).trans h

theorem owes_subscribe (c : Controller) : c.subscribe.2.Owes c.subscribe.1 [] :=
  List.getElem?_concat_length

end Controller

namespace Session

variable {s : Session} {receiver : Nat} {unread : List TreeChange}

/-- What the owner of a receiver takes from it in an action. -/
def taken (s : Session) (receiver : Nat) : Action → List (Notice TreeChange)
  | .drain i => if i = receiver then (s.controller.drain i).1 else []
  | _ => []

/-- What the owner of a receiver takes from it over a run. -/
def takenFrom (parser : Parser) (receiver : Nat) (s : Session) :
    List Action → List (Notice TreeChange)
  | [] => []
  | a :: rest => s.taken receiver a ++ takenFrom parser receiver (s.act parser a).1 rest

theorem listen_gives (s : Session) :
    s.controller.Gives (s.listen.1.controller, s.listen.2) := by
  unfold listen
  split
  · exact Controller.gives_of_unmarked rfl rfl
  · split
    · exact Controller.gives_of_unmarked rfl rfl
    · exact Controller.gives_hear s.controller _ _

theorem advance_gives (parser : Parser) (s : Session) (job : Nat) :
    s.controller.Gives ((s.advance parser job).1.controller, (s.advance parser job).2) := by
  unfold advance
  split
  · exact Controller.gives_of_unmarked rfl rfl
  · exact Controller.gives_advance parser s.controller s.buffer.live _

/-- An action that neither subscribes nor drains gives what it marks, and nobody takes
anything in it. -/
theorem act_gives (parser : Parser) (s : Session) (a : Action) :
    a = .subscribe ∨ (∃ i, a = .drain i) ∨
      s.controller.Gives ((s.act parser a).1.controller, (s.act parser a).2) ∧
        ∀ receiver, s.taken receiver a = [] := by
  cases a with
  | subscribe => exact .inl rfl
  | drain i => exact .inr (.inl ⟨i, rfl⟩)
  | notify snapshot =>
    exact .inr (.inr ⟨Controller.gives_notify s.controller s.buffer.live snapshot, fun _ => rfl⟩)
  | listen => exact .inr (.inr ⟨s.listen_gives, fun _ => rfl⟩)
  | advance job => exact .inr (.inr ⟨advance_gives parser s job, fun _ => rfl⟩)
  | _ => exact .inr (.inr ⟨Controller.gives_of_unmarked rfl rfl, fun _ => rfl⟩)

/-- In every action a receiver tells of some of the changes that it held and of those that are
marked, and it holds the others. -/
theorem owes_act (parser : Parser) (h : s.controller.Owes receiver unread) (a : Action) :
    ∃ told rest, unread ++ Effect.changes (s.act parser a).2 = told ++ rest ∧
      Tells told (s.taken receiver a) ∧ (s.act parser a).1.controller.Owes receiver rest := by
  rcases act_gives parser s a with rfl | ⟨i, rfl⟩ | ⟨hgives, htaken⟩
  · exact ⟨[], unread, List.append_nil _, .nil, h.subscribed⟩
  · by_cases hi : i = receiver
    · subst hi
      refine ⟨unread, [], rfl, ?_, h.drained⟩
      rw [taken, if_pos rfl, h.drain_eq]
      exact Inbox.contents_holding _ unread
    · refine ⟨[], unread, List.append_nil _, ?_, h.drained_ne hi⟩
      rw [taken, if_neg hi]
      exact .nil
  · refine ⟨[], _, rfl, ?_, h.given hgives⟩
    rw [htaken receiver]
    exact .nil

theorem owes_run (parser : Parser) (h : s.controller.Owes receiver unread)
    (actions : List Action) :
    ∃ told rest, unread ++ Effect.changes (s.run parser actions).2 = told ++ rest ∧
      Tells told (s.takenFrom parser receiver actions) ∧
      (s.run parser actions).1.controller.Owes receiver rest := by
  induction actions generalizing s unread with
  | nil => exact ⟨[], unread, List.append_nil _, .nil, h⟩
  | cons a later ih =>
    obtain ⟨told, rest, hsplit, htells, howes⟩ := owes_act parser h a
    obtain ⟨told', rest', hsplit', htells', howes'⟩ := ih howes
    refine ⟨told ++ told', rest', ?_, htells.append htells', howes'⟩
    rw [run, Effect.changes_append, ← List.append_assoc, hsplit, List.append_assoc, hsplit',
      List.append_assoc]

/-- Every receiver is told of exactly the changes that are marked since it was subscribed, once
and in their order, whatever happens meanwhile.  Of a first part of them tells what was taken from
it so far, and of all others what it gives when it is drained next: the latest `capacity` of
these one by one, and the number of those before. -/
theorem changes_told (parser : Parser) (s : Session) (actions : List Action) :
    let receiver := s.controller.subscribe.1
    let subscribed := (s.act parser .subscribe).1
    let out := subscribed.run parser actions
    ∃ told unread, Effect.changes out.2 = told ++ unread ∧
      Tells told (subscribed.takenFrom parser receiver actions) ∧
      (out.1.controller.drain receiver).1 =
        if unread.length ≤ Controller.capacity then unread.map .received
        else .missed (unread.length - Controller.capacity) ::
          (unread.drop (unread.length - Controller.capacity)).map .received := by
  intro receiver subscribed out
  have hstart : subscribed.controller.Owes receiver [] := s.controller.owes_subscribe
  obtain ⟨told, unread, hsplit, htells, howes⟩ := owes_run parser hstart actions
  refine ⟨told, unread, hsplit, htells, ?_⟩
  rw [howes.drain_eq]
  exact Inbox.contents_holding_eq Controller.capacity unread

end Session
end LiveSheet
