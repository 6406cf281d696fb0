import LiveSheet.Proofs.Documents

/-!
# Documents and their controllers

The open documents and the registered controllers stay paired.  The controller of a document is
open and attached to its buffer, and its tree comes from a snapshot that this document has shown
since it was opened last, whatever is still in flight from the times when it was open before.
-/

namespace LiveSheet

/-- The action closes the controller or lets go of it. -/
def Session.Action.ends : Session.Action → Bool
  | .close => true
  | .release => true
  | _ => false

namespace Controller

theorem notify_open (c : Controller) (live s : Snapshot) :
    (c.notify live s).1.held = c.held ∧ (c.notify live s).1.closed = c.closed := by
  unfold notify
  split
  · exact ⟨rfl, rfl⟩
  · split <;> exact ⟨rfl, rfl⟩

/-- The end of its last parse closes no controller that someone holds. -/
theorem conclude_open {c : Controller} (h : c.held = true) (live : Snapshot) (job : Job)
    (a : Answer) : (c.conclude live job a).1.held = true ∧
      (c.conclude live job a).1.closed = c.closed := by
  rcases respond_cases c live job.snapshot a with ⟨_, -, -, hrespond⟩ | ⟨-, hrespond⟩
  · simp [conclude, hrespond, commit, reap, isGone, h]
  · simp [conclude, hrespond, reap, isGone, h]

end Controller

namespace Session

variable {s : Session} {a : Action}

theorem act_open (parser : Parser) (h : s.controller.held = true) (ha : a.ends = false) :
    (s.act parser a).1.controller.held = true ∧
      (s.act parser a).1.controller.closed = s.controller.closed := by
  cases a with
  | notify snapshot =>
    obtain ⟨hheld, hclosed⟩ := s.controller.notify_open s.buffer.live snapshot
    exact ⟨hheld.trans h, hclosed⟩
  | listen =>
    simp only [act, listen]
    split
    · exact ⟨h, rfl⟩
    · split
      · exact ⟨h, rfl⟩
      · rename_i notice buffer _
        cases notice with
        | received snapshot =>
          obtain ⟨hheld, hclosed⟩ := s.controller.notify_open buffer.live snapshot
          exact ⟨hheld.trans h, hclosed⟩
        | missed count =>
          obtain ⟨hheld, hclosed⟩ := s.controller.notify_open buffer.live buffer.live
          exact ⟨hheld.trans h, hclosed⟩
  | advance job =>
    simp only [act, advance]
    split
    · exact ⟨h, rfl⟩
    · simp only [withController, Controller.advance]
      split
      · exact ⟨h, rfl⟩
      · exact ⟨h, rfl⟩
      · exact Controller.conclude_open h _ _ _
      · exact ⟨h, rfl⟩
      · exact ⟨h, rfl⟩
  | drain receiver =>
    simp only [act, withController, Controller.drain]
    split <;> exact ⟨h, rfl⟩
  | close => exact Bool.noConfusion ha
  | release => exact Bool.noConfusion ha
  | _ => exact ⟨h, rfl⟩

theorem act_number (parser : Parser) (s : Session) (a : Action) :
    (s.act parser a).1.buffer.id = s.buffer.id := by
  cases a with
  | listen =>
    simp only [act, listen]
    split
    · rfl
    · split
      · rfl
      · rename_i htake
        obtain ⟨_, _, -, -, rfl⟩ := Buffer.take?_eq_some htake
        rfl
  | advance job =>
    simp only [act, advance]
    split <;> rfl
  | _ => rfl

/-- An action leaves the tree alone, or a parse of the live snapshot is applied. -/
theorem act_tree_live (parser : Parser) (s : Session) (a : Action) :
    (s.act parser a).1.controller.tree = s.controller.tree ∨
      ∃ items, (s.act parser a).1.controller.tree = .parsed s.buffer.live items := by
  rcases (act_next parser s a).tree_cases with ⟨htree, -⟩ | ⟨_, _, items, _, -, -, -, -, htree, -⟩
  · exact .inl htree
  · exact .inr ⟨items, htree⟩

end Session

namespace Workspace

variable {w : Workspace} {i : Nat}

/-- The buffers are known by their places and make all their snapshots themselves. -/
structure Genuine (w : Workspace) : Prop where
  numbers : ∀ (i : Nat) (b : Buffer), w.buffers[i]? = some b → b.id = i
  origins : ∀ (i : Nat) (s : Snapshot), w.live? i = some s → s.origin = .buffer i

/-- The controller is attached to the buffer, and it is open and held. -/
def Serves (w : Workspace) (i buffer : Nat) : Prop :=
  ∃ c, w.controllers[i]? = some c ∧ c.buffer = buffer ∧ c.closed = false ∧ c.held = true

def Closed (w : Workspace) (i : Nat) : Prop :=
  ∃ c, w.controllers[i]? = some c ∧ c.closed = true

/-- The session of a controller goes on by itself: its buffer and the controller are all that
may change. -/
theorem act_cases (parser : Parser) (w : Workspace) (i : Nat) (a : Session.Action) :
    (w.act parser i a).1 = w ∨ ∃ c b, w.controllers[i]? = some c ∧ w.buffers[c.buffer]? = some b ∧
      (w.act parser i a).1 =
        ⟨w.buffers.set c.buffer (Session.act parser ⟨b, c⟩ a).1.buffer,
          w.controllers.set i (Session.act parser ⟨b, c⟩ a).1.controller⟩ := by
  unfold act
  split
  · exact .inl rfl
  · rename_i s hs
    simp only [session?, Option.bind_eq_bind, Option.pure_def, Option.bind_eq_some_iff,
      Option.some.injEq] at hs
    obtain ⟨c, hc, b, hb, rfl⟩ := hs
    refine .inr ⟨c, b, hc, hb, ?_⟩
    have hhome := Session.act_home parser ⟨b, c⟩ a
    show (⟨w.buffers.set (Session.act parser ⟨b, c⟩ a).1.controller.buffer _, _⟩ : Workspace) = _
    rw [hhome]

theorem Genuine.of_buffers_eq (h : w.Genuine) {next : Workspace}
    (hbuffers : next.buffers = w.buffers) : next.Genuine := by
  refine ⟨hbuffers ▸ h.numbers, fun i s hs => ?_⟩
  unfold live? at hs
  rw [hbuffers] at hs
  exact h.origins i s hs

theorem Genuine.edit (h : w.Genuine) (buffer : Nat) (f : Text → Text) :
    (w.edit buffer f).Genuine := by
  have hnumbers : ∀ (i : Nat) (b : Buffer), (w.edit buffer f).buffers[i]? = some b → b.id = i := by
    intro i b hb
    have hb : (w.buffers.modify buffer (Buffer.edit · f))[i]? = some b := hb
    rw [List.getElem?_modify] at hb
    obtain ⟨b', hb', rfl⟩ := Option.map_eq_some_iff.1 hb
    split <;> exact h.numbers i b' hb'
  refine ⟨hnumbers, fun i s hs => ?_⟩
  by_cases hi : buffer = i
  · subst hi
    obtain ⟨b, hb, rfl⟩ := Option.map_eq_some_iff.1 hs
    have hb : (w.buffers.modify buffer (Buffer.edit · f))[buffer]? = some b := hb
    rw [List.getElem?_modify_eq] at hb
    obtain ⟨b', hb', rfl⟩ := Option.map_eq_some_iff.1 hb
    exact congrArg Origin.buffer (h.numbers buffer b' hb')
  · rw [live?_edit_of_ne hi] at hs
    exact h.origins i s hs

theorem Genuine.add (h : w.Genuine) {b : Buffer} {c : Controller}
    (hfresh : Fresh w.buffers.length b c) (controllers : List Controller) :
    (Workspace.mk (w.buffers ++ [b]) controllers).Genuine := by
  have hcases : ∀ (i : Nat) (found : Buffer), (w.buffers ++ [b])[i]? = some found →
      w.buffers[i]? = some found ∨ i = w.buffers.length ∧ b = found := by
    intro i found hfound
    rcases Nat.lt_trichotomy i w.buffers.length with hlt | rfl | hgt
    · rw [List.getElem?_append_left hlt] at hfound
      exact .inl hfound
    · rw [List.getElem?_concat_length] at hfound
      exact .inr ⟨rfl, Option.some.inj hfound⟩
    · have hlt := (List.getElem?_eq_some_iff.1 hfound).1
      rw [List.length_append, List.length_singleton] at hlt
      omega
  refine ⟨fun i found hfound => ?_, fun i s hs => ?_⟩
  · rcases hcases i found hfound with hold | ⟨rfl, rfl⟩
    · exact h.numbers i found hold
    · exact hfresh.number
  · obtain ⟨found, hfound, rfl⟩ := Option.map_eq_some_iff.1 hs
    rcases hcases i found hfound with hold | ⟨rfl, rfl⟩
    · exact h.origins i _ (Option.map_eq_some_iff.2 ⟨found, hold, rfl⟩)
    · exact hfresh.origin

theorem Genuine.act (h : w.Genuine) (parser : Parser) (i : Nat) {a : Session.Action}
    (hedits : a.edits = false) : (w.act parser i a).1.Genuine := by
  refine ⟨?_, fun j s hs => ?_⟩
  · rcases act_cases parser w i a with hsame | ⟨c, b, -, hb, hact⟩
    · rw [hsame]
      exact h.numbers
    · intro j b' hb'
      rw [hact] at hb'
      by_cases hj : c.buffer = j
      · subst hj
        rw [List.getElem?_set_self (List.getElem?_eq_some_iff.1 hb).1] at hb'
        rw [← Option.some.inj hb', Session.act_number]
        exact h.numbers _ _ hb
      · rw [List.getElem?_set_ne hj] at hb'
        exact h.numbers _ _ hb'
  · rw [(w.act_frame parser i hedits).1] at hs
    exact h.origins j s hs

/-- What has become of one controller when the session of one goes on. -/
theorem act_controller (parser : Parser) (j : Nat) (a : Session.Action) {c : Controller}
    (hc : w.controllers[i]? = some c) :
    (w.act parser j a).1.controllers[i]? = some c ∨
      j = i ∧ ∃ b, w.buffers[c.buffer]? = some b ∧
        (w.act parser j a).1.controllers[i]? = some (Session.act parser ⟨b, c⟩ a).1.controller := by
  rcases act_cases parser w j a with hsame | ⟨c', b, hc', hb, hact⟩
  · rw [hsame]
    exact .inl hc
  · rw [hact]
    by_cases hj : j = i
    · subst hj
      obtain rfl := Option.some.inj (hc'.symm.trans hc)
      exact .inr ⟨rfl, b, hb, List.getElem?_set_self (List.getElem?_eq_some_iff.1 hc).1⟩
    · exact .inl ((List.getElem?_set_ne hj).trans hc)

/-- The workspace has a controller with this number, and it has the property. -/
def Has (w : Workspace) (i : Nat) (Q : Controller → Prop) : Prop :=
  ∃ c, w.controllers[i]? = some c ∧ Q c

variable {Q : Controller → Prop}

theorem Has.act (h : w.Has i Q) {parser : Parser} {j : Nat} {a : Session.Action}
    (hact : j = i → ∀ b c, Q c → Q (Session.act parser ⟨b, c⟩ a).1.controller) :
    (w.act parser j a).1.Has i Q := by
  obtain ⟨c, hc, hq⟩ := h
  rcases act_controller parser j a hc with hsame | ⟨rfl, b, -, hnow⟩
  · exact ⟨c, hsame, hq⟩
  · exact ⟨_, hnow, hact rfl b c hq⟩

theorem Has.append (h : w.Has i Q) (buffers : List Buffer) (c : Controller) :
    (Workspace.mk buffers (w.controllers ++ [c])).Has i Q := by
  obtain ⟨found, hfound, hq⟩ := h
  exact ⟨found, List.getElem?_append_left (List.getElem?_eq_some_iff.1 hfound).1 ▸ hfound, hq⟩

theorem Has.close (h : w.Has i Q) {j : Nat} (hclose : j = i → ∀ c, Q c → Q c.close) :
    (w.close j).Has i Q := by
  obtain ⟨c, hc, hq⟩ := h
  refine ⟨_, (List.getElem?_modify ..).trans (congrArg (Option.map _) hc), ?_⟩
  split
  · rename_i hj
    exact hclose hj c hq
  · exact hq

theorem Serves.act {buffer : Nat} (h : w.Serves i buffer) (parser : Parser) (j : Nat)
    {a : Session.Action} (ha : a.ends = true → j ≠ i) : (w.act parser j a).1.Serves i buffer := by
  refine Has.act h fun hj b c ⟨hbuffer, hclosed, hheld⟩ => ?_
  have hends : a.ends = false := Bool.eq_false_iff.2 fun hends => ha hends hj
  obtain ⟨hheld', hclosed'⟩ := Session.act_open (s := ⟨b, c⟩) parser hheld hends
  exact ⟨(Session.act_home parser _ a).trans hbuffer, hclosed'.trans hclosed, hheld'⟩

theorem Closed.act (h : w.Closed i) (parser : Parser) (j : Nat) (a : Session.Action) :
    (w.act parser j a).1.Closed i :=
  Has.act h fun _ b c hclosed => (Session.act_next parser ⟨b, c⟩ a).closed hclosed

/-- A tree changes only if its controller applies a parse of the live snapshot. -/
theorem Serves.tree?_act {buffer : Nat} (h : w.Serves i buffer) (parser : Parser) (j : Nat)
    (a : Session.Action) :
    (w.act parser j a).1.tree? i = w.tree? i ∨
      ∃ live items, w.live? buffer = some live ∧
        (w.act parser j a).1.tree? i = some (.parsed live items) := by
  obtain ⟨c, hc, rfl, -, -⟩ := h
  have hbefore : w.tree? i = some c.tree := Option.map_eq_some_iff.2 ⟨c, hc, rfl⟩
  rcases act_controller parser j a hc with hsame | ⟨-, b, hb, hnow⟩
  · exact .inl ((Option.map_eq_some_iff.2 ⟨c, hsame, rfl⟩).trans hbefore.symm)
  · rcases Session.act_tree_live parser ⟨b, c⟩ a with htree | ⟨items, htree⟩
    · exact .inl ((Option.map_eq_some_iff.2 ⟨_, hnow, htree⟩).trans hbefore.symm)
    · exact .inr ⟨b.live, items, Option.map_eq_some_iff.2 ⟨b, hb, rfl⟩,
        Option.map_eq_some_iff.2 ⟨_, hnow, htree⟩⟩

theorem Serves.append {buffer : Nat} (h : w.Serves i buffer) (buffers : List Buffer)
    (c : Controller) : (Workspace.mk buffers (w.controllers ++ [c])).Serves i buffer :=
  Has.append h buffers c

theorem Closed.append (h : w.Closed i) (buffers : List Buffer) (c : Controller) :
    (Workspace.mk buffers (w.controllers ++ [c])).Closed i :=
  Has.append h buffers c

theorem Serves.close {buffer j : Nat} (h : w.Serves i buffer) (hj : j ≠ i) :
    (w.close j).Serves i buffer :=
  Has.close h fun heq => absurd heq hj

theorem Closed.close (h : w.Closed i) (j : Nat) : (w.close j).Closed i :=
  Has.close h fun _ _ _ => rfl

theorem closed_close (h : i < w.controllers.length) : (w.close i).Closed i :=
  ⟨w.controllers[i].close, (List.getElem?_modify_eq ..).trans
    (congrArg (Option.map _) (List.getElem?_eq_getElem h)), rfl⟩

end Workspace

namespace Registry

variable {r : Registry} {w : Workspace} {name other : String} {i buffer : Nat}

/-- A controller that was registered under the name is so still, or it is closed. -/
def Accounts (r : Registry) (w : Workspace) (name : String) (i : Nat) : Prop :=
  r.get? name = some i ∧ i < w.controllers.length ∨ w.Closed i

theorem get?_close_of_ne (h : name ≠ other) (r : Registry) (w : Workspace) :
    (r.close w other).1.get? name = r.get? name := by
  unfold get?
  rw [close_controllers]
  exact lookup_filter_of_ne h

theorem get?_close_self (r : Registry) (w : Workspace) (name : String) :
    (r.close w name).1.get? name = none := by
  unfold get?
  rw [close_controllers]
  exact lookup_filter_self

theorem serves_close (h : w.Serves i buffer) (hother : r.get? other ≠ some i) :
    (r.close w other).2.Serves i buffer := by
  unfold close
  split
  · exact h
  · rename_i c hget
    exact h.close fun hc => hother (hget.trans (congrArg some hc))

theorem Accounts.close (h : r.Accounts w name i) (other : String) :
    (r.close w other).1.Accounts (r.close w other).2 name i := by
  rcases h with ⟨hget, hlt⟩ | hclosed
  · by_cases hname : name = other
    · subst hname
      refine .inr ?_
      unfold Registry.close
      rw [hget]
      exact Workspace.closed_close hlt
    · rw [← get?_close_of_ne hname r w] at hget
      rw [← (r.close_frame w other).2.1] at hlt
      exact .inl ⟨hget, hlt⟩
  · refine .inr ?_
    unfold Registry.close
    split
    · exact hclosed
    · exact hclosed.close _

theorem Accounts.append (h : r.Accounts w name i) (hnone : r.get? other = none)
    (buffers : List Buffer) (c : Controller) :
    Accounts { r with controllers := r.controllers ++ [(other, w.controllers.length)] }
      ⟨buffers, w.controllers ++ [c]⟩ name i := by
  rcases h with ⟨hget, hlt⟩ | hclosed
  · have hne : name ≠ other := by
      rintro rfl
      exact nomatch hnone.symm.trans hget
    refine .inl ⟨(lookup_concat_of_ne hne).trans hget, ?_⟩
    rw [List.length_append]
    exact Nat.lt_add_right _ hlt
  · exact .inr (hclosed.append _ c)

/-- What holds at first and is kept when a controller is closed holds after shutting down. -/
theorem shutdown_invariant {P : Registry → Workspace → Prop} (h : P r w)
    (hclose : ∀ r w name, P r w → P (r.close w name).1 (r.close w name).2) :
    P (r.shutdown w).1 (r.shutdown w).2 := by
  have hall : ∀ (names : List String) (acc : Registry × Workspace), P acc.1 acc.2 →
      P (names.foldl (fun acc name => acc.1.close acc.2 name) acc).1
        (names.foldl (fun acc name => acc.1.close acc.2 name) acc).2 := by
    intro names
    induction names with
    | nil => exact fun _ hacc => hacc
    | cons first rest ih => exact fun acc hacc => ih _ (hclose acc.1 acc.2 first hacc)
  exact hall (r.controllers.map Prod.fst) (r, w) h

theorem Accounts.shutdown (h : r.Accounts w name i) : (r.shutdown w).2.Closed i := by
  have haccounts : (r.shutdown w).1.Accounts (r.shutdown w).2 name i :=
    shutdown_invariant (P := fun r w => r.Accounts w name i) h fun _ _ other hkept =>
      hkept.close other
  rcases haccounts with ⟨hget, -⟩ | hclosed
  · unfold get? at hget
    rw [shutdown_controllers] at hget
    cases hget
  · exact hclosed

theorem shutdown_buffers (r : Registry) (w : Workspace) :
    (r.shutdown w).2.buffers = w.buffers :=
  shutdown_invariant (P := fun _ next => next.buffers = w.buffers) rfl
    fun r next name hkept => (r.close_frame next name).1.trans hkept

end Registry

namespace Server

variable {s : Server} {uri other : String} {i buffer : Nat}

/-- Nothing but the server itself closes a controller that it has registered, or lets go of
one. -/
def Spares (s : Server) : Event → Prop
  | .worked i a _ => a.ends = true → i ∉ s.registry.controllers.map Prod.snd
  | _ => True

def SparesAll (s : Server) : List Event → Prop
  | [] => True
  | e :: rest => s.Spares e ∧ (s.hear e).SparesAll rest

instance (s : Server) : (e : Event) → Decidable (s.Spares e)
  | .worked i a _ =>
    inferInstanceAs (Decidable (a.ends = true → i ∉ s.registry.controllers.map Prod.snd))
  | .notified _ => inferInstanceAs (Decidable True)
  | .configured _ => inferInstanceAs (Decidable True)

instance decidableSparesAll (s : Server) : (events : List Event) → Decidable (s.SparesAll events)
  | [] => inferInstanceAs (Decidable True)
  | e :: rest =>
    have := decidableSparesAll (s.hear e) rest
    inferInstanceAs (Decidable (s.Spares e ∧ (s.hear e).SparesAll rest))

/-- Every registered controller serves the document of the same name, and no other one. -/
structure Paired (s : Server) : Prop where
  orderly : s.Orderly
  genuine : s.workspace.Genuine
  distinct : (s.registry.controllers.map Prod.snd).Nodup
  served : ∀ uri i, s.registry.get? uri = some i →
    ∃ buffer, s.documents.lookup uri = some buffer ∧ s.workspace.Serves i buffer

theorem create_paired (settings : Settings) : (create settings).Paired where
  orderly := create_orderly settings
  genuine := ⟨fun _ _ h => (nomatch h), fun _ _ h => (nomatch h)⟩
  distinct := List.nodup_nil
  served := fun _ _ h => nomatch h

theorem Paired.get?_ne (h : s.Paired) (hne : other ≠ uri) (hget : s.registry.get? other = some i) :
    s.registry.get? uri ≠ some i := by
  intro huri
  have hsame := List.inj_on_of_nodup_map h.distinct (mem_of_lookup hget) (mem_of_lookup huri) rfl
  exact hne (congrArg Prod.fst hsame)

/-! ## What happens to the pairs -/

theorem Paired.edit (h : s.Paired) (hlookup : s.documents.lookup uri = some buffer)
    (f : Text → Text) : { s with workspace := s.workspace.edit buffer f }.Paired where
  orderly := (edit_touches h.orderly hlookup f).orderly
  genuine := h.genuine.edit buffer f
  distinct := h.distinct
  served := h.served

theorem Paired.opened (h : s.Paired) (hlookup : s.documents.lookup uri = none) {b : Buffer}
    {c : Controller} (hfresh : Workspace.Fresh s.workspace.buffers.length b c)
    (messages : List ClientMessage) : (s.opened uri b c messages).Paired where
  orderly := h.orderly.opened uri b c messages
  genuine := h.genuine.add hfresh _
  distinct := by
    show ((s.registry.controllers ++ [(uri, s.workspace.controllers.length)]).map
      Prod.snd).Nodup
    rw [List.map_append, List.nodup_append]
    refine ⟨h.distinct, List.nodup_singleton _, fun i hi new hnew heq => ?_⟩
    obtain ⟨entry, hentry, hsecond⟩ := List.mem_map.1 hi
    have hlt := h.orderly.controllers entry hentry
    rw [List.map_singleton, List.mem_singleton] at hnew
    omega
  served := by
    intro other i hget
    have hget : (s.registry.controllers ++ [(uri, s.workspace.controllers.length)]).lookup other =
      some i := hget
    by_cases hne : other = uri
    · subst hne
      rw [lookup_concat_self (h.orderly.get?_eq_none hlookup)] at hget
      obtain rfl := Option.some.inj hget
      exact ⟨_, lookup_concat_self hlookup, c, List.getElem?_concat_length, hfresh.home,
        hfresh.isOpen, hfresh.held⟩
    · rw [lookup_concat_of_ne hne] at hget
      obtain ⟨buffer, hbuffer, hserves⟩ := h.served other i hget
      exact ⟨buffer, (lookup_concat_of_ne hne).trans hbuffer, hserves.append _ c⟩

theorem Paired.didClose (h : s.Paired) (uri : String) : (s.didClose uri).Paired where
  orderly := (didClose_touches h.orderly uri).orderly
  genuine := h.genuine.of_buffers_eq (s.registry.close_frame s.workspace uri).1
  distinct := by
    show ((s.registry.close s.workspace uri).1.controllers.map Prod.snd).Nodup
    rw [Registry.close_controllers]
    exact h.distinct.sublist (List.filter_sublist.map Prod.snd)
  served := by
    intro other i hget
    have hne : other ≠ uri := by
      rintro rfl
      exact nomatch (Registry.get?_close_self ..).symm.trans hget
    have hget := (Registry.get?_close_of_ne hne ..).symm.trans hget
    obtain ⟨buffer, hbuffer, hserves⟩ := h.served other i hget
    exact ⟨buffer, (lookup_filter_of_ne hne).trans hbuffer,
      Registry.serves_close hserves (h.get?_ne hne hget)⟩

theorem Paired.shutdown (h : s.Paired) : s.shutdown.Paired := by
  have hcontrollers : s.shutdown.registry.controllers = [] :=
    s.registry.shutdown_controllers s.workspace
  refine ⟨s.shutdown_orderly,
    h.genuine.of_buffers_eq (s.registry.shutdown_buffers s.workspace), ?_, fun uri i hget => ?_⟩
  · rw [hcontrollers]
    exact List.nodup_nil
  · unfold Registry.get? at hget
    rw [hcontrollers] at hget
    exact nomatch hget

theorem hear_paired (h : s.Paired) {e : Event} (hspares : s.Spares e) : (s.hear e).Paired := by
  cases e with
  | notified n =>
    cases n with
    | opened uri text =>
      show (s.didOpen uri text).Paired
      rcases didOpen_cases h.orderly uri text with
        ⟨buffer, hlookup, hopen⟩ | ⟨hlookup, b, c, messages, -, hfresh, hopen⟩
      · rw [hopen]
        exact h.edit hlookup _
      · rw [hopen]
        exact h.opened hlookup hfresh messages
    | changed uri changes =>
      show (s.didChange uri changes).Paired
      unfold didChange
      split
      · exact h
      · rename_i buffer hlookup
        exact h.edit hlookup _
    | closed uri => exact h.didClose uri
    | shutdown => exact h.shutdown
  | configured v => exact ⟨hear_orderly h.orderly (.configured v), h.genuine, h.distinct, h.served⟩
  | worked j a ha =>
    refine ⟨hear_orderly h.orderly (.worked j a ha), h.genuine.act parser j ha, h.distinct,
      fun uri i hget => ?_⟩
    obtain ⟨buffer, hbuffer, hserves⟩ := h.served uri i hget
    refine ⟨buffer, hbuffer, hserves.act parser j fun hends => ?_⟩
    rintro rfl
    exact hspares hends (List.mem_map_of_mem (f := Prod.snd) (mem_of_lookup hget))

/-- Nothing that happens makes the server forget a controller without closing it, or opens a
closed one. -/
theorem hear_accounts (h : s.Orderly) {name : String}
    (haccounts : s.registry.Accounts s.workspace name i) (e : Event) :
    (s.hear e).registry.Accounts (s.hear e).workspace name i := by
  cases e with
  | notified n =>
    cases n with
    | opened uri text =>
      show (s.didOpen uri text).registry.Accounts (s.didOpen uri text).workspace name i
      rcases didOpen_cases h uri text with
        ⟨buffer, -, hopen⟩ | ⟨hlookup, b, c, messages, -, -, hopen⟩
      · rw [hopen]
        exact haccounts
      · rw [hopen]
        exact haccounts.append (h.get?_eq_none hlookup) _ c
    | changed uri changes =>
      show (s.didChange uri changes).registry.Accounts (s.didChange uri changes).workspace name i
      unfold didChange
      split <;> exact haccounts
    | closed uri => exact haccounts.close uri
    | shutdown => exact .inr haccounts.shutdown
  | configured v => exact haccounts
  | worked j a ha =>
    rcases haccounts with ⟨hget, hlt⟩ | hclosed
    · exact .inl ⟨hget, Nat.lt_of_lt_of_eq hlt (s.workspace.act_frame parser j ha).2.2.symm⟩
    · exact .inr (hclosed.act parser j a)

theorem hear_buffers_length (h : s.Orderly) (e : Event) :
    s.workspace.buffers.length ≤ (s.hear e).workspace.buffers.length := by
  cases e with
  | notified n =>
    cases n with
    | opened uri text =>
      show _ ≤ (s.didOpen uri text).workspace.buffers.length
      rcases didOpen_cases h uri text with ⟨buffer, -, hopen⟩ | ⟨-, b, c, messages, -, -, hopen⟩
      · rw [hopen, Workspace.length_edit]
      · rw [hopen]
        exact Nat.le.intro List.length_append.symm
    | changed uri changes =>
      show _ ≤ (s.didChange uri changes).workspace.buffers.length
      unfold didChange
      split
      · exact Nat.le_refl _
      · rw [Workspace.length_edit]
    | closed uri =>
      exact Nat.le_of_eq (congrArg List.length (s.registry.close_frame s.workspace uri).1.symm)
    | shutdown =>
      exact Nat.le_of_eq (congrArg List.length (s.registry.shutdown_buffers s.workspace).symm)
  | configured v => exact Nat.le_refl _
  | worked j a ha => exact Nat.le_of_eq (s.workspace.act_frame parser j ha).2.1.symm

/-- The document is still open in the buffer that it had, and if its tree is another one, then
the new one is the tree of what it has shown. -/
structure Continues (s next : Server) (uri : String) (buffer : Nat) : Prop where
  lookup : s.documents.lookup uri = some buffer
  tree : ∀ tree, next.treeFor? uri = some tree → s.treeFor? uri = some tree ∨
    ∃ live items, s.liveSnapshot? uri = some live ∧ tree = .parsed live items

theorem continues_of_treeFor? {next : Server} (hlookup : s.documents.lookup uri = some buffer)
    (htree : next.treeFor? uri = s.treeFor? uri) : s.Continues next uri buffer :=
  ⟨hlookup, fun _ h => .inl (htree.symm.trans h)⟩

/-- A document that is open was so before, or it has just been opened, in a new buffer and
without a tree. -/
theorem hear_document (h : s.Paired) {e : Event}
    (hlookup : (s.hear e).documents.lookup uri = some buffer) :
    s.Continues (s.hear e) uri buffer ∨
      (s.documents.lookup uri = none ∧ buffer = s.workspace.buffers.length ∧
        (∃ text, e = .notified (.opened uri text)) ∧
        (s.hear e).treeFor? uri = some .empty) := by
  cases e with
  | notified n =>
    cases n with
    | opened named text =>
      replace hlookup : (s.didOpen named text).documents.lookup uri = some buffer := hlookup
      by_cases hne : uri = named
      · subst hne
        rcases didOpen_cases h.orderly uri text with
          ⟨found, hfound, hopen⟩ | ⟨hnone, b, c, messages, -, hfresh, hopen⟩
        · refine .inl (continues_of_treeFor? ?_ ?_)
          · rw [hopen] at hlookup
            exact hlookup
          · show (s.didOpen uri text).treeFor? uri = _
            rw [hopen]
            rfl
        · rw [hopen] at hlookup
          have hnew := (lookup_concat_self hnone).symm.trans hlookup
          refine .inr ⟨hnone, (Option.some.inj hnew).symm, ⟨text, rfl⟩, ?_⟩
          show (s.didOpen uri text).treeFor? uri = _
          rw [hopen]
          show ((s.registry.controllers ++ [(uri, s.workspace.controllers.length)]).lookup uri).bind
            _ = _
          rw [lookup_concat_self (h.orderly.get?_eq_none hnone)]
          show (s.workspace.controllers ++ [c])[s.workspace.controllers.length]?.map
            Controller.tree = _
          rw [List.getElem?_concat_length, Option.map_some, hfresh.tree]
      · refine .inl (continues_of_treeFor? ?_
          ((didOpen_touches h.orderly named text).trees uri hne))
        rcases didOpen_cases h.orderly named text with
          ⟨found, -, hopen⟩ | ⟨-, b, c, messages, -, -, hopen⟩
        · rw [hopen] at hlookup
          exact hlookup
        · rw [hopen] at hlookup
          exact (lookup_concat_of_ne hne).symm.trans hlookup
    | changed named changes =>
      replace hlookup : (s.didChange named changes).documents.lookup uri = some buffer := hlookup
      refine .inl (continues_of_treeFor? ?_ ?_)
      · unfold didChange at hlookup
        split at hlookup <;> exact hlookup
      · show (s.didChange named changes).treeFor? uri = _
        unfold didChange
        split <;> rfl
    | closed named =>
      have hne : uri ≠ named := by
        rintro rfl
        exact nomatch lookup_filter_self.symm.trans hlookup
      exact .inl (continues_of_treeFor? ((lookup_filter_of_ne hne).symm.trans hlookup)
        ((didClose_touches h.orderly named).trees uri hne))
    | shutdown => exact nomatch hlookup
  | configured v => exact .inl (continues_of_treeFor? hlookup rfl)
  | worked j a ha =>
    refine .inl ⟨hlookup, fun tree htree => ?_⟩
    obtain ⟨i, hget, htree⟩ := Option.bind_eq_some_iff.1 htree
    obtain ⟨found, hfound, hserves⟩ := h.served uri i hget
    obtain rfl := Option.some.inj (hfound.symm.trans hlookup)
    rcases hserves.tree?_act parser j a with hsame | ⟨live, items, hlive, hnow⟩
    · exact .inl (Option.bind_eq_some_iff.2 ⟨i, hget, hsame.symm.trans htree⟩)
    · exact .inr ⟨live, items, Option.bind_eq_some_iff.2 ⟨found, hfound, hlive⟩,
        Option.some.inj (htree.symm.trans hnow)⟩

/-! ## Runs -/

/-- The server after all these events. -/
def after (settings : Settings) (events : List Event) : Server :=
  events.foldl hear (create settings)

variable {settings : Settings}

theorem after_concat (settings : Settings) (events : List Event) (e : Event) :
    after settings (events ++ [e]) = (after settings events).hear e := by
  simp only [after, List.foldl_append, List.foldl_cons, List.foldl_nil]

theorem sparesAll_append {first rest : List Event} :
    s.SparesAll (first ++ rest) ↔ s.SparesAll first ∧ (first.foldl hear s).SparesAll rest := by
  induction first generalizing s with
  | nil => exact ⟨fun h => ⟨trivial, h⟩, And.right⟩
  | cons e more ih =>
    exact (and_congr Iff.rfl ih).trans and_assoc.symm

theorem after_paired {events : List Event} (h : (create settings).SparesAll events) :
    (after settings events).Paired := by
  induction events using List.reverseRecOn with
  | nil => exact create_paired settings
  | append_singleton first e ih =>
    obtain ⟨hfirst, hlast, -⟩ := sparesAll_append.1 h
    rw [after_concat]
    exact hear_paired (ih hfirst) hlast

theorem after_orderly (settings : Settings) (events : List Event) :
    (after settings events).Orderly := by
  induction events using List.reverseRecOn with
  | nil => exact create_orderly settings
  | append_singleton first e ih =>
    rw [after_concat]
    exact hear_orderly ih e

theorem after_buffers_length (settings : Settings) (first rest : List Event) :
    (after settings first).workspace.buffers.length ≤
      (after settings (first ++ rest)).workspace.buffers.length := by
  induction rest using List.reverseRecOn with
  | nil => rw [List.append_nil]
  | append_singleton more e ih =>
    rw [← List.append_assoc, after_concat]
    exact ih.trans (hear_buffers_length (after_orderly settings _) e)

theorem after_accounts {first : List Event} {name : String}
    (hget : (after settings first).registry.get? name = some i) (rest : List Event) :
    (after settings (first ++ rest)).registry.Accounts (after settings (first ++ rest)).workspace
      name i := by
  induction rest using List.reverseRecOn with
  | nil =>
    rw [List.append_nil]
    exact .inl ⟨hget, (after_orderly settings first).controllers _ (mem_of_lookup hget)⟩
  | append_singleton more e ih =>
    rw [← List.append_assoc, after_concat]
    exact hear_accounts (after_orderly settings _) ih e

/-- The document was opened after the events `before`, in a buffer that no document ever had
until then, and through `later` it has been open in this buffer ever since. -/
structure OpenSince (settings : Settings) (uri : String) (buffer : Nat) (before : List Event)
    (text : Text) (later : List Event) : Prop where
  unopened : (after settings before).documents.lookup uri = none
  unused : ∀ first rest other, before = first ++ rest →
    (after settings first).documents.lookup other ≠ some buffer
  kept : ∀ first rest, later = first ++ rest →
    (after settings (before ++ .notified (.opened uri text) :: first)).documents.lookup uri =
      some buffer

/-- The tree is empty, or the document has shown a snapshot since it was opened, in its buffer
then, of which this is the tree. -/
def ShownSince (settings : Settings) (uri : String) (buffer : Nat) (before : List Event)
    (text : Text) (later : List Event) (tree : Tree) : Prop :=
  tree = .empty ∨ ∃ first rest snapshot items, later = first ++ rest ∧
    (after settings (before ++ .notified (.opened uri text) :: first)).liveSnapshot? uri =
      some snapshot ∧
    snapshot.origin = .buffer buffer ∧ tree = .parsed snapshot items

variable {before later : List Event} {text : Text} {tree : Tree} {e : Event}

theorem openSince_new
    (hnone : (after settings before).documents.lookup uri = none)
    (hbuffer : buffer = (after settings before).workspace.buffers.length)
    (hlookup : (after settings (before ++ [.notified (.opened uri text)])).documents.lookup uri =
      some buffer) : OpenSince settings uri buffer before text [] := by
  refine ⟨hnone, fun first rest other hsplit hother => ?_, fun first rest hsplit => ?_⟩
  · have hlt := (after_orderly settings first).buffers _ (mem_of_lookup hother)
    have hle := after_buffers_length settings first rest
    rw [← hsplit, ← hbuffer] at hle
    exact absurd hlt (Nat.not_lt.2 hle)
  · obtain ⟨rfl, rfl⟩ := List.append_eq_nil_iff.1 hsplit.symm
    exact hlookup

theorem OpenSince.concat (h : OpenSince settings uri buffer before text later)
    (hlookup : (after settings
      (before ++ .notified (.opened uri text) :: (later ++ [e]))).documents.lookup uri =
        some buffer) : OpenSince settings uri buffer before text (later ++ [e]) := by
  refine ⟨h.unopened, h.unused, fun first rest hsplit => ?_⟩
  rcases List.eq_nil_or_concat rest with rfl | ⟨more, last, rfl⟩
  · rw [List.append_nil] at hsplit
    rw [← hsplit]
    exact hlookup
  · rw [List.concat_eq_append, ← List.append_assoc] at hsplit
    exact h.kept first more (List.append_inj_left' hsplit rfl)

theorem ShownSince.concat (h : ShownSince settings uri buffer before text later tree) :
    ShownSince settings uri buffer before text (later ++ [e]) tree := by
  rcases h with hempty | ⟨first, rest, snapshot, items, rfl, hshown⟩
  · exact .inl hempty
  · exact .inr ⟨first, rest ++ [e], snapshot, items, List.append_assoc .., hshown⟩

/-- A document that is open was opened at some time, and what its tree has was shown since
then. -/
theorem exists_openSince {events : List Event} (hspares : (create settings).SparesAll events)
    (hlookup : (after settings events).documents.lookup uri = some buffer) :
    ∃ before text later, events = before ++ .notified (.opened uri text) :: later ∧
      OpenSince settings uri buffer before text later ∧
      ∀ tree, (after settings events).treeFor? uri = some tree →
        ShownSince settings uri buffer before text later tree := by
  induction events using List.reverseRecOn generalizing buffer with
  | nil => exact nomatch hlookup
  | append_singleton events e ih =>
    have hfirst := (sparesAll_append.1 hspares).1
    have hpaired := after_paired hfirst
    have hhear := hlookup
    rw [after_concat] at hhear
    rcases hear_document hpaired hhear with ⟨hbefore, htree⟩ | ⟨hnone, hbuffer, ⟨text, rfl⟩, htree⟩
    · obtain ⟨before, text, later, rfl, hopen, hshown⟩ := ih hfirst hbefore
      rw [List.append_assoc, List.cons_append] at hlookup
      refine ⟨before, text, later ++ [e], List.append_assoc .., hopen.concat hlookup,
        fun tree hnow => ?_⟩
      rw [after_concat] at hnow
      rcases htree tree hnow with hkept | ⟨live, items, hlive, rfl⟩
      · exact (hshown tree hkept).concat
      · have horigin := hpaired.genuine.origins buffer live
          ((Option.bind_eq_some_iff.1 hlive).elim fun found hfound =>
            Option.some.inj (hfound.1.symm.trans hbefore) ▸ hfound.2)
        exact .inr ⟨later, [e], live, items, rfl, hlive, horigin, rfl⟩
    · refine ⟨events, text, [], rfl, openSince_new hnone hbuffer hlookup,
        fun tree hnow => .inl ?_⟩
      rw [after_concat, htree] at hnow
      exact (Option.some.inj hnow).symm

/-- However documents are opened, changed and closed, and whatever parses are in flight: the
same documents have buffers and controllers.  Every registered controller is open and attached
to the buffer of its document, and one that was registered before and is not any more is
closed.  The tree of a document is empty or comes from what it has shown since it was opened
last, in the buffer that it got then. -/
theorem paired_of_run (settings : Settings) (events : List Event)
    (hspares : (create settings).SparesAll events) :
    let s := after settings events
    s.registry.controllers.map Prod.fst = s.documents.map Prod.fst ∧
      (∀ uri i, s.registry.get? uri = some i →
        ∃ buffer, s.documents.lookup uri = some buffer ∧ s.workspace.Serves i buffer) ∧
      (∀ first rest uri i, events = first ++ rest →
        (after settings first).registry.get? uri = some i →
        s.registry.get? uri ≠ some i → s.workspace.Closed i) ∧
      ∀ uri tree, s.treeFor? uri = some tree →
        ∃ buffer before text later, s.documents.lookup uri = some buffer ∧
          events = before ++ .notified (.opened uri text) :: later ∧
          OpenSince settings uri buffer before text later ∧
          ShownSince settings uri buffer before text later tree := by
  intro s
  have hpaired : s.Paired := after_paired hspares
  refine ⟨hpaired.orderly.names, hpaired.served, ?_, fun uri tree htree => ?_⟩
  · rintro first rest uri i rfl hget hgone
    rcases after_accounts hget rest with ⟨hkept, -⟩ | hclosed
    · exact absurd hkept hgone
    · exact hclosed
  · obtain ⟨i, hget, -⟩ := Option.bind_eq_some_iff.1 htree
    obtain ⟨buffer, hlookup, -⟩ := hpaired.served uri i hget
    obtain ⟨before, text, later, hsplit, hopen, hshown⟩ := exists_openSince hspares hlookup
    exact ⟨buffer, before, text, later, hlookup, hsplit, hopen, hshown tree htree⟩

/-- A document is closed while a parse of it is under way, and opened again.  The old parse ends
after that, with the version that the new buffer has. -/
theorem paired_of_run_reopened :
    let events : List Event :=
      [.notified (.opened "a" ['x', '{', '}']), .worked 0 (.advance 0) rfl,
        .worked 0 (.advance 0) rfl, .notified (.closed "a"), .worked 0 .release rfl,
        .notified (.opened "a" ['y', '{', '}']), .worked 1 (.advance 0) rfl,
        .worked 1 (.advance 0) rfl, .worked 0 (.advance 0) rfl, .worked 1 (.advance 0) rfl,
        .notified (.opened "a" ['z', '{', '}'])]
    let s := after .standard events
    (create .standard).SparesAll events ∧ s.documents = [("a", 1)] ∧
      s.registry.controllers.map Prod.fst = ["a"] ∧ s.workspace.Serves 1 1 ∧
      s.workspace.Closed 0 ∧ ∃ tree, s.treeFor? "a" = some tree ∧
        tree.snapshot? = some ⟨0, .buffer 1, ['y', '{', '}']⟩ ∧
        ∃ before text later, events = before ++ .notified (.opened "a" text) :: later ∧
          OpenSince .standard "a" 1 before text later ∧
          ShownSince .standard "a" 1 before text later tree := by
  intro events s
  have hspares : (create .standard).SparesAll events := by decide +kernel
  obtain ⟨hnames, hserved, hclosed, htrees⟩ := paired_of_run .standard events hspares
  have hdocuments : s.documents = [("a", 1)] := by decide +kernel
  have hlookup : s.documents.lookup "a" = some 1 := by decide +kernel
  have hget : s.registry.get? "a" = some 1 := by decide +kernel
  have hbefore : (after .standard (events.take 1)).registry.get? "a" = some 0 := by decide +kernel
  have hsnapshot : (s.treeFor? "a").map Tree.snapshot? =
      some (some ⟨0, .buffer 1, ['y', '{', '}']⟩) := by decide +kernel
  refine ⟨hspares, hdocuments, hnames.trans (congrArg _ hdocuments), ?_,
    hclosed _ (events.drop 1) "a" 0 rfl hbefore (by decide +kernel), ?_⟩
  · obtain ⟨buffer, hbuffer, hserves⟩ := hserved "a" 1 hget
    rwa [← Option.some.inj (hlookup.symm.trans hbuffer)] at hserves
  · obtain ⟨tree, htree, htaken⟩ := Option.map_eq_some_iff.1 hsnapshot
    obtain ⟨buffer, before, text, later, hbuffer, hsince⟩ := htrees "a" tree htree
    rw [← Option.some.inj (hlookup.symm.trans hbuffer)] at hsince
    exact ⟨tree, htree, htaken, before, text, later, hsince⟩

end Server
end LiveSheet
