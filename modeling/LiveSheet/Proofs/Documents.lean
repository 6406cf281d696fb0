import LiveSheet.Proofs.Client
import Mathlib.Data.List.Nodup

/-!
# Documents of a server

A server that hears its client has the texts that the client shows, whatever goes on in the
background meanwhile, and what it hears of one document changes no other one.
-/

namespace LiveSheet

section Names

variable {α : Type} {entries : List (String × α)} {name other : String} {value : α}

theorem mem_of_lookup (h : entries.lookup name = some value) : (name, value) ∈ entries := by
  obtain ⟨before, after, rfl, -⟩ := List.lookup_eq_some_iff.1 h
  exact List.mem_append_right _ List.mem_cons_self

theorem lookup_eq_none_iff_names :
    entries.lookup name = none ↔ name ∉ entries.map Prod.fst := by
  rw [List.lookup_eq_none_iff, List.mem_map]
  constructor
  · rintro h ⟨entry, hentry, rfl⟩
    exact bne_iff_ne.1 (h entry hentry) rfl
  · intro h entry hentry
    exact bne_iff_ne.2 fun heq => h ⟨entry, hentry, heq.symm⟩

theorem lookup_filter_self : (entries.filter (·.1 != name)).lookup name = none := by
  rw [lookup_eq_none_iff_names, List.mem_map]
  rintro ⟨entry, hentry, rfl⟩
  exact bne_iff_ne.1 (List.mem_filter.1 hentry).2 rfl

theorem lookup_filter_of_ne (h : other ≠ name) :
    (entries.filter (·.1 != name)).lookup other = entries.lookup other := by
  induction entries with
  | nil => rfl
  | cons entry rest ih =>
    obtain ⟨key, value⟩ := entry
    by_cases hkey : key = name
    · subst hkey
      have hne : (other == key) = false := beq_eq_false_iff_ne.2 h
      simp only [List.filter_cons, bne_self_eq_false, Bool.false_eq_true, if_false, ih,
        List.lookup_cons, hne]
    · have hkept : (key != name) = true := bne_iff_ne.2 hkey
      simp only [List.filter_cons, hkept, if_true, List.lookup_cons, ih]

theorem lookup_concat_self (h : entries.lookup name = none) :
    (entries ++ [(name, value)]).lookup name = some value := by
  rw [List.lookup_append, h, Option.none_or, List.lookup_cons, beq_self_eq_true]

theorem lookup_concat_of_ne (h : other ≠ name) :
    (entries ++ [(name, value)]).lookup other = entries.lookup other := by
  have hne : (other == name) = false := beq_eq_false_iff_ne.2 h
  rw [List.lookup_append, List.lookup_cons, hne]
  exact Option.or_none

end Names

namespace Session

/-- No action moves a controller to another buffer. -/
theorem act_home (parser : Parser) (s : Session) (a : Action) :
    (s.act parser a).1.controller.buffer = s.controller.buffer :=
  (act_next parser s a).buffer

theorem act_live_of_quiet (parser : Parser) (s : Session) {a : Action} (ha : a.edits = false) :
    (s.act parser a).1.buffer.live = s.buffer.live := by
  rw [act_live]
  cases a with
  | edit f => exact nomatch ha
  | _ => rfl

end Session

namespace Workspace

theorem live?_edit_self (w : Workspace) (buffer : Nat) (f : Text → Text) :
    ((w.edit buffer f).live? buffer).map Snapshot.shown =
      ((w.live? buffer).map Snapshot.shown).map fun shown =>
        ⟨f shown.text, shown.version + 1⟩ := by
  unfold live? edit
  rw [List.getElem?_modify_eq]
  cases w.buffers[buffer]? <;> rfl

theorem live?_edit_of_ne {w : Workspace} {buffer other : Nat} (h : buffer ≠ other) (f : Text → Text) :
    (w.edit buffer f).live? other = w.live? other := by
  unfold live? edit
  rw [List.getElem?_modify_ne _ _ h]

theorem length_edit (w : Workspace) (buffer : Nat) (f : Text → Text) :
    (w.edit buffer f).buffers.length = w.buffers.length :=
  List.length_modify _ _ _

/-- Nothing but an edit changes what a buffer holds, and nothing at all makes or removes
buffers and controllers in the sessions there are. -/
theorem act_frame (parser : Parser) (w : Workspace) (controller : Nat) {a : Session.Action}
    (ha : a.edits = false) :
    (∀ buffer, (w.act parser controller a).1.live? buffer = w.live? buffer) ∧
      (w.act parser controller a).1.buffers.length = w.buffers.length ∧
      (w.act parser controller a).1.controllers.length = w.controllers.length := by
  unfold act
  split
  · exact ⟨fun _ => rfl, rfl, rfl⟩
  · rename_i s hs
    simp only [session?, Option.bind_eq_bind, Option.pure_def, Option.bind_eq_some_iff,
      Option.some.injEq] at hs
    obtain ⟨c, hc, b, hb, rfl⟩ := hs
    refine ⟨fun buffer => ?_, List.length_set, List.length_set⟩
    show (w.buffers.set _ _)[buffer]?.map Buffer.live = w.buffers[buffer]?.map Buffer.live
    rw [Session.act_home]
    by_cases h : c.buffer = buffer
    · subst h
      obtain ⟨hlt, -⟩ := List.getElem?_eq_some_iff.1 hb
      rw [List.getElem?_set_self hlt, hb, Option.map_some, Option.map_some,
        Session.act_live_of_quiet parser _ ha]
    · rw [List.getElem?_set_ne h]

/-- A buffer with the number `id` and the controller that was just attached to it. -/
structure Fresh (id : Nat) (b : Buffer) (c : Controller) : Prop where
  number : b.id = id
  origin : b.live.origin = .buffer id
  home : c.buffer = id
  tree : c.tree = .empty
  isOpen : c.closed = false
  held : c.held = true

/-- A new buffer with a controller attached to it is added to those there are. -/
theorem attach_createBuffer (w : Workspace) (path : Option String) (text : Text)
    (options : ControllerOptions) :
    ∃ b c effects, b.live.shown = ⟨text, 0⟩ ∧ Fresh w.buffers.length b c ∧
      (w.createBuffer 0 path text).2.attach w.buffers.length options =
        (⟨w.buffers ++ [b], w.controllers ++ [c]⟩, effects) := by
  let b := Buffer.create w.buffers.length 0 path text
  refine ⟨(Session.attach b options).1.buffer, (Session.attach b options).1.controller,
    (Session.attach b options).2, rfl, ⟨rfl, rfl, rfl, rfl, rfl, rfl⟩, ?_⟩
  have hb : (w.buffers ++ [b])[w.buffers.length]? = some b := List.getElem?_concat_length
  show attach ⟨w.buffers ++ [b], w.controllers⟩ w.buffers.length options = _
  simp only [attach, hb]
  rw [List.set_append_right _ _ (Nat.le_refl _), Nat.sub_self]
  rfl

end Workspace

namespace Registry

theorem close_controllers (r : Registry) (w : Workspace) (name : String) :
    (r.close w name).1.controllers = r.controllers.filter (·.1 != name) := by
  unfold close
  split
  · rename_i hget
    rw [List.filter_eq_self.2]
    intro entry hentry
    have hnone := List.lookup_eq_none_iff.1 hget entry hentry
    rw [bne_iff_ne] at hnone ⊢
    exact hnone.symm
  · rfl

/-- Closing a controller changes no text and no tree, and removes nothing from the
workspace. -/
theorem close_frame (r : Registry) (w : Workspace) (name : String) :
    (r.close w name).2.buffers = w.buffers ∧
      (r.close w name).2.controllers.length = w.controllers.length ∧
      ∀ controller, (r.close w name).2.tree? controller = w.tree? controller := by
  unfold close
  split
  · exact ⟨rfl, rfl, fun _ => rfl⟩
  · rename_i c hget
    refine ⟨rfl, List.length_modify _ _ _, fun controller => ?_⟩
    show ((w.controllers.modify c Controller.close)[controller]?).map Controller.tree = _
    rw [List.getElem?_modify]
    show _ = w.controllers[controller]?.map Controller.tree
    cases w.controllers[controller]? with
    | none => rfl
    | some found =>
      simp only [Option.map_eq_map, Option.map_some]
      split <;> rfl

theorem foldl_close_controllers (names : List String) (acc : Registry × Workspace) :
    (names.foldl (fun acc name => acc.1.close acc.2 name) acc).1.controllers =
      acc.1.controllers.filter (! names.contains ·.1) := by
  induction names generalizing acc with
  | nil => exact (List.filter_eq_self.2 fun _ _ => rfl).symm
  | cons name rest ih =>
    rw [List.foldl_cons, ih, close_controllers, List.filter_filter]
    refine List.filter_congr fun entry _ => ?_
    rw [List.contains_cons, Bool.not_or, Bool.and_comm]
    rfl

theorem shutdown_controllers (r : Registry) (w : Workspace) :
    (r.shutdown w).1.controllers = [] := by
  have hshutdown : r.shutdown w =
      (r.controllers.map Prod.fst).foldl (fun acc name => acc.1.close acc.2 name) (r, w) := rfl
  rw [hshutdown, foldl_close_controllers, List.filter_eq_nil_iff]
  intro entry hentry
  have hmem : entry.1 ∈ r.controllers.map Prod.fst := List.mem_map_of_mem hentry
  rw [List.contains_iff_mem.2 hmem]
  exact Bool.false_ne_true

end Registry

namespace Server

/-- What the server has of a document. -/
def shown (s : Server) : Client := fun uri => (s.liveSnapshot? uri).map Snapshot.shown

/-- The open documents have controllers, and buffers of their own. -/
structure Orderly (s : Server) : Prop where
  names : s.registry.controllers.map Prod.fst = s.documents.map Prod.fst
  buffers : ∀ document ∈ s.documents, document.2 < s.workspace.buffers.length
  distinct : (s.documents.map Prod.snd).Nodup
  controllers : ∀ entry ∈ s.registry.controllers, entry.2 < s.workspace.controllers.length

variable {s : Server} {uri other : String}

theorem liveSnapshot?_eq_none_iff (h : s.Orderly) :
    s.liveSnapshot? uri = none ↔ s.documents.lookup uri = none := by
  unfold liveSnapshot? Workspace.live?
  cases hlookup : s.documents.lookup uri with
  | none => simp
  | some buffer =>
    have hlt := h.buffers _ (mem_of_lookup hlookup)
    simp [List.getElem?_eq_getElem hlt]

theorem Orderly.get?_eq_none (h : s.Orderly) (hlookup : s.documents.lookup uri = none) :
    s.registry.get? uri = none := by
  unfold Registry.get?
  rw [lookup_eq_none_iff_names] at hlookup ⊢
  rw [h.names]
  exact hlookup

theorem Orderly.buffer_ne (h : s.Orderly) {buffer next : Nat} (hne : other ≠ uri)
    (hbuffer : s.documents.lookup uri = some buffer)
    (hnext : s.documents.lookup other = some next) : buffer ≠ next := by
  rintro rfl
  have hsame := List.inj_on_of_nodup_map h.distinct (mem_of_lookup hnext)
    (mem_of_lookup hbuffer) rfl
  exact hne (congrArg Prod.fst hsame)

/-! ## Opening -/

/-- The server with one more document, in a buffer and with a controller of its own. -/
def opened (s : Server) (uri : String) (b : Buffer) (c : Controller)
    (messages : List ClientMessage) : Server :=
  { s with
    workspace := ⟨s.workspace.buffers ++ [b], s.workspace.controllers ++ [c]⟩
    documents := s.documents ++ [(uri, s.workspace.buffers.length)]
    registry := { s.registry with
      controllers := s.registry.controllers ++ [(uri, s.workspace.controllers.length)] }
    messages := messages }

/-- A document that is open gets a new text, and one that is not is opened. -/
theorem didOpen_cases (h : s.Orderly) (uri : String) (text : Text) :
    (∃ buffer, s.documents.lookup uri = some buffer ∧
      s.didOpen uri text = { s with workspace := s.workspace.edit buffer fun _ => text }) ∨
    (s.documents.lookup uri = none ∧ ∃ b c messages, b.live.shown = ⟨text, 0⟩ ∧
      Workspace.Fresh s.workspace.buffers.length b c ∧
      s.didOpen uri text = s.opened uri b c messages) := by
  cases hlookup : s.documents.lookup uri with
  | some buffer =>
    refine .inl ⟨buffer, rfl, ?_⟩
    simp only [didOpen, hlookup]
  | none =>
    obtain ⟨b, c, effects, hshown, hfresh, hattach⟩ :=
      s.workspace.attach_createBuffer (pathOf uri) text s.registry.options
    refine .inr ⟨rfl, b, c, s.messages ++ messagesOf effects, hshown, hfresh, ?_⟩
    have hget := h.get?_eq_none hlookup
    have hid : (s.workspace.createBuffer 0 (pathOf uri) text).1 = s.workspace.buffers.length := rfl
    have hcount : (s.workspace.createBuffer 0 (pathOf uri) text).2.controllers =
      s.workspace.controllers := rfl
    simp only [didOpen, hlookup, Registry.getOrAttach, hget, hid, hattach, hcount, opened]

theorem Orderly.opened (h : s.Orderly) (uri : String) (b : Buffer) (c : Controller)
    (messages : List ClientMessage) : (s.opened uri b c messages).Orderly := by
  refine ⟨?_, fun document hdocument => ?_, ?_, fun entry hentry => ?_⟩
  · simp only [Server.opened, List.map_append, h.names, List.map_cons, List.map_nil]
  · show document.2 < (s.workspace.buffers ++ [b]).length
    rw [List.length_append]
    rcases List.mem_append.1 hdocument with hdocument | hdocument
    · exact Nat.lt_add_right _ (h.buffers document hdocument)
    · rw [List.mem_singleton.1 hdocument]
      exact Nat.lt_succ_self _
  · show ((s.documents ++ [(uri, s.workspace.buffers.length)]).map Prod.snd).Nodup
    rw [List.map_append, List.nodup_append]
    refine ⟨h.distinct, List.nodup_singleton _, fun buffer hbuffer new hnew heq => ?_⟩
    obtain ⟨document, hdocument, hsecond⟩ := List.mem_map.1 hbuffer
    have hlt := h.buffers document hdocument
    rw [List.map_singleton, List.mem_singleton] at hnew
    omega
  · show entry.2 < (s.workspace.controllers ++ [c]).length
    rw [List.length_append]
    rcases List.mem_append.1 hentry with hentry | hentry
    · exact Nat.lt_add_right _ (h.controllers entry hentry)
    · rw [List.mem_singleton.1 hentry]
      exact Nat.lt_succ_self _

/-- The server shows one document anew, and has all others and their trees as before. -/
structure Touches (s next : Server) (uri : String) (shown : Option Shown) : Prop where
  orderly : next.Orderly
  here : next.shown uri = shown
  elsewhere : ∀ other, other ≠ uri → next.liveSnapshot? other = s.liveSnapshot? other
  trees : ∀ other, other ≠ uri → next.treeFor? other = s.treeFor? other

theorem Touches.shown_eq {next : Server} {shown : Option Shown} (h : s.Touches next uri shown) :
    next.shown = s.shown.display uri shown := by
  funext other
  unfold Client.display
  split
  · rename_i heq
    rw [heq]
    exact h.here
  · rename_i hne
    exact congrArg (Option.map Snapshot.shown) (h.elsewhere other hne)

theorem shown_eq_none (h : s.documents.lookup uri = none) : s.shown uri = none := by
  simp only [shown, liveSnapshot?, h, Option.bind_none, Option.map_none]

theorem shown_of_lookup {buffer : Nat} (h : s.documents.lookup uri = some buffer) :
    s.shown uri = (s.workspace.live? buffer).map Snapshot.shown := by
  simp only [shown, liveSnapshot?, h, Option.bind_some]

theorem touches_self (h : s.Orderly) (hlookup : s.documents.lookup uri = none) :
    s.Touches s uri none :=
  ⟨h, shown_eq_none hlookup, fun _ _ => rfl, fun _ _ => rfl⟩

theorem edit_touches (h : s.Orderly) {buffer : Nat} (hlookup : s.documents.lookup uri = some buffer)
    (f : Text → Text) :
    s.Touches { s with workspace := s.workspace.edit buffer f } uri
      ((s.shown uri).map fun shown => ⟨f shown.text, shown.version + 1⟩) := by
  refine ⟨⟨h.names, fun document hdocument => ?_, h.distinct, h.controllers⟩, ?_, ?_, ?_⟩
  · rw [Workspace.length_edit]
    exact h.buffers document hdocument
  · rw [shown_of_lookup hlookup, ← Workspace.live?_edit_self]
    exact shown_of_lookup hlookup
  · intro other hne
    cases hother : s.documents.lookup other with
    | none => simp only [liveSnapshot?, hother, Option.bind_none]
    | some next =>
      simp only [liveSnapshot?, hother, Option.bind_some]
      exact Workspace.live?_edit_of_ne (h.buffer_ne hne hlookup hother) f
  · exact fun _ _ => rfl

theorem opened_touches (h : s.Orderly) (hlookup : s.documents.lookup uri = none) {b : Buffer}
    {shown : Shown} (hshown : b.live.shown = shown) (c : Controller)
    (messages : List ClientMessage) :
    s.Touches (s.opened uri b c messages) uri (some shown) := by
  have hdocument : (s.opened uri b c messages).documents.lookup uri =
      some s.workspace.buffers.length := lookup_concat_self hlookup
  refine ⟨h.opened uri b c messages, ?_, fun other hne => ?_, fun other hne => ?_⟩
  · rw [shown_of_lookup hdocument, ← hshown]
    show ((s.workspace.buffers ++ [b])[s.workspace.buffers.length]?.map Buffer.live).map
      Snapshot.shown = _
    rw [List.getElem?_concat_length]
    rfl
  · show ((s.documents ++ [(uri, s.workspace.buffers.length)]).lookup other).bind _ = _
    rw [lookup_concat_of_ne hne]
    refine Option.bind_congr fun buffer hbuffer => ?_
    show (s.workspace.buffers ++ [b])[buffer]?.map Buffer.live = _
    rw [List.getElem?_append_left (h.buffers _ (mem_of_lookup hbuffer))]
    rfl
  · show ((s.registry.controllers ++ [(uri, s.workspace.controllers.length)]).lookup other).bind
      _ = _
    rw [lookup_concat_of_ne hne]
    refine Option.bind_congr fun controller hcontroller => ?_
    show (s.workspace.controllers ++ [c])[controller]?.map Controller.tree = _
    rw [List.getElem?_append_left (h.controllers _ (mem_of_lookup hcontroller))]
    rfl

theorem didOpen_touches (h : s.Orderly) (uri : String) (text : Text) :
    s.Touches (s.didOpen uri text) uri (some ⟨text, (s.shown uri).elim 0 (·.version + 1)⟩) := by
  rcases didOpen_cases h uri text with
    ⟨buffer, hlookup, hopen⟩ | ⟨hlookup, b, c, messages, hshown, -, hopen⟩
  · have hlt := h.buffers _ (mem_of_lookup hlookup)
    have hsome : ∃ shown, s.shown uri = some shown := by
      rw [shown_of_lookup hlookup, Workspace.live?, List.getElem?_eq_getElem hlt]
      exact ⟨_, rfl⟩
    obtain ⟨shown, hshown⟩ := hsome
    have hedit := edit_touches h hlookup fun _ => text
    rw [hopen]
    rw [hshown] at hedit ⊢
    exact hedit
  · rw [hopen, shown_eq_none hlookup]
    exact opened_touches h hlookup hshown c messages

/-! ## Changing and closing -/

theorem didChange_touches (h : s.Orderly) (uri : String) (changes : List ContentChange) :
    s.Touches (s.didChange uri changes) uri
      ((s.shown uri).map fun shown =>
        ⟨changes.foldl ContentChange.apply shown.text, shown.version + 1⟩) := by
  unfold didChange
  cases hlookup : s.documents.lookup uri with
  | none =>
    rw [shown_eq_none hlookup]
    exact touches_self h hlookup
  | some buffer => exact edit_touches h hlookup fun t => changes.foldl ContentChange.apply t

theorem didClose_touches (h : s.Orderly) (uri : String) :
    s.Touches (s.didClose uri) uri none := by
  obtain ⟨hbuffers, hcount, htrees⟩ := s.registry.close_frame s.workspace uri
  have hcontrollers := s.registry.close_controllers s.workspace uri
  refine ⟨⟨?_, ?_, ?_, ?_⟩, ?_, ?_, ?_⟩
  · show ((s.registry.close s.workspace uri).1.controllers).map Prod.fst =
      (s.documents.filter fun d => d.1 != uri).map Prod.fst
    have hfilter : ∀ entries : List (String × Nat),
        (entries.filter (·.1 != uri)).map Prod.fst = (entries.map Prod.fst).filter (· != uri) :=
      fun entries => (List.filter_map (f := Prod.fst) (p := (· != uri))).symm
    rw [hcontrollers, hfilter, hfilter, h.names]
  · intro document hdocument
    show document.2 < (s.registry.close s.workspace uri).2.buffers.length
    rw [hbuffers]
    exact h.buffers document (List.mem_filter.1 hdocument).1
  · exact h.distinct.sublist (List.filter_sublist.map Prod.snd)
  · intro entry hentry
    show entry.2 < (s.registry.close s.workspace uri).2.controllers.length
    rw [hcount]
    rw [show (s.didClose uri).registry.controllers = _ from hcontrollers] at hentry
    exact h.controllers entry (List.mem_filter.1 hentry).1
  · exact shown_eq_none lookup_filter_self
  · intro other hne
    show ((s.documents.filter fun d => d.1 != uri).lookup other).bind
      (s.registry.close s.workspace uri).2.live? = _
    rw [lookup_filter_of_ne hne]
    unfold liveSnapshot? Workspace.live?
    rw [hbuffers]
  · intro other hne
    show ((s.registry.close s.workspace uri).1.controllers.lookup other).bind
      (s.registry.close s.workspace uri).2.tree? = _
    rw [hcontrollers, lookup_filter_of_ne hne, funext htrees]
    rfl

theorem shutdown_orderly (s : Server) : s.shutdown.Orderly := by
  have hcontrollers : s.shutdown.registry.controllers = [] :=
    s.registry.shutdown_controllers s.workspace
  refine ⟨?_, List.forall_mem_nil _, List.nodup_nil, ?_⟩
  · rw [hcontrollers]
    rfl
  · rw [hcontrollers]
    exact List.forall_mem_nil _

/-! ## Runs -/

theorem hear_orderly (h : s.Orderly) (e : Event) : (s.hear e).Orderly := by
  cases e with
  | notified n =>
    cases n with
    | opened uri text => exact (didOpen_touches h uri text).orderly
    | changed uri changes => exact (didChange_touches h uri changes).orderly
    | closed uri => exact (didClose_touches h uri).orderly
    | shutdown => exact s.shutdown_orderly
  | configured v => exact ⟨h.names, h.buffers, h.distinct, h.controllers⟩
  | worked controller a ha =>
    obtain ⟨-, hbuffers, hcontrollers⟩ := s.workspace.act_frame parser controller ha
    refine ⟨h.names, fun document hdocument => ?_, h.distinct, fun entry hentry => ?_⟩
    · show document.2 < (s.workspace.act parser controller a).1.buffers.length
      rw [hbuffers]
      exact h.buffers document hdocument
    · show entry.2 < (s.workspace.act parser controller a).1.controllers.length
      rw [hcontrollers]
      exact h.controllers entry hentry

/-- A server that has what its client shows and hears what happens has what the client shows
then. -/
theorem hear_shown (h : s.Orderly) {e : Event} (hpermits : s.shown.Permits e) :
    (s.hear e).Orderly ∧ (s.hear e).shown = s.shown.hear e := by
  refine ⟨hear_orderly h e, ?_⟩
  cases e with
  | notified n =>
    cases n with
    | opened uri text => exact (didOpen_touches h uri text).shown_eq
    | changed uri changes =>
      have hmade : (s.shown uri).map (fun shown =>
          (⟨changes.foldl ContentChange.apply shown.text, shown.version + 1⟩ : Shown)) =
          (s.shown uri).map fun shown =>
            ⟨changes.foldl ContentChange.made shown.text, shown.version + 1⟩ := by
        refine Option.map_congr fun shown hshown => ?_
        rw [ContentChange.foldl_apply_eq_made (hpermits shown hshown)]
      refine (didChange_touches h uri changes).shown_eq.trans ?_
      exact congrArg (s.shown.display uri) hmade
    | closed uri => exact (didClose_touches h uri).shown_eq
    | shutdown => rfl
  | configured v => rfl
  | worked controller a ha =>
    funext uri
    show ((s.documents.lookup uri).bind (s.workspace.act parser controller a).1.live?).map _ = _
    rw [funext (s.workspace.act_frame parser controller ha).1]
    rfl

theorem hearAll_shown (h : s.Orderly) {events : List Event} (hpermits : s.shown.PermitsAll events) :
    (events.foldl hear s).Orderly ∧
      (events.foldl hear s).shown = events.foldl Client.hear s.shown := by
  induction events generalizing s with
  | nil => exact ⟨h, rfl⟩
  | cons e rest ih =>
    obtain ⟨horderly, hshown⟩ := hear_shown h hpermits.1
    have hrest := hpermits.2
    rw [← hshown] at hrest
    rw [List.foldl_cons, List.foldl_cons, ← hshown]
    exact ih horderly hrest

theorem create_orderly (settings : Settings) : (create settings).Orderly :=
  ⟨rfl, List.forall_mem_nil _, List.nodup_nil, List.forall_mem_nil _⟩

theorem notify_touches (h : s.Orderly) {n : Notification} (hn : n.uri? = some uri) :
    ∃ shown, s.Touches (s.notify n) uri shown := by
  cases n with
  | opened named text =>
    cases hn
    exact ⟨_, didOpen_touches h uri text⟩
  | changed named changes =>
    cases hn
    exact ⟨_, didChange_touches h uri changes⟩
  | closed named =>
    cases hn
    exact ⟨_, didClose_touches h uri⟩
  | shutdown => exact nomatch hn

/-- After all that can happen, a server has exactly the documents that its client shows, with
their texts and versions.  A change of a document that is not open does nothing, and what
comes next for one document leaves all others and their trees alone. -/
theorem shown_of_run (settings : Settings) (events : List Event)
    (hpermits : Client.empty.PermitsAll events) :
    let s := events.foldl hear (create settings)
    let client := events.foldl Client.hear Client.empty
    (∀ uri, (s.liveSnapshot? uri).map Snapshot.shown = client uri) ∧
      (∀ uri changes, client uri = none → s.didChange uri changes = s) ∧
      ∀ n uri, n.uri? = some uri → ∀ other, other ≠ uri →
        (s.notify n).liveSnapshot? other = s.liveSnapshot? other ∧
          (s.notify n).treeFor? other = s.treeFor? other := by
  intro s client
  obtain ⟨horderly, hshown⟩ := hearAll_shown (create_orderly settings) hpermits
  refine ⟨fun uri => congrFun hshown uri, fun uri changes hnone => ?_, ?_⟩
  · have hclosed : s.liveSnapshot? uri = none := by
      rw [← Option.map_eq_none_iff (f := Snapshot.shown)]
      exact (congrFun hshown uri).trans hnone
    rw [liveSnapshot?_eq_none_iff horderly] at hclosed
    unfold didChange
    rw [hclosed]
  · intro n uri hn other hne
    obtain ⟨shown, htouches⟩ := notify_touches horderly hn
    exact ⟨htouches.elsewhere other hne, htouches.trees other hne⟩

/-- Two documents.  The changes of the first one split a line break, join it again and go on
in the line after it, and the second one is closed and opened again. -/
theorem shown_of_run_split_break :
    let events : List Event :=
      [.notified (.opened "file:///a" ['x', '\r', '\n', 'y']), .notified (.opened "b" ['k']),
        .worked 0 (.advance 0) rfl,
        .notified (.changed "file:///a"
          [.range ⟨0, 2⟩ ⟨0, 2⟩ ['!'], .range ⟨1, 0⟩ ⟨1, 1⟩ [], .range ⟨1, 0⟩ ⟨1, 1⟩ ['z']]),
        .notified (.changed "c" [.whole ['?']]), .notified (.changed "b" []),
        .notified (.closed "b"), .worked 1 .listen rfl, .notified (.opened "b" []),
        .notified (.opened "b" ['l'])]
    let s := events.foldl hear (create .standard)
    Client.empty.PermitsAll events ∧
      (s.liveSnapshot? "file:///a").map Snapshot.shown = some ⟨['x', '\r', '\n', 'z'], 1⟩ ∧
      (s.liveSnapshot? "b").map Snapshot.shown = some ⟨['l'], 1⟩ ∧
      s.liveSnapshot? "c" = none ∧ s.didChange "c" [.whole ['?']] = s ∧
      (s.didClose "b").treeFor? "file:///a" = s.treeFor? "file:///a" := by
  intro events s
  have hpermits : Client.empty.PermitsAll events := by decide +kernel
  obtain ⟨hshown, hunopened, helsewhere⟩ := shown_of_run .standard events hpermits
  refine ⟨hpermits, (hshown _).trans (by decide +kernel), (hshown _).trans (by decide +kernel),
    ?_, hunopened "c" _ (by decide +kernel),
    (helsewhere (.closed "b") "b" rfl "file:///a" (by decide)).2⟩
  exact Option.map_eq_none_iff.1 ((hshown "c").trans (by decide +kernel))

end Server
end LiveSheet
