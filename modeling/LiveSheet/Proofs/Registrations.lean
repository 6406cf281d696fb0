import LiveSheet.Proofs.Pairing

/-!
# Registries in use

A registry hands out one open controller for each name at most.  Once a name is given up, the
controllers that were handed out for it are closed for good and are not handed out again,
whatever is registered afterwards.
-/

namespace LiveSheet

namespace Workspace

variable {w : Workspace} {i : Nat} {Q : Controller → Prop}

def Open (w : Workspace) (i : Nat) : Prop := w.Has i fun c => c.closed = false

theorem Closed.not_open (h : w.Closed i) : ¬w.Open i := by
  obtain ⟨c, hc, hclosed⟩ := h
  rintro ⟨c', hc', hopen⟩
  rw [hc, Option.some.injEq] at hc'
  rw [hc', hopen] at hclosed
  exact nomatch hclosed

/-- A controller that is attached to a buffer comes after all that there are.  Nothing else
changes but that the buffer has one more stream. -/
theorem attach_cases (w : Workspace) {buffer : Nat} (h : buffer < w.buffers.length)
    (options : ControllerOptions) :
    ∃ b next c effects, w.buffers[buffer]? = some b ∧ next.live = b.live ∧ c.buffer = b.id ∧
      c.closed = false ∧ c.held = true ∧ c.options = options ∧
      w.attach buffer options =
        (⟨w.buffers.set buffer next, w.controllers ++ [c]⟩, effects) := by
  have hb : w.buffers[buffer]? = some w.buffers[buffer] := List.getElem?_eq_getElem h
  refine ⟨w.buffers[buffer], (Session.attach w.buffers[buffer] options).1.buffer,
    (Session.attach w.buffers[buffer] options).1.controller,
    (Session.attach w.buffers[buffer] options).2, hb, rfl, rfl, rfl, rfl, rfl, ?_⟩
  simp only [attach, hb]

end Workspace

/-- A way to get a buffer for a new controller.  It may do anything to the buffers; it gives one
that is there and leaves the controllers alone. -/
structure BufferSource where
  make : Workspace → Nat × Workspace
  present : ∀ w, (make w).1 < (make w).2.buffers.length
  controllers : ∀ w, (make w).2.controllers = w.controllers

namespace Registry

variable {r : Registry} {w : Workspace} {name : String} {i : Nat} {Q : Controller → Prop}

/-- A new controller, registered under a name with the options of the registry.  It is attached
to the buffer that the source gives. -/
structure Attaches (r : Registry) (w : Workspace) (name : String) (source : BufferSource)
    (out : Attachment) : Prop where
  created : out.created = true
  number : out.controller = w.controllers.length
  registry : out.registry =
    { r with controllers := r.controllers ++ [(name, w.controllers.length)] }
  texts : ∀ buffer, out.workspace.live? buffer = (source.make w).2.live? buffer
  controller : ∃ c b, out.workspace.controllers = w.controllers ++ [c] ∧
    (source.make w).2.buffers[(source.make w).1]? = some b ∧ c.buffer = b.id ∧
    c.closed = false ∧ c.held = true ∧ c.options = r.options

theorem getOrAttach_of_some (h : r.get? name = some i) (makeBuffer : Workspace → Nat × Workspace) :
    r.getOrAttach w name makeBuffer = ⟨r, w, i, false, []⟩ := by
  simp only [getOrAttach, h]

theorem getOrAttach_of_none (h : r.get? name = none) (w : Workspace) (source : BufferSource) :
    r.Attaches w name source (r.getOrAttach w name source.make) := by
  obtain ⟨b, next, c, effects, hb, hlive, hbuffer, hopen, hheld, hoptions, hattach⟩ :=
    (source.make w).2.attach_cases (source.present w) r.options
  have hout : r.getOrAttach w name source.make =
      ⟨{ r with controllers := r.controllers ++ [(name, w.controllers.length)] },
        ⟨(source.make w).2.buffers.set (source.make w).1 next, w.controllers ++ [c]⟩,
        w.controllers.length, true, effects⟩ := by
    simp only [getOrAttach, h, hattach, source.controllers]
  rw [hout]
  refine ⟨rfl, rfl, rfl, fun buffer => ?_, c, b, rfl, hb, hbuffer, hopen, hheld, hoptions⟩
  unfold Workspace.live?
  by_cases hsame : (source.make w).1 = buffer
  · subst hsame
    rw [List.getElem?_set_self (source.present w), hb, Option.map_some, Option.map_some, hlive]
  · rw [List.getElem?_set_ne hsame]

theorem has_close (h : w.Has i Q) (r : Registry) (hclose : ∀ c, Q c → Q c.close) (name : String) :
    (r.close w name).2.Has i Q := by
  unfold close
  split
  · exact h
  · exact h.close fun _ => hclose

theorem has_shutdown (h : w.Has i Q) (r : Registry) (hclose : ∀ c, Q c → Q c.close) :
    (r.shutdown w).2.Has i Q :=
  shutdown_invariant (P := fun _ next => next.Has i Q) h
    fun r _ name hkept => has_close hkept r hclose name

theorem shutdown_options (r : Registry) (w : Workspace) :
    (r.shutdown w).1.options = r.options := by
  refine shutdown_invariant (P := fun next _ => next.options = r.options) rfl
    fun next w name hkept => ?_
  unfold close
  split <;> exact hkept

/-- What the users of a registry do, and what goes on in the sessions of the controllers
meanwhile.  Whoever has a controller may also close it or let go of it. -/
inductive Operation where
  | getOrAttach (name : String) (source : BufferSource)
  | get (name : String)
  | close (name : String)
  | shutdown
  | setOptions (options : ControllerOptions)
  | worked (controller : Nat) (a : Session.Action)

/-- The operation takes away what is registered under the name. -/
def Operation.GivesUp (o : Operation) (name : String) : Prop := o = .close name ∨ o = .shutdown

/-- A registry in use: its workspace, and the controllers that it has handed out so far, each
with the name that it was asked for. -/
structure InUse where
  registry : Registry
  workspace : Workspace
  handed : List (String × Nat)

namespace InUse

def start (options : ControllerOptions) (w : Workspace) : InUse := ⟨.create options, w, []⟩

def perform (parser : Parser) (u : InUse) : Operation → InUse
  | .getOrAttach name source =>
    let out := u.registry.getOrAttach u.workspace name source.make
    ⟨out.registry, out.workspace, u.handed ++ [(name, out.controller)]⟩
  | .get name =>
    { u with handed := u.handed ++ ((u.registry.get? name).map fun i => (name, i)).toList }
  | .close name =>
    let (registry, workspace) := u.registry.close u.workspace name
    ⟨registry, workspace, u.handed⟩
  | .shutdown =>
    let (registry, workspace) := u.registry.shutdown u.workspace
    ⟨registry, workspace, u.handed⟩
  | .setOptions options => { u with registry := u.registry.setOptions options }
  | .worked controller a => { u with workspace := (u.workspace.act parser controller a).1 }

/-- A registry after all these operations, which began in the workspace `w`. -/
def after (parser : Parser) (options : ControllerOptions) (w : Workspace)
    (operations : List Operation) : InUse :=
  operations.foldl (perform parser) (start options w)

/-- The options for new controllers after these operations. -/
def inForce (options : ControllerOptions) (operations : List Operation) : ControllerOptions :=
  operations.foldl
    (fun chosen operation =>
      match operation with
      | .setOptions options => options
      | _ => chosen)
    options

variable {parser : Parser} {u : InUse} {name : String} {i : Nat} {Q : Controller → Prop}

/-! ## One operation -/

/-- What closing and all actions keep of a controller, every operation keeps. -/
theorem perform_has (h : u.workspace.Has i Q) (hclose : ∀ c, Q c → Q c.close)
    (hact : ∀ b c a, Q c → Q (Session.act parser ⟨b, c⟩ a).1.controller) (o : Operation) :
    (u.perform parser o).workspace.Has i Q := by
  cases o with
  | getOrAttach name source =>
    show (u.registry.getOrAttach u.workspace name source.make).workspace.Has i Q
    cases hget : u.registry.get? name with
    | some found =>
      rw [getOrAttach_of_some hget]
      exact h
    | none =>
      obtain ⟨c, -, hcontrollers, -⟩ :=
        (getOrAttach_of_none hget u.workspace source).controller
      have happend := h.append [] c
      unfold Workspace.Has at happend ⊢
      rw [hcontrollers]
      exact happend
  | get name => exact h
  | close name => exact has_close h u.registry hclose name
  | shutdown => exact has_shutdown h u.registry hclose
  | setOptions options => exact h
  | worked j a => exact h.act fun _ b c => hact b c a

theorem mem_perform_close {entry : String × Nat} :
    entry ∈ (u.perform parser (.close name)).registry.controllers ↔
      entry ∈ u.registry.controllers ∧ entry.1 ≠ name := by
  show entry ∈ (u.registry.close u.workspace name).1.controllers ↔ _
  rw [close_controllers, List.mem_filter, bne_iff_ne]

theorem not_mem_perform_shutdown (entry : String × Nat) :
    entry ∉ (u.perform parser .shutdown).registry.controllers := by
  show entry ∉ (u.registry.shutdown u.workspace).1.controllers
  rw [shutdown_controllers]
  exact List.not_mem_nil

/-- What a registry knows of the controllers that it has handed out.  Each of them is still
registered under its name, or it is closed; and no other name has it. -/
structure Orderly (u : InUse) : Prop where
  distinct : (u.registry.controllers.map Prod.snd).Nodup
  known : ∀ entry ∈ u.registry.controllers, entry ∈ u.handed
  own : ∀ entry ∈ u.handed, ∀ other ∈ u.registry.controllers,
    other.2 = entry.2 → other.1 = entry.1
  accounted : ∀ entry ∈ u.handed, u.registry.Accounts u.workspace entry.1 entry.2

theorem start_orderly (options : ControllerOptions) (w : Workspace) :
    (start options w).Orderly :=
  ⟨List.nodup_nil, List.forall_mem_nil _, List.forall_mem_nil _, List.forall_mem_nil _⟩

theorem Orderly.handed_lt (h : u.Orderly) {entry : String × Nat} (hentry : entry ∈ u.handed) :
    entry.2 < u.workspace.controllers.length := by
  rcases h.accounted entry hentry with ⟨-, hlt⟩ | ⟨c, hc, -⟩
  · exact hlt
  · exact (List.getElem?_eq_some_iff.1 hc).1

theorem Orderly.handed_of_get? (h : u.Orderly) (hget : u.registry.get? name = some i) :
    (name, i) ∈ u.handed :=
  h.known _ (mem_of_lookup hget)

/-- Handing out a registered controller once more is nothing new. -/
theorem Orderly.again (h : u.Orderly) {entry : String × Nat} (hentry : entry ∈ u.handed) :
    Orderly { u with handed := u.handed ++ [entry] } := by
  have hmem : ∀ e ∈ u.handed ++ [entry], e ∈ u.handed := by
    intro e he
    rcases List.mem_append.1 he with he | he
    · exact he
    · exact List.mem_singleton.1 he ▸ hentry
  exact ⟨h.distinct, fun e he => List.mem_append_left _ (h.known e he),
    fun e he => h.own e (hmem e he), fun e he => h.accounted e (hmem e he)⟩

theorem Orderly.attaches (h : u.Orderly) (hget : u.registry.get? name = none)
    {source : BufferSource} {out : Attachment}
    (hout : u.registry.Attaches u.workspace name source out) :
    Orderly ⟨out.registry, out.workspace, u.handed ++ [(name, out.controller)]⟩ := by
  obtain ⟨c, -, hcontrollers, -, -, hopen, -⟩ := hout.controller
  have hregistered : ∀ entry ∈ u.registry.controllers,
      entry.2 < u.workspace.controllers.length :=
    fun entry hentry => h.handed_lt (h.known entry hentry)
  have hworkspace : out.workspace = ⟨out.workspace.buffers, u.workspace.controllers ++ [c]⟩ := by
    rw [← hcontrollers]
  rw [hworkspace, hout.registry, hout.number]
  refine ⟨?_, fun entry hentry => ?_, fun entry hentry other hother heq => ?_,
    fun entry hentry => ?_⟩
  · show ((u.registry.controllers ++ [_]).map Prod.snd).Nodup
    rw [List.map_append, List.nodup_append]
    refine ⟨h.distinct, List.nodup_singleton _, fun j hj new hnew heq => ?_⟩
    obtain ⟨entry, hentry, rfl⟩ := List.mem_map.1 hj
    have hlt := hregistered entry hentry
    rw [List.map_singleton, List.mem_singleton] at hnew
    omega
  · rcases List.mem_append.1 hentry with hentry | hentry
    · exact List.mem_append_left _ (h.known entry hentry)
    · exact List.mem_append_right _ hentry
  · rcases List.mem_append.1 hentry with hentry | hentry
    · have hlt := h.handed_lt hentry
      rcases List.mem_append.1 hother with hother | hother
      · exact h.own entry hentry other hother heq
      · rw [List.mem_singleton.1 hother] at heq
        exact absurd heq (Nat.ne_of_gt hlt)
    · rw [List.mem_singleton.1 hentry] at heq ⊢
      rcases List.mem_append.1 hother with hother | hother
      · exact absurd heq (Nat.ne_of_lt (hregistered other hother))
      · rw [List.mem_singleton.1 hother]
  · rcases List.mem_append.1 hentry with hentry | hentry
    · exact (h.accounted entry hentry).append hget _ c
    · rw [List.mem_singleton.1 hentry]
      refine .inl ⟨lookup_concat_self hget, ?_⟩
      rw [List.length_append]
      exact Nat.lt_succ_self _

theorem Orderly.close (h : u.Orderly) (parser : Parser) (name : String) :
    (u.perform parser (.close name)).Orderly := by
  have hmem : ∀ entry ∈ (u.perform parser (.close name)).registry.controllers,
      entry ∈ u.registry.controllers := fun entry hentry => (mem_perform_close.1 hentry).1
  refine ⟨?_, fun entry hentry => h.known entry (hmem entry hentry),
    fun entry hentry other hother => h.own entry hentry other (hmem other hother),
    fun entry hentry => (h.accounted entry hentry).close name⟩
  show ((u.registry.close u.workspace name).1.controllers.map Prod.snd).Nodup
  rw [close_controllers]
  exact h.distinct.sublist (List.filter_sublist.map Prod.snd)

theorem Orderly.shutdown (h : u.Orderly) (parser : Parser) :
    (u.perform parser .shutdown).Orderly := by
  refine ⟨?_, fun entry hentry => absurd hentry (not_mem_perform_shutdown entry),
    fun _ _ other hother => absurd hother (not_mem_perform_shutdown other),
    fun entry hentry => .inr (h.accounted entry hentry).shutdown⟩
  show ((u.registry.shutdown u.workspace).1.controllers.map Prod.snd).Nodup
  rw [shutdown_controllers]
  exact List.nodup_nil

theorem perform_orderly (parser : Parser) (h : u.Orderly) (o : Operation) :
    (u.perform parser o).Orderly := by
  cases o with
  | getOrAttach name source =>
    simp only [perform]
    cases hget : u.registry.get? name with
    | some i =>
      rw [getOrAttach_of_some hget]
      exact h.again (h.handed_of_get? hget)
    | none => exact h.attaches hget (getOrAttach_of_none hget u.workspace source)
  | get name =>
    simp only [perform]
    cases hget : u.registry.get? name with
    | some i => exact h.again (h.handed_of_get? hget)
    | none =>
      simp only [Option.map_none, Option.toList_none, List.append_nil]
      exact h
  | close name => exact h.close parser name
  | shutdown => exact h.shutdown parser
  | setOptions options => exact ⟨h.distinct, h.known, h.own, h.accounted⟩
  | worked j a =>
    refine ⟨h.distinct, h.known, h.own, fun entry hentry => ?_⟩
    rcases h.accounted entry hentry with ⟨hget, -⟩ | hclosed
    · have hpresent : u.workspace.Has entry.2 fun _ => True :=
        ⟨_, List.getElem?_eq_getElem (h.handed_lt hentry), trivial⟩
      have hact : (u.workspace.act parser j a).1.Has entry.2 fun _ => True :=
        hpresent.act fun _ _ _ _ => trivial
      obtain ⟨c, hc, -⟩ := hact
      exact .inl ⟨hget, (List.getElem?_eq_some_iff.1 hc).1⟩
    · exact .inr (hclosed.act parser j a)

/-- A controller that is handed out has been so before, or it was just attached. -/
theorem Orderly.handed_cases (h : u.Orderly) {o : Operation} {entry : String × Nat}
    (hentry : entry ∈ (u.perform parser o).handed) :
    entry ∈ u.handed ∨ ∃ source, o = .getOrAttach entry.1 source ∧
      u.registry.get? entry.1 = none ∧ entry.2 = u.workspace.controllers.length ∧
      (u.perform parser o).workspace.Has entry.2 fun c => c.options = u.registry.options := by
  cases o with
  | getOrAttach name source =>
    rcases List.mem_append.1 hentry with hold | hnew
    · exact .inl hold
    · rw [List.mem_singleton.1 hnew]
      cases hget : u.registry.get? name with
      | some i =>
        rw [getOrAttach_of_some hget]
        exact .inl (h.handed_of_get? hget)
      | none =>
        have hout := getOrAttach_of_none hget u.workspace source
        obtain ⟨c, -, hcontrollers, -, -, -, -, hoptions⟩ := hout.controller
        refine .inr ⟨source, rfl, rfl, hout.number, c, ?_, hoptions⟩
        show (u.registry.getOrAttach u.workspace name source.make).workspace.controllers[_]? = _
        rw [hcontrollers, hout.number, List.getElem?_concat_length]
  | get name =>
    rcases List.mem_append.1 hentry with hold | hnew
    · exact .inl hold
    · obtain ⟨i, hget, rfl⟩ := Option.map_eq_some_iff.1 (Option.mem_toList.1 hnew)
      exact .inl (h.handed_of_get? hget)
  | close name => exact .inl hentry
  | shutdown => exact .inl hentry
  | setOptions options => exact .inl hentry
  | worked j a => exact .inl hentry

/-! ## Controllers that are given up -/

/-- The controller is there, but no name has it any more. -/
def Gone (u : InUse) (i : Nat) : Prop :=
  i < u.workspace.controllers.length ∧ ∀ entry ∈ u.registry.controllers, entry.2 ≠ i

/-- More controllers have been handed out since, and this is none of them. -/
def Withholds (u next : InUse) (i : Nat) : Prop :=
  ∃ later, next.handed = u.handed ++ later ∧ ∀ entry ∈ later, entry.2 ≠ i

theorem withholds_of_eq {next : InUse} (h : next.handed = u.handed) : u.Withholds next i :=
  ⟨[], h.trans (List.append_nil _).symm, List.forall_mem_nil _⟩

theorem Withholds.trans {mid next : InUse} (h : u.Withholds mid i) (h' : mid.Withholds next i) :
    u.Withholds next i := by
  obtain ⟨first, hfirst, hno⟩ := h
  obtain ⟨second, hsecond, hno'⟩ := h'
  exact ⟨first ++ second, by rw [hsecond, hfirst, List.append_assoc],
    List.forall_mem_append.2 ⟨hno, hno'⟩⟩

/-- A controller that is gone is not handed out, and it stays gone. -/
theorem Gone.perform (h : u.Gone i) (parser : Parser) (o : Operation) :
    (u.perform parser o).Gone i ∧ u.Withholds (u.perform parser o) i := by
  obtain ⟨hlt, hnone⟩ := h
  have hpresent : (u.perform parser o).workspace.Has i fun _ => True :=
    perform_has ⟨_, List.getElem?_eq_getElem hlt, trivial⟩ (fun _ _ => trivial)
      (fun _ _ _ _ => trivial) o
  have hlt' : i < (u.perform parser o).workspace.controllers.length := by
    obtain ⟨c, hc, -⟩ := hpresent
    exact (List.getElem?_eq_some_iff.1 hc).1
  have hother : ∀ name j, u.registry.get? name = some j → j ≠ i :=
    fun name j hget => hnone _ (mem_of_lookup hget)
  cases o with
  | getOrAttach name source =>
    simp only [InUse.perform] at hlt' ⊢
    cases hget : u.registry.get? name with
    | some j =>
      rw [getOrAttach_of_some hget]
      exact ⟨⟨hlt, hnone⟩, [(name, j)], rfl, List.forall_mem_singleton.2 (hother name j hget)⟩
    | none =>
      have hout := getOrAttach_of_none hget u.workspace source
      refine ⟨⟨hlt', ?_⟩, [(name, _)], rfl, List.forall_mem_singleton.2 ?_⟩
      · rw [hout.registry]
        exact List.forall_mem_append.2
          ⟨hnone, List.forall_mem_singleton.2 (Nat.ne_of_gt hlt)⟩
      · rw [hout.number]
        exact Nat.ne_of_gt hlt
  | get name =>
    refine ⟨⟨hlt, hnone⟩, _, rfl, fun entry hentry => ?_⟩
    obtain ⟨j, hget, rfl⟩ := Option.map_eq_some_iff.1 (Option.mem_toList.1 hentry)
    exact hother name j hget
  | close name =>
    exact ⟨⟨hlt', fun entry hentry => hnone entry (mem_perform_close.1 hentry).1⟩,
      withholds_of_eq rfl⟩
  | shutdown =>
    exact ⟨⟨hlt', fun entry hentry => absurd hentry (not_mem_perform_shutdown entry)⟩,
      withholds_of_eq rfl⟩
  | setOptions options => exact ⟨⟨hlt, hnone⟩, withholds_of_eq rfl⟩
  | worked j a => exact ⟨⟨hlt', hnone⟩, withholds_of_eq rfl⟩

theorem Orderly.given_up (h : u.Orderly) {o : Operation} (ho : o.GivesUp name)
    (hmem : (name, i) ∈ u.handed) (parser : Parser) :
    (u.perform parser o).workspace.Closed i ∧ (u.perform parser o).Gone i ∧
      (u.perform parser o).handed = u.handed := by
  have horderly := perform_orderly parser h o
  rcases ho with rfl | rfl
  · have hgone : ∀ entry ∈ (u.perform parser (.close name)).registry.controllers,
        entry.2 ≠ i := by
      intro entry hentry heq
      obtain ⟨hregistered, hne⟩ := mem_perform_close.1 hentry
      exact hne (h.own _ hmem entry hregistered heq)
    refine ⟨?_, ⟨horderly.handed_lt hmem, hgone⟩, rfl⟩
    rcases horderly.accounted _ hmem with ⟨hget, -⟩ | hclosed
    · exact absurd rfl (hgone _ (mem_of_lookup hget))
    · exact hclosed
  · exact ⟨(h.accounted _ hmem).shutdown,
      ⟨horderly.handed_lt hmem, fun entry hentry => absurd hentry (not_mem_perform_shutdown entry)⟩,
      rfl⟩

/-! ## Controllers that are registered -/

/-- If the controller is registered, then it is open, and somebody holds it. -/
def Serving (u : InUse) (i : Nat) : Prop :=
  ∀ entry ∈ u.registry.controllers, entry.2 = i →
    u.workspace.Has i fun c => c.closed = false ∧ c.held = true

/-- Only a registry closes the controllers that are registered in it, unless somebody else does
who has one. -/
theorem Serving.perform (h : u.Serving i) (horderly : u.Orderly) (parser : Parser) {o : Operation}
    (ho : ∀ a, o = .worked i a → a.ends = false) : (u.perform parser o).Serving i := by
  intro entry hentry heq
  cases o with
  | getOrAttach name source =>
    simp only [InUse.perform] at hentry ⊢
    cases hget : u.registry.get? name with
    | some j =>
      rw [getOrAttach_of_some hget] at hentry ⊢
      exact h entry hentry heq
    | none =>
      have hout := getOrAttach_of_none hget u.workspace source
      obtain ⟨c, -, hcontrollers, -, -, hopen, hheld, -⟩ := hout.controller
      rw [hout.registry] at hentry
      unfold Workspace.Has
      rw [hcontrollers]
      rcases List.mem_append.1 hentry with hentry | hentry
      · exact (h entry hentry heq).append [] c
      · rw [List.mem_singleton.1 hentry] at heq
        rw [← heq]
        exact ⟨c, List.getElem?_concat_length, hopen, hheld⟩
  | get name => exact h entry hentry heq
  | close name =>
    obtain ⟨hregistered, hne⟩ := mem_perform_close.1 hentry
    have hhas := h entry hregistered heq
    show (u.registry.close u.workspace name).2.Has i _
    unfold Registry.close
    split
    · exact hhas
    · rename_i j hget
      refine hhas.close fun hj => ?_
      exact absurd (horderly.own _ (horderly.handed_of_get? hget) entry hregistered
        (heq.trans hj.symm)) hne
  | shutdown => exact absurd hentry (not_mem_perform_shutdown entry)
  | setOptions options => exact h entry hentry heq
  | worked j a =>
    refine (h entry hentry heq).act fun hj b c ⟨hopen, hheld⟩ => ?_
    obtain ⟨hheld', hclosed⟩ := Session.act_open (s := ⟨b, c⟩) parser hheld
      (ho a (congrArg (Operation.worked · a) hj))
    exact ⟨hclosed.trans hopen, hheld'⟩

/-! ## Runs -/

variable {options : ControllerOptions} {w : Workspace}

theorem after_append (parser : Parser) (options : ControllerOptions) (w : Workspace)
    (first rest : List Operation) :
    after parser options w (first ++ rest) =
      rest.foldl (perform parser) (after parser options w first) :=
  List.foldl_append

theorem after_concat (parser : Parser) (options : ControllerOptions) (w : Workspace)
    (operations : List Operation) (o : Operation) :
    after parser options w (operations ++ [o]) =
      (after parser options w operations).perform parser o :=
  after_append parser options w operations [o]

theorem after_orderly (parser : Parser) (options : ControllerOptions) (w : Workspace)
    (operations : List Operation) : (after parser options w operations).Orderly := by
  induction operations using List.reverseRecOn with
  | nil => exact start_orderly options w
  | append_singleton rest o ih =>
    rw [after_concat]
    exact perform_orderly parser ih o

theorem after_options (parser : Parser) (options : ControllerOptions) (w : Workspace)
    (operations : List Operation) :
    (after parser options w operations).registry.options = inForce options operations := by
  induction operations using List.reverseRecOn with
  | nil => rfl
  | append_singleton rest o ih =>
    rw [after_concat, inForce, List.foldl_append]
    show _ = match o with
      | .setOptions options => options
      | _ => inForce options rest
    rw [← ih]
    cases o with
    | getOrAttach name source =>
      simp only [perform]
      cases hget : (after parser options w rest).registry.get? name with
      | some i => rw [getOrAttach_of_some hget]
      | none => rw [(getOrAttach_of_none hget _ source).registry]
    | close name =>
      show ((after parser options w rest).registry.close _ name).1.options = _
      unfold Registry.close
      split <;> rfl
    | shutdown => exact shutdown_options _ _
    | _ => rfl

theorem after_serving {operations : List Operation}
    (h : ∀ a, .worked i a ∈ operations → a.ends = false) :
    (after parser options w operations).Serving i := by
  induction operations using List.reverseRecOn with
  | nil => exact List.forall_mem_nil _
  | append_singleton rest o ih =>
    rw [after_concat]
    refine (ih fun a ha => h a (List.mem_append_left _ ha)).perform
      (after_orderly parser options w rest) parser fun a ha => ?_
    exact h a (List.mem_append_right _ (List.mem_singleton.2 ha.symm))

/-- Every controller that was handed out was attached at one point of the run.  It has the
options that were in force there. -/
theorem attached_of_handed {operations : List Operation} {entry : String × Nat}
    (hentry : entry ∈ (after parser options w operations).handed) :
    ∃ first source rest, operations = first ++ .getOrAttach entry.1 source :: rest ∧
      (after parser options w first).registry.get? entry.1 = none ∧
      entry.2 = (after parser options w first).workspace.controllers.length ∧
      (after parser options w operations).workspace.Has entry.2
        fun c => c.options = inForce options first := by
  induction operations using List.reverseRecOn with
  | nil => exact absurd hentry List.not_mem_nil
  | append_singleton operations o ih =>
    rw [after_concat] at hentry ⊢
    rcases (after_orderly parser options w operations).handed_cases hentry with
      hold | ⟨source, rfl, hget, hnumber, hoptions⟩
    · obtain ⟨first, source, rest, rfl, hget, hnumber, hoptions⟩ := ih hold
      refine ⟨first, source, rest ++ [o], List.append_assoc .., hget, hnumber, ?_⟩
      exact perform_has hoptions (fun _ h => h)
        (fun b c a h => (Session.act_next parser ⟨b, c⟩ a).options.trans h) o
    · rw [after_options] at hoptions
      exact ⟨operations, source, [], rfl, hget, hnumber, hoptions⟩

/-- What was handed out before its name was given up is closed ever after, and it is not handed
out again. -/
theorem Orderly.run_given_up (h : u.Orderly) {o : Operation} (ho : o.GivesUp name)
    (hmem : (name, i) ∈ u.handed) (parser : Parser) (rest : List Operation) :
    (rest.foldl (perform parser) (u.perform parser o)).workspace.Closed i ∧
      u.Withholds (rest.foldl (perform parser) (u.perform parser o)) i := by
  obtain ⟨hclosed, hgone, hhanded⟩ := h.given_up ho hmem parser
  have hrun : ∀ next : InUse, next.workspace.Closed i → next.Gone i →
      (rest.foldl (perform parser) next).workspace.Closed i ∧
        next.Withholds (rest.foldl (perform parser) next) i := by
    induction rest with
    | nil => exact fun next hclosed _ => ⟨hclosed, withholds_of_eq rfl⟩
    | cons o rest ih =>
      intro next hclosed hgone
      obtain ⟨hgone', hwithholds⟩ := hgone.perform parser o
      have hclosed' : (next.perform parser o).workspace.Closed i :=
        perform_has hclosed (fun _ _ => rfl)
          (fun b c a hc => (Session.act_next parser ⟨b, c⟩ a).closed hc) o
      obtain ⟨hlast, hlater⟩ := ih (next.perform parser o) hclosed' hgone'
      exact ⟨hlast, hwithholds.trans hlater⟩
  obtain ⟨hlast, hlater⟩ := hrun _ hclosed hgone
  exact ⟨hlast, (withholds_of_eq hhanded).trans hlater⟩

/-- One live controller for each name.  However a registry is used and whatever goes on in the
sessions meanwhile: of the controllers that were handed out for a name none is open but the
registered one, and that one is open unless its users have closed it.  A buffer is asked for
exactly if nothing is registered under the name, and otherwise the registered controller is
handed out.  What was handed out before its name was given up is closed ever after and is not
handed out again.  All controllers keep the options that were in force when they were attached. -/
theorem one_live_controller (parser : Parser) (options : ControllerOptions) (w : Workspace)
    (operations : List Operation) :
    let u := after parser options w operations
    (∀ name i, (name, i) ∈ u.handed → u.workspace.Open i → u.registry.get? name = some i) ∧
      (∀ name i, u.registry.get? name = some i →
        (∀ a, .worked i a ∈ operations → a.ends = false) → u.workspace.Open i) ∧
      (∀ name source,
        let out := u.registry.getOrAttach u.workspace name source.make
        match u.registry.get? name with
        | some i => out = ⟨u.registry, u.workspace, i, false, []⟩
        | none => u.registry.Attaches u.workspace name source out) ∧
      (∀ first o rest name i, operations = first ++ o :: rest → o.GivesUp name →
        (name, i) ∈ (after parser options w first).handed →
        u.workspace.Closed i ∧ (after parser options w first).Withholds u i) ∧
      ∀ name i, (name, i) ∈ u.handed →
        ∃ first source rest, operations = first ++ .getOrAttach name source :: rest ∧
          (after parser options w first).registry.get? name = none ∧
          i = (after parser options w first).workspace.controllers.length ∧
          u.workspace.Has i fun c => c.options = inForce options first := by
  intro u
  have horderly : u.Orderly := after_orderly parser options w operations
  refine ⟨fun name i hmem hopen => ?_, fun name i hget hspares => ?_, fun name source => ?_, ?_,
    fun name i hmem => attached_of_handed hmem⟩
  · rcases horderly.accounted _ hmem with ⟨hget, -⟩ | hclosed
    · exact hget
    · exact absurd hopen hclosed.not_open
  · obtain ⟨c, hc, hopen, -⟩ := after_serving hspares _ (mem_of_lookup hget) rfl
    exact ⟨c, hc, hopen⟩
  · cases hget : u.registry.get? name with
    | some i => exact getOrAttach_of_some hget _
    | none => exact getOrAttach_of_none hget _ source
  · rintro first o rest name i rfl hgives hmem
    have hrun := (after_orderly parser options w first).run_given_up hgives hmem parser rest
    have hu : u = rest.foldl (perform parser) ((after parser options w first).perform parser o) :=
      after_append parser options w first (o :: rest)
    rw [hu]
    exact hrun

end InUse
end Registry
end LiveSheet
