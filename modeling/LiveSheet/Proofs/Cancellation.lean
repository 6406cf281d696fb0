import LiveSheet.Cancellation
import LiveSheet.Proofs.Streams
import Mathlib.Data.List.Induction

/-!
# Cancellation

Once a token asks its work to stop, it never takes that back.  The scopes that are cancelled only
become more, and a snapshot that is not live any more never is again: versions only rise, and
whatever was not made by the buffer is not made live by an edit.
-/

namespace LiveSheet
namespace Oversight

/-- A buffer and its tokens after a run. -/
def after (b : Buffer) (actions : List Action) : Oversight :=
  actions.foldl act (start b)

/-- The snapshot that an action makes a token for. -/
def Action.target? : Action → Option Snapshot
  | onBuffer _ => none
  | bindToken target _ => some target
  | detachToken target => some target
  | cancel _ => none

/-- Somebody can have this snapshot after a run: the buffer has issued it by then, or it does not
come from the buffer at all. -/
def AtHand (b : Buffer) (actions : List Action) (s : Snapshot) : Prop :=
  s.origin ≠ .buffer b.id ∨ ∃ past, past <+: actions ∧ s = (after b past).buffer.live

/-- Tokens are made only for snapshots that somebody can have at that moment. -/
def Genuine (b : Buffer) (actions : List Action) : Prop :=
  ∀ past a, past ++ [a] <+: actions → ∀ target, a.target? = some target → AtHand b past target

/-- A snapshot that is not live and cannot become live by an edit. -/
structure Outdated (o : Oversight) (s : Snapshot) : Prop where
  ne_live : s ≠ o.buffer.live
  older : s.origin = .buffer o.buffer.id → s.version < o.buffer.live.version

variable {b : Buffer} {o : Oversight} {a : Action} {s : Snapshot} {t : CancelToken}
  {actions first later : List Action}

theorem after_concat (b : Buffer) (actions : List Action) (a : Action) :
    after b (actions ++ [a]) = (after b actions).act a := by
  rw [after, List.foldl_append]
  rfl

/-- What every action preserves is preserved by every run. -/
theorem after_append_of_act (P : Oversight → Prop) (hact : ∀ o a, P o → P (o.act a))
    (h : P (after b first)) (later : List Action) : P (after b (first ++ later)) := by
  induction later using List.reverseRecOn with
  | nil =>
    rw [List.append_nil]
    exact h
  | append_singleton later a ih =>
    rw [← List.append_assoc, after_concat]
    exact hact _ a ih

/-! ## The live snapshot -/

/-- What happens to the tokens leaves the live snapshot alone, and so does what happens to the
buffer unless it is an edit. -/
theorem act_live_cases (o : Oversight) (a : Action) :
    (o.act a).buffer.id = o.buffer.id ∧
      ((o.act a).buffer.live = o.buffer.live ∨
        ∃ text, (o.act a).buffer.live = ⟨o.buffer.live.version + 1, .buffer o.buffer.id, text⟩) := by
  cases a with
  | onBuffer a =>
    show (o.buffer.act a).1.id = _ ∧ ((o.buffer.act a).1.live = _ ∨
      ∃ text, (o.buffer.act a).1.live = _)
    rcases Buffer.act_cases o.buffer a with ⟨f, hact⟩ | ⟨hlive, hid, -⟩
    · rw [hact]
      exact ⟨rfl, .inr ⟨f o.buffer.live.text, rfl⟩⟩
    · exact ⟨hid, .inl hlive⟩
  | bindToken => exact ⟨rfl, .inl rfl⟩
  | detachToken => exact ⟨rfl, .inl rfl⟩
  | cancel => exact ⟨rfl, .inl rfl⟩

theorem Outdated.act (h : Outdated o s) (a : Action) : Outdated (o.act a) s := by
  obtain ⟨hid, hlive | ⟨text, hlive⟩⟩ := act_live_cases o a
  · constructor
    · rw [hlive]
      exact h.ne_live
    · rw [hlive, hid]
      exact h.older
  · -- the new snapshot is one of the buffer, with a version that none of them had before
    constructor
    · intro heq
      have horigin : s.origin = .buffer o.buffer.id := by rw [heq, hlive]
      have hversion : s.version = o.buffer.live.version + 1 := by rw [heq, hlive]
      have hlt := h.older horigin
      omega
    · intro horigin
      rw [hid] at horigin
      have hlt := h.older horigin
      rw [hlive]
      exact Nat.lt_succ_of_lt hlt

/-- A snapshot that is live stays live, or it is outdated by an edit. -/
theorem live_act (h : s = o.buffer.live) (a : Action) :
    s = (o.act a).buffer.live ∨ Outdated (o.act a) s := by
  obtain ⟨hid, hlive | ⟨text, hlive⟩⟩ := act_live_cases o a
  · left
    rw [hlive, h]
  · right
    have hversion : s.version < (o.act a).buffer.live.version := by
      rw [hlive, h]
      exact Nat.lt_succ_self _
    constructor
    · intro heq
      rw [← heq] at hversion
      exact Nat.lt_irrefl _ hversion
    · exact fun _ => hversion

theorem live_or_outdated_act (h : s = o.buffer.live ∨ Outdated o s) (a : Action) :
    s = (o.act a).buffer.live ∨ Outdated (o.act a) s := by
  cases h with
  | inl hlive => exact live_act hlive a
  | inr hold => exact .inr (hold.act a)

/-- Over a run an outdated snapshot stays outdated. -/
theorem Outdated.after (h : Outdated (after b first) s) (later : List Action) :
    Outdated (after b (first ++ later)) s :=
  after_append_of_act (fun o => Outdated o s) (fun _ a hold => hold.act a) h later

theorem live_or_outdated_after (past more : List Action) :
    (after b past).buffer.live = (after b (past ++ more)).buffer.live ∨
      Outdated (after b (past ++ more)) (after b past).buffer.live :=
  after_append_of_act
    (fun o => (after b past).buffer.live = o.buffer.live ∨ Outdated o (after b past).buffer.live)
    (fun _ a h => live_or_outdated_act h a) (.inl rfl) more

theorem after_id (b : Buffer) (actions : List Action) : (after b actions).buffer.id = b.id := by
  induction actions using List.reverseRecOn with
  | nil => rfl
  | append_singleton actions a ih =>
    rw [after_concat, (act_live_cases _ a).1, ih]

/-- A snapshot that somebody has is live, or it never will be again. -/
theorem AtHand.live_or_outdated (h : AtHand b actions s) :
    s = (Oversight.after b actions).buffer.live ∨ Outdated (Oversight.after b actions) s := by
  rcases h with hforeign | ⟨past, ⟨more, rfl⟩, rfl⟩
  · -- the buffer may have begun with a snapshot from elsewhere, so this one can still be live
    by_cases hlive : s = (Oversight.after b actions).buffer.live
    · exact .inl hlive
    · right
      constructor
      · exact hlive
      · intro horigin
        rw [after_id] at horigin
        exact absurd horigin hforeign
  · exact live_or_outdated_after past more

theorem AtHand.mono (h : AtHand b actions s) (hmore : actions <+: later) : AtHand b later s := by
  rcases h with hforeign | ⟨past, hpast, hs⟩
  · exact .inl hforeign
  · exact .inr ⟨past, hpast.trans hmore, hs⟩

/-! ## Scopes and tokens -/

theorem mem_cancelled_act (o : Oversight) (a : Action) (scope : Nat) :
    scope ∈ (o.act a).cancelled ↔ scope ∈ o.cancelled ∨ a = .cancel scope := by
  cases a with
  | cancel other =>
    show scope ∈ other :: o.cancelled ↔ _
    rw [List.mem_cons, Action.cancel.injEq, eq_comm, or_comm]
  | onBuffer => exact (or_iff_left (fun h => nomatch h)).symm
  | bindToken => exact (or_iff_left (fun h => nomatch h)).symm
  | detachToken => exact (or_iff_left (fun h => nomatch h)).symm

/-- A scope is cancelled if somebody did that. -/
theorem mem_cancelled_iff (b : Buffer) (actions : List Action) (scope : Nat) :
    scope ∈ (after b actions).cancelled ↔ .cancel scope ∈ actions := by
  induction actions using List.reverseRecOn with
  | nil => exact iff_of_false List.not_mem_nil List.not_mem_nil
  | append_singleton actions a ih =>
    rw [after_concat, mem_cancelled_act, ih, List.mem_append, List.mem_singleton, eq_comm]

theorem mem_tokens_act (h : t ∈ (o.act a).tokens) : t ∈ o.tokens ∨ a.target? = some t.target := by
  cases a with
  | onBuffer => exact .inl h
  | bindToken target scope =>
    rcases List.mem_append.1 h with hold | hnew
    · exact .inl hold
    · cases List.mem_singleton.1 hnew
      exact .inr rfl
  | detachToken target =>
    rcases List.mem_append.1 h with hold | hnew
    · exact .inl hold
    · cases List.mem_singleton.1 hnew
      exact .inr rfl
  | cancel => exact .inl h

theorem mem_tokens_of_mem (h : t ∈ o.tokens) (a : Action) : t ∈ (o.act a).tokens := by
  cases a with
  | onBuffer => exact h
  | bindToken => exact List.mem_append_left _ h
  | detachToken => exact List.mem_append_left _ h
  | cancel => exact h

theorem mem_tokens_after (h : t ∈ (after b first).tokens) (later : List Action) :
    t ∈ (after b (first ++ later)).tokens :=
  after_append_of_act (fun o => t ∈ o.tokens) (fun _ a ht => mem_tokens_of_mem ht a) h later

theorem Genuine.of_prefix (h : Genuine b actions) (hfirst : first <+: actions) :
    Genuine b first :=
  fun past a hpast => h past a (hpast.trans hfirst)

theorem genuine_nil (b : Buffer) : Genuine b [] := by
  intro past a hpast
  have hlength := hpast.length_le
  rw [List.length_append] at hlength
  exact absurd hlength (Nat.not_succ_le_zero _)

theorem Genuine.concat (h : Genuine b actions)
    (ha : ∀ target, a.target? = some target → AtHand b actions target) :
    Genuine b (actions ++ [a]) := by
  intro past last hpast target htarget
  cases List.prefix_concat_iff.1 hpast with
  | inl heq =>
    obtain ⟨rfl, hlast⟩ := List.append_inj' heq rfl
    cases hlast
    exact ha target htarget
  | inr hbefore => exact h past last hbefore target htarget

/-- The target of a token is a snapshot that somebody can have. -/
theorem Genuine.atHand (h : Genuine b actions) (ht : t ∈ (Oversight.after b actions).tokens) :
    AtHand b actions t.target := by
  induction actions using List.reverseRecOn with
  | nil => exact absurd ht List.not_mem_nil
  | append_singleton actions a ih =>
    rw [after_concat] at ht
    have hmore : actions <+: actions ++ [a] := List.prefix_append _ _
    cases mem_tokens_act ht with
    | inl hold => exact (ih (h.of_prefix hmore) hold).mono hmore
    | inr hnew => exact (h actions a (List.prefix_refl _) t.target hnew).mono hmore

/-! ## Requests -/

/-- A token asks its work to stop if its scope was cancelled, and one that is bound to the buffer
does so too if its target is not live. -/
theorem requested_iff (b : Buffer) (actions : List Action) (t : CancelToken) :
    (after b actions).requested t = true ↔
      .cancel t.scope ∈ actions ∨
        t.bound = true ∧ t.target ≠ (after b actions).buffer.live := by
  rw [← mem_cancelled_iff b, requested, cancellationRequested, Bool.or_eq_true,
    List.contains_iff_mem, bne_iff_ne, ne_comm]
  cases t.bound with
  | true => simp
  | false => simp

theorem ensureActive_of_requested (h : o.requested t = true) :
    o.ensureActive t = .error (.cancelled t.target.version) := if_pos h

theorem ensureActive_of_not_requested (h : ¬o.requested t = true) :
    o.ensureActive t = .ok () := if_neg h

/-- Whatever is done to a buffer, its scopes and its tokens, a token asks its work to stop exactly
if its scope was cancelled, or it is bound and its target is not live.  Only then is the work
refused, in the name of the target's version.  Once it asks for that it does so after every later
run, also if edits bring the text of the target back. -/
theorem requested_for_good (b : Buffer) (first later : List Action) (hfirst : Genuine b first)
    (t : CancelToken) (ht : t ∈ (after b first).tokens) :
    ((after b first).requested t = true ↔
      .cancel t.scope ∈ first ∨ t.bound = true ∧ t.target ≠ (after b first).buffer.live) ∧
    ((after b first).requested t = false → (after b first).ensureActive t = .ok ()) ∧
    ((after b first).requested t = true →
      t ∈ (after b (first ++ later)).tokens ∧
      (after b (first ++ later)).requested t = true ∧
      (after b (first ++ later)).ensureActive t = .error (.cancelled t.target.version)) := by
  refine ⟨requested_iff b first t, ?_, ?_⟩
  · intro hwanted
    exact ensureActive_of_not_requested (Bool.eq_false_iff.1 hwanted)
  · intro hrequested
    have hstill : (after b (first ++ later)).requested t = true := by
      rw [requested_iff] at hrequested ⊢
      rcases hrequested with hcancelled | ⟨hbound, hgone⟩
      · exact .inl (List.mem_append_left later hcancelled)
      · rcases (hfirst.atHand ht).live_or_outdated with hlive | hold
        · exact absurd hlive hgone
        · exact .inr ⟨hbound, (hold.after later).ne_live⟩
    exact ⟨mem_tokens_after ht later, hstill, ensureActive_of_requested hstill⟩

/-- An edit that leaves the text as it is outdates the live snapshot, and neither putting the text
in anew nor a token for a snapshot from elsewhere changes that. -/
theorem requested_for_good_restored :
    let b : Buffer := .create 0 0 none ['a']
    let first : List Action := [.bindToken b.live 0, .onBuffer (.update id)]
    let later : List Action := [.onBuffer (.replace ['a']), .bindToken ⟨0, .outside 0, ['a']⟩ 0]
    let t : CancelToken := ⟨b.live, 0, true⟩
    (after b (first ++ later)).requested t = true ∧
      (after b (first ++ later)).ensureActive t = .error (.cancelled 0) := by
  intro b first later t
  have hnone := genuine_nil b
  have hbound : Genuine b [.bindToken b.live 0] := by
    refine hnone.concat ?_
    intro target htarget
    cases htarget
    exact .inr ⟨[], List.nil_prefix, rfl⟩
  have hfirst : Genuine b first := by
    refine hbound.concat ?_
    intro target htarget
    exact nomatch htarget
  obtain ⟨-, -, hgood⟩ := requested_for_good b first later hfirst t (List.mem_singleton_self t)
  exact (hgood (by decide)).2

end Oversight
end LiveSheet
