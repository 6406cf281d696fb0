import LiveSheet.Span
import LiveSheet.Text.Basic

/-!
# Tilings

Spans that lie in a stretch of a text one after the other, with nothing but blanks
between them.  A tiling is taken apart at any of its spans, and neighbours in it may
be joined to the span that covers them.
-/

namespace LiveSheet

namespace Span

instance : Std.Associative cover := ⟨fun _ _ _ =>
  ext_ends (Nat.min_assoc _ _ _) (Nat.max_assoc _ _ _)⟩

instance : Std.Commutative cover := ⟨fun _ _ =>
  ext_ends (Nat.min_comm _ _) (Nat.max_comm _ _)⟩

theorem coverAll_cons (s : Span) (rest : List Span) :
    coverAll (s :: rest) = (some s).merge cover (coverAll rest) := by
  cases rest with
  | nil => rfl
  | cons u rest =>
    show some (rest.foldl cover (s.cover u)) = some (s.cover (rest.foldl cover u))
    rw [List.foldl_assoc]

theorem coverAll_append (a b : List Span) :
    coverAll (a ++ b) = (coverAll a).merge cover (coverAll b) := by
  induction a with
  | nil => rw [List.nil_append, coverAll, Option.merge_none_left]
  | cons s rest ih =>
    rw [List.cons_append, coverAll_cons, coverAll_cons, ih]
    exact (Std.Associative.assoc _ _ _).symm

theorem coverAll_perm {a b : List Span} (h : a.Perm b) : coverAll a = coverAll b := by
  induction h with
  | nil => rfl
  | cons s _ ih => rw [coverAll_cons, coverAll_cons, ih]
  | swap s u rest =>
    rw [coverAll_cons, coverAll_cons, coverAll_cons, coverAll_cons]
    ac_rfl
  | trans _ _ ih ih' => exact ih.trans ih'

theorem coverAll_toList (covered : Option Span) : coverAll covered.toList = covered := by
  cases covered <;> rfl

theorem coverAll_eq_none_iff {spans : List Span} : coverAll spans = none ↔ spans = [] := by
  cases spans with
  | nil => exact iff_of_true rfl rfl
  | cons s rest => exact iff_of_false (fun h => nomatch h) (fun h => nomatch h)

theorem exists_coverAll {spans : List Span} (h : spans ≠ []) : ∃ s, coverAll spans = some s :=
  Option.ne_none_iff_exists'.1 fun hnone => h (coverAll_eq_none_iff.1 hnone)

def Within (s u : Span) : Prop := u.start ≤ s.start ∧ s.stop ≤ u.stop

theorem within_refl (s : Span) : s.Within s := ⟨Nat.le_refl _, Nat.le_refl _⟩

theorem Within.trans {s u v : Span} (h : s.Within u) (h' : u.Within v) : s.Within v :=
  ⟨Nat.le_trans h'.1 h.1, Nat.le_trans h.2 h'.2⟩

theorem within_cover_left (s u : Span) : s.Within (s.cover u) :=
  ⟨Nat.min_le_left _ _, Nat.le_max_left _ _⟩

theorem within_cover_right (s u : Span) : u.Within (s.cover u) :=
  ⟨Nat.min_le_right _ _, Nat.le_max_right _ _⟩

theorem within_coverAll {spans : List Span} {s u : Span} (h : coverAll spans = some u)
    (hs : s ∈ spans) : s.Within u := by
  induction spans generalizing u with
  | nil => exact absurd hs List.not_mem_nil
  | cons v rest ih =>
    rw [coverAll_cons] at h
    cases hrest : coverAll rest with
    | none =>
      rw [coverAll_eq_none_iff] at hrest
      subst hrest
      cases h
      rw [List.mem_singleton.1 hs]
      exact ⟨Nat.le_refl _, Nat.le_refl _⟩
    | some w =>
      rw [hrest] at h
      cases h
      rcases List.mem_cons.1 hs with rfl | hs
      · exact ⟨Nat.min_le_left _ _, Nat.le_max_left _ _⟩
      · obtain ⟨hstart, hstop⟩ := ih hrest hs
        exact ⟨Nat.le_trans (Nat.min_le_right _ _) hstart,
          Nat.le_trans hstop (Nat.le_max_right _ _)⟩

/-- What covers some spans begins with one of them and ends with one. -/
theorem mem_of_coverAll {spans : List Span} {u : Span} (h : coverAll spans = some u) :
    (∃ s ∈ spans, s.start = u.start) ∧ ∃ s ∈ spans, s.stop = u.stop := by
  induction spans generalizing u with
  | nil => exact nomatch h
  | cons s rest ih =>
    rw [coverAll_cons] at h
    cases hrest : coverAll rest with
    | none =>
      rw [hrest, Option.merge_none_right] at h
      cases h
      exact ⟨⟨s, List.mem_cons_self, rfl⟩, s, List.mem_cons_self, rfl⟩
    | some v =>
      rw [hrest, Option.merge_some_some] at h
      cases h
      obtain ⟨⟨a, ha, hstart⟩, b, hb, hstop⟩ := ih hrest
      constructor
      · rcases Nat.le_total s.start v.start with hle | hle
        · exact ⟨s, List.mem_cons_self, (Nat.min_eq_left hle).symm⟩
        · exact ⟨a, List.mem_cons_of_mem _ ha, hstart.trans (Nat.min_eq_right hle).symm⟩
      · rcases Nat.le_total s.stop v.stop with hle | hle
        · exact ⟨b, List.mem_cons_of_mem _ hb, hstop.trans (Nat.max_eq_right hle).symm⟩
        · exact ⟨s, List.mem_cons_self, (Nat.max_eq_left hle).symm⟩

end Span

/-- Whatever stands from `lo` up to `hi` is blank. -/
def Text.BlankBetween (t : Text) (lo hi : Nat) : Prop :=
  ∀ p c, lo ≤ p → p < hi → t[p]? = some c → isBlank c = true

/-- The spans lie between `lo` and `hi` in order, each behind the one before it; none is
empty, and what stands outside all of them is blank. -/
structure Text.Tiling (t : Text) (lo hi : Nat) (spans : List Span) : Prop where
  bounds : lo ≤ hi
  inside : ∀ s ∈ spans, lo ≤ s.start ∧ s.start < s.stop ∧ s.stop ≤ hi
  ordered : spans.Pairwise fun a b => a.stop ≤ b.start
  blank_outside : ∀ p c, lo ≤ p → p < hi → (∀ s ∈ spans, s.contains p = false) →
    t[p]? = some c → isBlank c = true

namespace Text

variable {t : Text} {lo mid hi : Nat} {s u : Span} {spans before after : List Span}

theorem tiling_nil : t.Tiling lo hi [] ↔ lo ≤ hi ∧ t.BlankBetween lo hi := by
  constructor
  · intro h
    exact ⟨h.bounds, fun p c hlo hhi =>
      h.blank_outside p c hlo hhi (List.forall_mem_nil _)⟩
  · rintro ⟨hbounds, hblank⟩
    exact ⟨hbounds, List.forall_mem_nil _, List.Pairwise.nil,
      fun p c hlo hhi _ => hblank p c hlo hhi⟩

theorem tiling_refl : t.Tiling lo lo [] :=
  tiling_nil.2 ⟨Nat.le_refl _, fun _ _ hp hlt => absurd hlt (Nat.not_lt.2 hp)⟩

theorem tiling_cons :
    t.Tiling lo hi (s :: spans) ↔
      t.Tiling lo s.start [] ∧ s.start < s.stop ∧ t.Tiling s.stop hi spans := by
  rw [tiling_nil]
  constructor
  · intro h
    obtain ⟨hlo, hne, hhi⟩ := h.inside s List.mem_cons_self
    have hbehind : ∀ u ∈ spans, s.stop ≤ u.start := (List.pairwise_cons.1 h.ordered).1
    refine ⟨⟨hlo, fun p c hp hps => h.blank_outside p c hp (by omega) ?_⟩, hne, hhi,
      fun u hu => ?_, h.ordered.of_cons, fun p c hp hph hout => h.blank_outside p c (by omega)
        hph ?_⟩
    · intro u hu
      rw [← Bool.not_eq_true, Span.contains_iff]
      rcases List.mem_cons.1 hu with rfl | hu
      · omega
      · have := hbehind u hu
        omega
    · obtain ⟨-, hne', hhi'⟩ := h.inside u (List.mem_cons_of_mem _ hu)
      exact ⟨hbehind u hu, hne', hhi'⟩
    · intro u hu
      rcases List.mem_cons.1 hu with rfl | hu
      · rw [← Bool.not_eq_true, Span.contains_iff]
        omega
      · exact hout u hu
  · rintro ⟨⟨hlo, hblank⟩, hne, h⟩
    have hhi := h.bounds
    refine ⟨by omega, fun u hu => ?_, ?_, fun p c hp hph hout => ?_⟩
    · rcases List.mem_cons.1 hu with rfl | hu
      · exact ⟨hlo, hne, hhi⟩
      · obtain ⟨hlo', hne', hhi'⟩ := h.inside u hu
        exact ⟨by omega, hne', hhi'⟩
    · exact List.pairwise_cons.2 ⟨fun u hu => (h.inside u hu).1, h.ordered⟩
    · have hs := hout s List.mem_cons_self
      rw [← Bool.not_eq_true, Span.contains_iff] at hs
      rcases Nat.lt_or_ge p s.start with hbefore | hbehind
      · exact hblank p c hp hbefore
      · exact h.blank_outside p c (by omega) hph
          (fun u hu => hout u (List.mem_cons_of_mem _ hu))

theorem Tiling.blank_before {c : Char} (h : t.Tiling (lo + 1) hi spans) (hc : t[lo]? = some c)
    (hblank : isBlank c = true) : t.Tiling lo hi spans := by
  have hbounds := h.bounds
  refine ⟨by omega, fun s hs => ?_, h.ordered, fun p d hp hph hout hd => ?_⟩
  · obtain ⟨hlo, hne, hhi⟩ := h.inside s hs
    exact ⟨by omega, hne, hhi⟩
  · rcases Nat.eq_or_lt_of_le hp with rfl | hlt
    · rw [hc] at hd
      cases hd
      exact hblank
    · exact h.blank_outside p d hlt hph hout hd

/-- A tiling falls apart at each of its spans. -/
theorem tiling_append_cons :
    t.Tiling lo hi (before ++ s :: after) ↔
      t.Tiling lo s.start before ∧ s.start < s.stop ∧ t.Tiling s.stop hi after := by
  induction before generalizing lo with
  | nil => exact tiling_cons
  | cons u rest ih => rw [List.cons_append, tiling_cons, ih, tiling_cons, and_assoc, and_assoc]

/-- What follows the front of a tiling may be exchanged, wherever that front ends. -/
theorem Tiling.exchange (h : t.Tiling lo hi (spans ++ before))
    (hexchange : ∀ lo, t.Tiling lo hi before → t.Tiling lo hi after) :
    t.Tiling lo hi (spans ++ after) := by
  induction spans generalizing lo with
  | nil => exact hexchange lo h
  | cons u rest ih =>
    obtain ⟨hfront, hne, hrest⟩ := tiling_cons.1 h
    exact tiling_cons.2 ⟨hfront, hne, ih hrest⟩

/-- Two spans may be joined over all that lies between them. -/
theorem Tiling.enclose (between : List Span) (h : t.Tiling lo hi (s :: (between ++ u :: after))) :
    t.Tiling lo hi (s.cover u :: after) := by
  obtain ⟨hfront, hne, hrest⟩ := tiling_cons.1 h
  obtain ⟨hinner, hne', hafter⟩ := tiling_append_cons.1 hrest
  have hbounds := hinner.bounds
  have hstart : (s.cover u).start = s.start := Nat.min_eq_left (by omega)
  have hstop : (s.cover u).stop = u.stop := Nat.max_eq_right (by omega)
  refine tiling_cons.2 ⟨?_, ?_, ?_⟩
  · rw [hstart]
    exact hfront
  · omega
  · rw [hstop]
    exact hafter

theorem Tiling.join_run (h : t.Tiling lo hi (spans ++ after)) :
    t.Tiling lo hi ((Span.coverAll spans).toList ++ after) := by
  cases spans with
  | nil => exact h
  | cons s rest =>
    show t.Tiling lo hi (rest.foldl Span.cover s :: after)
    induction rest generalizing s with
    | nil => exact h
    | cons u rest ih => exact ih _ (enclose [] h)

/-- A run of neighbours anywhere in a tiling may be exchanged for one that covers as
much and is joined already. -/
theorem Tiling.join_within (h : t.Tiling lo hi (before ++ (spans ++ after))) {covered : Option Span}
    (hcovered : Span.coverAll spans = covered) :
    t.Tiling lo hi (before ++ (covered.toList ++ after)) :=
  h.exchange fun _ htail => hcovered ▸ htail.join_run

/-- A run from one span to another, of which only the ends and what is covered in front
of them are kept.  What lies between the ends is a tiling by itself. -/
theorem Tiling.join_around {covered : Option Span} {between : List Span}
    (h : t.Tiling lo hi (before ++ (covered.toList ++ s :: (between ++ u :: after)))) :
    t.Tiling s.stop u.start between ∧ t.Tiling lo hi
      (before ++ ((covered.merge Span.cover (some (s.cover u))).toList ++ after)) := by
  constructor
  · rw [← List.append_assoc] at h
    obtain ⟨-, -, htail⟩ := tiling_append_cons.1 h
    exact (tiling_append_cons.1 htail).1
  · have hcovered : Span.coverAll (covered.toList ++ [s.cover u]) =
        covered.merge Span.cover (some (s.cover u)) := by
      rw [Span.coverAll_append, Span.coverAll_toList]
      rfl
    refine Tiling.join_within ?_ hcovered
    refine h.exchange fun _ hrow => ?_
    rw [List.append_assoc]
    exact hrow.exchange fun _ hrow => hrow.enclose _

end Text
end LiveSheet
