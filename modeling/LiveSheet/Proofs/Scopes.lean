import LiveSheet.Completion.Declaration
import LiveSheet.Proofs.Nesting

/-!
# Scopes

Where the declarations of a sheet stand, and in which part of it each one is known.  Of two
declarations that are known at one place, the one of the inner block reaches less far.
-/

namespace LiveSheet

namespace Item

/-- The item stands among the given ones or below them, and `scope` is the innermost block
around it.  The given items stand in the block `outer`. -/
inductive Stands (i : Item) (scope : Option Span) : Option Span → List Item → Prop
  | here {items : List Item} : i ∈ items → Stands i scope scope items
  | under {outer : Option Span} {items : List Item} {c : Item} :
      c ∈ items → Stands i scope (Declaration.scopeBelow outer c) c.children →
      Stands i scope outer items

variable {a b i : Item} {scope outer : Option Span} {items : List Item}

theorem Occurs.trans (h : Occurs a b) (h' : Occurs b i) : Occurs a i := by
  induction h' with
  | here => exact h
  | under hc _ ih => exact .under hc ih

theorem occurs_of_mem_children {c : Item} (h : c ∈ i.children) : Occurs c i := by
  cases i with
  | leaf kind span => exact absurd h List.not_mem_nil
  | comment style span => exact absurd h List.not_mem_nil
  | node kind span children => exact .under h .here

theorem child?_eq_some {kind : ItemKind} {c : Item} (h : i.child? kind = some c) :
    Occurs c i ∧ c.kind? = some kind := by
  unfold child? at h
  have hkind := List.find?_some h
  exact ⟨occurs_of_mem_children (List.mem_of_find?_eq_some h), beq_iff_eq.1 hkind⟩

theorem Stands.mono {items' : List Item} (h : Stands i scope outer items)
    (hsub : ∀ c ∈ items, c ∈ items') : Stands i scope outer items' := by
  cases h with
  | here hi => exact .here (hsub i hi)
  | under hc h => exact .under (hsub _ hc) h

theorem Stands.occurs (h : Stands i scope outer items) : ∃ c ∈ items, Occurs i c := by
  induction h with
  | here hi => exact ⟨i, hi, .here⟩
  | @under outer items c hc _ ih =>
    obtain ⟨d, hd, hi⟩ := ih
    exact ⟨c, hc, hi.trans (occurs_of_mem_children hd)⟩

/-- The innermost block around an item is one of the sheet, unless it is the block around
the whole. -/
theorem Stands.scope_block (h : Stands i scope outer items) :
    scope = outer ∨ ∃ c ∈ items, ∃ b, Occurs b c ∧ b.IsBlock ∧ scope = some b.span := by
  induction h with
  | here => exact .inl rfl
  | @under outer items c hc _ ih =>
    rcases ih with hscope | ⟨d, hd, b, hb, hblock, hscope⟩
    · by_cases hblock : c.isKind .block = true
      · refine .inr ⟨c, hc, c, .here, beq_iff_eq.1 hblock, ?_⟩
        rw [hscope, Declaration.scopeBelow, if_pos hblock]
      · rw [Declaration.scopeBelow, if_neg hblock] at hscope
        exact .inl hscope
    · exact .inr ⟨c, hc, b, hb.trans (occurs_of_mem_children hd), hblock, hscope⟩

end Item

namespace Declaration

variable {d e : Declaration} {source : Text} {scope outer : Option Span} {i : Item}
  {items : List Item}

/-- The items of a sheet in the order of the walk, each with the innermost block around it. -/
structure Listing (outer : Option Span) (items : List Item) (walk : List (Nat × Item))
    (placed : List (Item × Option Span)) : Prop where
  order : placed.map Prod.fst = walk.map Prod.snd
  stands : ∀ e ∈ placed, e.1.Stands e.2 outer items

theorem Listing.append {first rest : List Item} {walk walk' : List (Nat × Item)}
    {placed placed' : List (Item × Option Span)} (h : Listing outer first walk placed)
    (h' : Listing outer rest walk' placed') :
    Listing outer (first ++ rest) (walk ++ walk') (placed ++ placed') := by
  refine ⟨?_, fun e he => ?_⟩
  · rw [List.map_append, List.map_append, h.order, h'.order]
  · rcases List.mem_append.1 he with he | he
    · exact (h.stands e he).mono fun _ => List.mem_append_left _
    · exact (h'.stands e he).mono fun _ => List.mem_append_right _

theorem listing_single {depth : Nat} :
    Listing outer [i] [(depth, i)] [(i, outer)] := by
  refine ⟨rfl, fun e he => ?_⟩
  rw [List.mem_singleton.1 he]
  exact .here (List.mem_singleton_self i)

mutual
theorem below_listing (source : Text) :
    ∀ (depth : Nat) (outer : Option Span) (i : Item), ∃ placed,
      Listing outer [i] (i.walk depth) placed ∧
        below source outer i = placed.flatMap fun e => ofItem source e.2 e.1
  | depth, outer, .leaf kind span => by
    refine ⟨[(.leaf kind span, outer)], ?_, ?_⟩
    · rw [Item.walk]
      exact listing_single
    · rw [below, List.flatMap_singleton]
  | depth, outer, .comment style span => by
    refine ⟨[(.comment style span, outer)], ?_, ?_⟩
    · rw [Item.walk]
      exact listing_single
    · rw [below, List.flatMap_singleton]
  | depth, outer, .node kind span children => by
    let i := Item.node kind span children
    obtain ⟨placed, hlisting, hbelow⟩ :=
      belowAll_listing source (depth + 1) (scopeBelow outer i) children
    refine ⟨(i, outer) :: placed, ⟨?_, fun e he => ?_⟩, ?_⟩
    · rw [Item.walk, List.map_cons, List.map_cons, hlisting.order]
    · rcases List.mem_cons.1 he with rfl | he
      · exact .here (List.mem_singleton_self _)
      · exact .under (List.mem_singleton_self _) (hlisting.stands e he)
    · rw [below, hbelow, List.flatMap_cons]

/-- The declarations of a sheet are those of its items, in the order of the walk. -/
theorem belowAll_listing (source : Text) :
    ∀ (depth : Nat) (outer : Option Span) (items : List Item), ∃ placed,
      Listing outer items (Item.walkAll depth items) placed ∧
        belowAll source outer items = placed.flatMap fun e => ofItem source e.2 e.1
  | depth, outer, [] => by
    refine ⟨[], ⟨?_, List.forall_mem_nil _⟩, ?_⟩
    · rw [Item.walkAll, List.map_nil, List.map_nil]
    · rw [belowAll, List.flatMap_nil]
  | depth, outer, i :: rest => by
    obtain ⟨placed, hlisting, hbelow⟩ := below_listing source depth outer i
    obtain ⟨placed', hlisting', hbelow'⟩ := belowAll_listing source depth outer rest
    refine ⟨placed ++ placed', ?_, ?_⟩
    · rw [Item.walkAll]
      exact hlisting.append hlisting'
    · rw [belowAll, hbelow, hbelow', List.flatMap_append]
end

theorem stands_of_mem_belowAll (h : d ∈ belowAll source outer items) :
    ∃ i scope, i.Stands scope outer items ∧ d ∈ ofItem source scope i := by
  obtain ⟨placed, hlisting, hbelow⟩ := belowAll_listing source 0 outer items
  rw [hbelow] at h
  obtain ⟨e, he, hd⟩ := List.mem_flatMap.1 h
  exact ⟨e.1, e.2, hlisting.stands e he, hd⟩

/-- What an item declares is known behind it in the block around it.  Parameters are known
behind the argument list in the block of their own item. -/
def PlacedBy (d : Declaration) (source : Text) (scope : Option Span) (i : Item) : Prop :=
  (d.scope = scope ∧ d.visibleFrom = i.stop) ∨
    ∃ arguments body, i.child? .arguments = some arguments ∧ i.child? .block = some body ∧
      d.kind = .variable ∧ d.name ∈ parameterNames (arguments.textIn source) ∧
      d.scope = some body.span ∧ d.visibleFrom = arguments.stop

theorem placedBy_of_ofParameters {name : Text} (h : d ∈ ofParameters source name i) :
    d.PlacedBy source scope i := by
  unfold ofParameters at h
  split at h
  · rename_i arguments body harguments hbody
    obtain ⟨parameter, hparameter, rfl⟩ := List.mem_map.1 h
    exact .inr ⟨arguments, body, harguments, hbody, rfl, hparameter, rfl, rfl⟩
  · exact absurd h List.not_mem_nil

theorem placedBy_of_ofItem (h : d ∈ ofItem source scope i) : d.PlacedBy source scope i := by
  unfold ofItem at h
  split at h
  · unfold ofVariable at h
    split at h
    · exact absurd h List.not_mem_nil
    · rw [List.mem_singleton.1 h]
      exact .inl ⟨rfl, rfl⟩
  · unfold ofAtRule at h
    dsimp only at h
    split at h
    · rcases List.mem_append.1 h with h | h
      · exact placedBy_of_ofParameters h
      · rw [List.mem_singleton.1 h]
        exact .inl ⟨rfl, rfl⟩
    · exact absurd h List.not_mem_nil
  · exact absurd h List.not_mem_nil

/-- A declaration is known everywhere or in a block of the sheet. -/
theorem scope_of_mem (h : d ∈ belowAll source none items) :
    d.scope = none ∨
      ∃ c ∈ items, ∃ b, Item.Occurs b c ∧ b.IsBlock ∧ d.scope = some b.span := by
  obtain ⟨i, scope, hstands, hd⟩ := stands_of_mem_belowAll h
  rcases placedBy_of_ofItem hd with ⟨hscope, -⟩ | ⟨arguments, body, -, hbody, -, -, hscope, -⟩
  · rw [hscope]
    exact hstands.scope_block
  · obtain ⟨c, hc, hi⟩ := hstands.occurs
    obtain ⟨hoccurs, hkind⟩ := Item.child?_eq_some hbody
    exact .inr ⟨c, hc, body, hoccurs.trans hi, hkind, hscope⟩

/-- A declaration in a block is known in the block from some place on, any other one is
known everywhere. -/
def Visible (d : Declaration) (place : Nat) : Prop :=
  ∀ block ∈ d.scope, block.start ≤ place ∧ place < block.stop ∧ d.visibleFrom ≤ place

theorem visibleAt_iff {place : Nat} : d.visibleAt place = true ↔ d.Visible place := by
  unfold visibleAt Visible
  cases hscope : d.scope with
  | none => simp
  | some block => simp [Span.contains, and_assoc]

/-- One scope lies in another one or is the same.  All lie in the sheet. -/
def InScope (outer inner : Option Span) : Prop :=
  ∀ s ∈ outer, ∃ u ∈ inner, u.Within s

theorem reach_lt {t : Text} (hrow : Item.Row t 0 t.length items) (hsize : t.length < wholeSheet)
    (he : e ∈ belowAll source none items) (hscope : e.scope ≠ none) : e.reach < wholeSheet := by
  obtain hnone | ⟨c, hc, b, hb, hblock, hsome⟩ := scope_of_mem he
  · exact absurd hnone hscope
  · obtain ⟨-, hstop⟩ := hrow.block_bounds hc hb hblock
    rw [reach, hsome, Option.elim_some, Span.length]
    omega

/-- Of two declarations that are known at one place, the one that reaches less far or as far
stands in the inner block or in the same one. -/
theorem inScope_of_reach_le {t : Text} {place : Nat} (hrow : Item.Row t 0 t.length items)
    (hsize : t.length < wholeSheet) (hd : d ∈ belowAll source none items)
    (he : e ∈ belowAll source none items) (hdplace : d.Visible place) (heplace : e.Visible place)
    (hle : d.reach ≤ e.reach) : InScope e.scope d.scope := by
  intro outer houter
  have hne : e.scope ≠ none := fun hnone => nomatch hnone.symm.trans houter
  have hlt := reach_lt hrow hsize he hne
  obtain hnone | ⟨c, hc, a, ha, hablock, hdscope⟩ := scope_of_mem hd
  · rw [reach, hnone, Option.elim_none] at hle
    omega
  · obtain hnone | ⟨c', hc', b, hb, hbblock, hescope⟩ := scope_of_mem he
    · exact absurd hnone hne
    · obtain ⟨hastart, hastop, -⟩ := hdplace a.span hdscope
      obtain ⟨hbstart, hbstop, -⟩ := heplace b.span hescope
      have hnested := hrow.nested hc hc' ha hb hablock hbblock
        ((Span.contains_iff _ _).2 ⟨hastart, hastop⟩) ((Span.contains_iff _ _).2 ⟨hbstart, hbstop⟩)
      cases hescope.symm.trans houter
      refine ⟨a.span, hdscope, ?_⟩
      rw [reach, reach, hdscope, hescope, Option.elim_some, Option.elim_some, Span.length,
        Span.length] at hle
      rcases hnested with heq | ⟨hstart, hstop⟩ | ⟨hstart, hstop⟩
      · rw [heq]
        exact ⟨Nat.le_refl _, Nat.le_refl _⟩
      · exact ⟨Nat.le_of_lt hstart, Nat.le_of_lt hstop⟩
      · -- the outer block would be the shorter one
        have hinner := b.span.start_le_stop
        omega

end Declaration
end LiveSheet
