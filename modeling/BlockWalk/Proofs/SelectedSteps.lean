import BlockWalk.Proofs.Children
import Mathlib

/-!
# The steps that a pick selects

Which steps a pick selects can be said of each step by itself, by its key or its place
(`Pick.Selects`). A visit lists these steps and no others, each once, those to items in the order of
the items. There is only one way to do that, so what a visit gives depends on nothing but the steps
that are selected, and picks that select the same steps can stand for each other.

* `Pick.mem_stepsOf_visit` — the ways of a visit are the steps that the pick selects.
* `Pick.pairwise_stepsOf_visit` — they are in order.
* `Pick.visit_eq_of_selects` — picks that select the same steps visit in the same way.
* `Pick.visit_names_selected` — the main statement.
-/

namespace BlockWalk

/-! ## Steps in order -/

/-- Both steps are to items, and the first is to the earlier one. -/
def Step.Before (σ τ : Step) : Prop := ∃ i j, σ = .index i ∧ τ = .index j ∧ i < j

theorem Step.before_index_iff {i j : Nat} : Before (.index i) (.index j) ↔ i < j := by
  refine ⟨?_, fun h => ⟨i, j, rfl, rfl, h⟩⟩
  rintro ⟨_, _, hi, hj, h⟩
  obtain rfl := Step.index.inj hi
  obtain rfl := Step.index.inj hj
  exact h

instance : Std.Irrefl Step.Before where
  irrefl := by
    rintro σ ⟨i, j, rfl, hj, h⟩
    obtain rfl := Step.index.inj hj
    exact Nat.lt_irrefl i h

instance : Std.Antisymm Step.Before where
  antisymm := by
    rintro σ τ ⟨i, j, rfl, rfl, h⟩ h'
    exact absurd (Step.before_index_iff.1 h') (Nat.lt_asymm h)

namespace Match

/-- The way of a match of one child is the step to it, if the child is there. -/
theorem mem_stepsOf_single {σ τ : Step} {v : Node} :
    τ ∈ stepsOf (single σ v) ↔ τ = σ ∧ ∃ w, σ.apply v = some w := by
  cases h : σ.apply v <;> simp [stepsOf, single, steps, h]

theorem pairwise_stepsOf_single (σ : Step) (v : Node) :
    (stepsOf (single σ v)).Pairwise Step.Before := by
  cases h : σ.apply v <;> simp [stepsOf, single, steps, h]

/-- The ways of a match of items are those to the places in its range. -/
theorem mem_stepsOf_range {start stop : Nat} {σ : Step} :
    σ ∈ stepsOf (range start stop) ↔ ∃ i, σ = .index i ∧ start ≤ i ∧ i < stop := by
  rw [stepsOf_range, List.mem_map]
  refine exists_congr fun i => ?_
  rw [List.mem_range'_1]
  constructor
  · rintro ⟨⟨ge, lt⟩, rfl⟩
    exact ⟨rfl, ge, by omega⟩
  · rintro ⟨rfl, ge, lt⟩
    exact ⟨⟨ge, by omega⟩, rfl⟩

theorem pairwise_stepsOf_range (start stop : Nat) :
    (stepsOf (range start stop)).Pairwise Step.Before := by
  rw [stepsOf_range, List.pairwise_map]
  exact (List.pairwise_lt_range' 1 Nat.one_pos).imp Step.before_index_iff.2

/-- A match is known by its ways. -/
theorem stepsOf_inj {m m' : Option Match} (h : stepsOf m = stepsOf m') : m = m' := by
  rcases m with _ | ⟨next, siblings⟩ <;> rcases m' with _ | ⟨next', siblings'⟩
  · rfl
  · cases h
  · cases h
  · obtain ⟨rfl, rfl⟩ := List.cons.inj h
    rfl

end Match

namespace Pick

variable {p q : Pick} {v : Node} {σ : Step}

/-! ## What is selected -/

/-- The pick selects the step: the key that it names, if the node has it, or the place of an item
that is among those it names. -/
def Selects : Pick → Node → Step → Prop
  | field key, v, σ => σ = .field key ∧ ∃ w, v.get? key = some w
  | all, v, σ => ∃ i, σ = .index i ∧ i < v.items.length
  | position place, v, σ => σ = .index place.toNat ∧ place.toNat < v.items.length
  | slice start stop, v, σ =>
    ∃ i, σ = .index i ∧ start.toNat ≤ i ∧ i < v.items.length ∧ ∀ n ∈ stop, i < n.toNat

/-- There is an item at the places below the length of a list. -/
theorem exists_at?_iff {n : Nat} : (∃ w, v.at? n = some w) ↔ n < v.items.length := by
  rw [Node.at?, Node.items, ← Option.isSome_iff_exists]
  cases v.asItems? <;> simp

/-- The ways of a visit of a range of items. -/
theorem stepsOf_visit_slice (start : UInt64) (stop : Option UInt64) (v : Node) :
    Match.stepsOf ((slice start stop).visit v) =
      let stop := ((stop.map UInt64.toNat).map (min v.items.length)).getD v.items.length
      Match.stepsOf (Match.range (min start.toNat stop) stop) := by
  rw [visit, Node.sliceRange?, Node.items]
  cases v.asItems? with
  | none => cases stop <;> simp [Match.stepsOf, Match.range]
  | some items => rfl

theorem stepsOf_visit_all (v : Node) :
    Match.stepsOf (all.visit v) = Match.stepsOf (Match.range 0 v.items.length) := by
  rw [visit, Node.items]
  cases v.asItems? <;> rfl

/-- **The ways of a visit are the steps that the pick selects.** -/
theorem mem_stepsOf_visit : σ ∈ Match.stepsOf (p.visit v) ↔ p.Selects v σ := by
  cases p with
  | field key => exact Match.mem_stepsOf_single
  | all =>
    rw [stepsOf_visit_all, Match.mem_stepsOf_range]
    simp [Selects]
  | position place =>
    refine Match.mem_stepsOf_single.trans (and_congr_right fun _ => ?_)
    exact exists_at?_iff
  | slice start stop =>
    rw [stepsOf_visit_slice, Match.mem_stepsOf_range]
    refine exists_congr fun i => and_congr_right fun _ => ?_
    cases stop with
    | none => simp; omega
    | some n => simp; omega

/-- **The ways of a visit are in order.** -/
theorem pairwise_stepsOf_visit (p : Pick) (v : Node) :
    (Match.stepsOf (p.visit v)).Pairwise Step.Before := by
  cases p with
  | field key => exact Match.pairwise_stepsOf_single _ v
  | all =>
    rw [stepsOf_visit_all]
    exact Match.pairwise_stepsOf_range _ _
  | position place => exact Match.pairwise_stepsOf_single _ v
  | slice start stop =>
    rw [stepsOf_visit_slice]
    exact Match.pairwise_stepsOf_range _ _

/-- **Picks that select the same steps visit in the same way.** -/
theorem visit_eq_of_selects (same : ∀ σ, p.Selects v σ ↔ q.Selects v σ) :
    p.visit v = q.visit v := by
  refine Match.stepsOf_inj ?_
  refine (p.pairwise_stepsOf_visit v).eq_of_mem_iff (q.pairwise_stepsOf_visit v) fun σ => ?_
  rw [mem_stepsOf_visit, mem_stepsOf_visit, same]

/-! ## Ranges of items -/

/-- Two ranges of items, one of which goes on where the other stops, are one range. -/
theorem stepsOf_slice_append {a b : UInt64} {stop : Option UInt64} (hab : a ≤ b)
    (hstop : ∀ c ∈ stop, b ≤ c) (v : Node) :
    Match.stepsOf ((slice a (some b)).visit v) ++ Match.stepsOf ((slice b stop).visit v)
      = Match.stepsOf ((slice a stop).visit v) := by
  have hab := UInt64.le_iff_toNat_le.1 hab
  have ordered : (Match.stepsOf ((slice a (some b)).visit v)
      ++ Match.stepsOf ((slice b stop).visit v)).Pairwise Step.Before := by
    refine List.pairwise_append.2 ⟨pairwise_stepsOf_visit _ v, pairwise_stepsOf_visit _ v, ?_⟩
    intro σ hσ τ hτ
    obtain ⟨i, rfl, -, -, lt⟩ := mem_stepsOf_visit.1 hσ
    obtain ⟨j, rfl, ge, -, -⟩ := mem_stepsOf_visit.1 hτ
    exact Step.before_index_iff.2 (Nat.lt_of_lt_of_le (lt b rfl) ge)
  refine ordered.eq_of_mem_iff (pairwise_stepsOf_visit _ v) fun σ => ?_
  rw [List.mem_append, mem_stepsOf_visit, mem_stepsOf_visit, mem_stepsOf_visit]
  constructor
  · rintro (⟨i, rfl, ge, lt, before⟩ | ⟨i, rfl, ge, lt, before⟩)
    · refine ⟨i, rfl, ge, lt, fun c hc => ?_⟩
      exact Nat.lt_of_lt_of_le (before b rfl) (UInt64.le_iff_toNat_le.1 (hstop c hc))
    · exact ⟨i, rfl, hab.trans ge, lt, before⟩
  · rintro ⟨i, rfl, ge, lt, before⟩
    rcases Nat.lt_or_ge i b.toNat with first | second
    · refine .inl ⟨i, rfl, ge, lt, fun c hc => ?_⟩
      obtain rfl := Option.some.inj hc
      exact first
    · exact .inr ⟨i, rfl, second, lt, before⟩

/-! ## Visits -/

/-- **A visit names the children that are selected.** There is a match if something is selected, and
then the way to go on and the ways to the siblings are the steps that are selected, each once and
those to items in their order; all of them lead to children. So to select the items from the first
on is to select all, to select an item is to select a range of one place, and a range is what two
ranges are of which the second goes on where the first stops. -/
theorem visit_names_selected :
    (∀ (p : Pick) (v : Node),
      ((∃ m, p.visit v = some m) ↔ ∃ σ, p.Selects v σ)
        ∧ ∀ m, p.visit v = some m →
          (∀ σ, σ ∈ m.next :: m.siblings ↔ p.Selects v σ)
            ∧ (m.next :: m.siblings).Nodup
            ∧ (m.next :: m.siblings).Pairwise Step.Before
            ∧ ∀ σ ∈ m.next :: m.siblings, ∃ w, σ.apply v = some w)
      ∧ ∀ v : Node,
        (slice 0 none).visit v = all.visit v
          ∧ (∀ i : UInt64, i.toNat < 2 ^ 64 - 1 →
            (position i).visit v = (slice i (some (i + 1))).visit v)
          ∧ ∀ (a b : UInt64) (stop : Option UInt64), a ≤ b → (∀ c ∈ stop, b ≤ c) →
            Match.stepsOf ((slice a (some b)).visit v) ++ Match.stepsOf ((slice b stop).visit v)
              = Match.stepsOf ((slice a stop).visit v) := by
  refine ⟨fun p v => ⟨?_, fun m hm => ?_⟩, fun v => ⟨?_, fun i hi => ?_, fun a b stop => ?_⟩⟩
  · rw [← Option.isSome_iff_exists, ← not_iff_not, Option.not_isSome_iff_eq_none,
      ← Match.stepsOf_eq_nil_iff, List.eq_nil_iff_forall_not_mem, not_exists]
    exact forall_congr' fun σ => not_congr mem_stepsOf_visit
  · have ways : Match.stepsOf (p.visit v) = m.next :: m.siblings := by
      rw [hm]
      rfl
    have ordered := p.pairwise_stepsOf_visit v
    rw [ways] at ordered
    refine ⟨fun σ => ?_, ordered.nodup, ordered, apply_of_visit hm⟩
    rw [← ways]
    exact mem_stepsOf_visit
  · refine visit_eq_of_selects fun σ => exists_congr fun i => and_congr_right fun _ => ?_
    simp
  · have next : (i + 1).toNat = i.toNat + 1 := by
      rw [UInt64.toNat_add]
      exact Nat.mod_eq_of_lt (by simpa using Nat.add_lt_of_lt_sub hi)
    refine visit_eq_of_selects fun σ => ?_
    constructor
    · rintro ⟨rfl, lt⟩
      refine ⟨i.toNat, rfl, Nat.le_refl _, lt, fun n hn => ?_⟩
      obtain rfl := Option.some.inj hn
      omega
    · rintro ⟨j, rfl, ge, lt, before⟩
      have := before _ rfl
      obtain rfl : j = i.toNat := by omega
      exact ⟨rfl, lt⟩
  · exact fun hab hstop => stepsOf_slice_append hab hstop v

/-- Of three items, those from the second on are fewer than were asked for. -/
example : (Pick.slice 1 (some 7)).visit (.list [.null, .null, .null])
    = some ⟨.index 1, [.index 2]⟩ := by rfl

end Pick

end BlockWalk
