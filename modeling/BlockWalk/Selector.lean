import BlockWalk.Node

/-!
# Selectors

A selector is one instruction of a program that leads through a graph of blocks. A pick goes from a
node to some of its children: the first is where the walk goes on, the others are its siblings, to
be visited later. A recursion repeats a list of picks, pass after pass, as long as they match or for
a limited number of passes.

Picks only are repeated, and at least one of them; both are part of the type of a recursion.
-/

namespace BlockWalk

/-! ## Instructions -/

/-- An instruction that leads to children of a node. -/
inductive Pick where
  /-- the value of a key -/
  | field (key : String)
  /-- every item of a list -/
  | all
  /-- the item at a place -/
  | position (place : UInt64)
  /-- the items from `start` up to but not including `stop`, or to the end -/
  | slice (start : UInt64) (stop : Option UInt64)
  deriving DecidableEq, Repr

/-- An instruction that repeats others. -/
structure Recursion where
  /-- the picks of one pass -/
  follow : List Pick
  /-- a pass goes at least one step down -/
  follow_ne_nil : follow ≠ []
  /-- the number of passes, if it is limited -/
  limit : Option UInt64
  deriving DecidableEq, Repr

/-- One instruction of a program. -/
inductive Selector where
  /-- leads to children of a node -/
  | pick (p : Pick)
  /-- repeats picks -/
  | recursive (r : Recursion)
  deriving DecidableEq, Repr

/-- The pick, if the instruction is one. -/
def Selector.asPick? : Selector → Option Pick
  | pick p => some p
  | recursive _ => none

/-! ## Matches -/

/-- What a pick leads to. -/
structure Match where
  /-- the way to the child where the walk goes on -/
  next : Step
  /-- the ways to the children to be visited later, in order -/
  siblings : List Step
  deriving DecidableEq, Repr

namespace Match

/-- All ways of a match, in order. -/
def steps (m : Match) : List Step := m.next :: m.siblings

/-- A match of one child, if the child is there. -/
def single (σ : Step) (v : Node) : Option Match := (σ.apply v).map fun _ => ⟨σ, []⟩

/-- A match of the items from `start` up to but not including `stop`, if there are any. -/
def range (start stop : Nat) : Option Match :=
  match List.range' start (stop - start) with
  | [] => none
  | place :: places => some ⟨.index place, places.map .index⟩

/-- The steps of a match of items lead to the places of its range. -/
theorem steps_of_range {start stop : Nat} {m : Match} (h : range start stop = some m) :
    m.steps = (List.range' start (stop - start)).map .index := by
  unfold range at h
  split at h
  · cases h
  · next hr =>
    obtain rfl := Option.some.inj h
    rw [hr]
    rfl

/-- A single step leads to a child. -/
theorem apply_of_single {σ : Step} {v : Node} {m : Match} (h : single σ v = some m) :
    ∀ τ ∈ m.steps, ∃ w, τ.apply v = some w := by
  obtain ⟨w, hw, rfl⟩ := Option.map_eq_some_iff.1 h
  intro τ hτ
  obtain rfl := List.mem_singleton.1 hτ
  exact ⟨w, hw⟩

/-- The steps to a range inside a list lead to its items. -/
theorem apply_of_range {v : Node} {items : List Node} {start stop : Nat} {m : Match}
    (hv : v.asItems? = some items) (hs : stop ≤ items.length) (h : range start stop = some m) :
    ∀ σ ∈ m.steps, ∃ w, σ.apply v = some w := by
  rw [steps_of_range h]
  intro σ hσ
  obtain ⟨place, hp, rfl⟩ := List.mem_map.1 hσ
  obtain ⟨k, hk, rfl⟩ := List.mem_range'.1 hp
  have hlt : start + 1 * k < items.length := by omega
  exact ⟨items[start + 1 * k], by simp [Step.apply, Node.at?, hv]⟩

end Match

/-- The children that a pick leads to; none if it does not match the node. -/
def Pick.visit (p : Pick) (v : Node) : Option Match :=
  match p with
  | field key => Match.single (.field key) v
  | all => v.asItems? >>= fun items => Match.range 0 items.length
  | position place => Match.single (.index place.toNat) v
  | slice start stop =>
    v.sliceRange? start.toNat (stop.map UInt64.toNat) >>= fun (start, stop) =>
      Match.range start stop

/-- Every step of a match leads to a child. -/
theorem Pick.apply_of_visit {p : Pick} {v : Node} {m : Match} (h : p.visit v = some m) :
    ∀ σ ∈ m.steps, ∃ w, σ.apply v = some w := by
  cases p with
  | field key => exact Match.apply_of_single h
  | position place => exact Match.apply_of_single h
  | all =>
    obtain ⟨items, hi, hm⟩ := Option.bind_eq_some_iff.1 h
    exact Match.apply_of_range hi (Nat.le_refl _) hm
  | slice start stop =>
    obtain ⟨⟨a, b⟩, hr, hm⟩ := Option.bind_eq_some_iff.1 h
    obtain ⟨items, hi, hb⟩ := Option.bind_eq_some_iff.1 hr
    refine Match.apply_of_range hi ?_ hm
    obtain ⟨-, rfl⟩ := Prod.mk.inj (Option.some.inj hb)
    cases stop with
    | none => exact Nat.le_refl _
    | some n => exact Nat.min_le_left _ _

/-- The children that an instruction leads to by itself. A recursion is not visited; its passes
are. -/
def Selector.visit (s : Selector) (v : Node) : Option Match := s.asPick? >>= fun p => p.visit v

end BlockWalk
