import BlockWalk.Walk.Search

/-!
# The children that a pick selects

`Pick.children` says which children a pick selects, and in what order, without the ways to them: the
value of a key, all items, one item, or a stretch of items. `Pick.visit` gives ways, and this module
shows that they are the ways to exactly those children:

* `Pick.visit_eq_none_iff` — a pick does not match where it selects nothing.
* `Pick.map_apply_steps` — the steps of a match lead to the children, one after the other.
* `Pick.children_eq_map_node` — the same for the places that a walk comes to.
-/

namespace BlockWalk

/-- The items of a list; other nodes have none. -/
def Node.items (v : Node) : List Node := v.asItems?.getD []

/-- The children that a pick selects, in order. -/
def Pick.children : Pick → Node → List Node
  | field key, v => (v.get? key).toList
  | all, v => v.items
  | position place, v => (v.at? place.toNat).toList
  | slice start stop, v =>
    match stop with
    | some stop => (v.items.take stop.toNat).drop start.toNat
    | none => v.items.drop start.toNat

namespace Match

/-- The ways of a match, none if there is none. -/
def stepsOf (m : Option Match) : List Step := (m.map steps).getD []

/-- There are no ways only where there is no match. -/
theorem stepsOf_eq_nil_iff {m : Option Match} : stepsOf m = [] ↔ m = none := by
  cases m <;> simp [stepsOf, steps]

/-- A match of one child leads to that child. -/
theorem map_apply_single (σ : Step) (v : Node) :
    (stepsOf (single σ v)).map (fun τ => τ.apply v) = (σ.apply v).toList.map some := by
  cases h : σ.apply v <;> simp [stepsOf, single, steps, h]

/-- The ways of a range are those to its places. -/
theorem stepsOf_range (start stop : Nat) :
    stepsOf (range start stop) = (List.range' start (stop - start)).map .index := by
  cases h : range start stop with
  | some m => exact steps_of_range h
  | none =>
    unfold range at h
    split at h
    · next hr => rw [hr]; rfl
    · cases h

/-- A range inside a list leads to the items in it. -/
theorem map_apply_range {v : Node} {items : List Node} (hv : v.asItems? = some items)
    (start : Nat) {stop : Nat} (hs : stop ≤ items.length) :
    (stepsOf (range start stop)).map (fun σ => σ.apply v)
      = ((items.take stop).drop start).map some := by
  rw [stepsOf_range, List.map_map]
  refine List.ext_getElem (by simp; omega) fun k h₁ h₂ => ?_
  have hk : start + k < items.length := by simp at h₁; omega
  simp [Step.apply, Node.at?, hv, hk]

/-- A range that is cut to begin no later than it stops leads to the items in it. -/
theorem map_apply_range_min {v : Node} {items : List Node} (hv : v.asItems? = some items)
    (start : Nat) {stop : Nat} (hs : stop ≤ items.length) :
    (stepsOf (range (min start stop) stop)).map (fun σ => σ.apply v)
      = ((items.take stop).drop start).map some := by
  rw [map_apply_range hv _ hs]
  rcases Nat.le_total start stop with h | h
  · rw [Nat.min_eq_left h]
  · rw [Nat.min_eq_right h, List.drop_eq_nil_of_le (List.length_take_le stop items),
      List.drop_eq_nil_of_le (Nat.le_trans (List.length_take_le stop items) h)]

end Match

/-- **The steps of a match lead to the children that the pick selects**, in their order. -/
theorem Pick.map_apply_steps (p : Pick) (v : Node) :
    (Match.stepsOf (p.visit v)).map (fun σ => σ.apply v) = (p.children v).map some := by
  cases p with
  | field key => exact Match.map_apply_single (.field key) v
  | position place => exact Match.map_apply_single (.index place.toNat) v
  | all =>
    cases h : v.asItems? with
    | none => simp [visit, children, Node.items, h, Match.stepsOf]
    | some items =>
      have := Match.map_apply_range h 0 (Nat.le_refl items.length)
      simpa [visit, children, Node.items, h] using this
  | slice start stop =>
    cases h : v.asItems? with
    | none => cases stop <;> simp [visit, children, Node.items, Node.sliceRange?, h, Match.stepsOf]
    | some items =>
      cases stop with
      | none =>
        have := Match.map_apply_range_min h start.toNat (Nat.le_refl items.length)
        simpa [visit, children, Node.items, Node.sliceRange?, h] using this
      | some n =>
        have := Match.map_apply_range_min h start.toNat
          (Nat.min_le_left items.length n.toNat)
        rw [Nat.min_comm items.length, ← List.take_eq_take_min] at this
        simpa [visit, children, Node.items, Node.sliceRange?, h, Nat.min_comm] using this

/-- A pick does not match where it selects nothing. -/
theorem Pick.visit_eq_none_iff {p : Pick} {v : Node} : p.visit v = none ↔ p.children v = [] := by
  rw [← Match.stepsOf_eq_nil_iff, ← List.map_eq_nil_iff (f := fun σ : Step => σ.apply v),
    p.map_apply_steps, List.map_eq_nil_iff]

/-- The children of a match are the nodes at the places that its steps lead to. -/
theorem Pick.children_eq_map_node {p : Pick} {f : Focus} {m : Match}
    (h : p.visit f.node = some m) :
    p.children f.node = m.steps.map fun σ => (f.child σ).node := by
  have hs := p.map_apply_steps f.node
  rw [h] at hs
  have := congrArg (List.map fun w => Option.getD w .null) hs
  simpa [Match.stepsOf, Focus.node_child, Function.comp_def] using this.symm

/-- A child that a pick selects is a child by some step. -/
theorem Pick.exists_apply_of_mem_children {p : Pick} {v w : Node} (h : w ∈ p.children v) :
    ∃ σ : Step, σ.apply v = some w := by
  have hw : some w ∈ (p.children v).map some := List.mem_map_of_mem h
  rw [← p.map_apply_steps] at hw
  obtain ⟨σ, -, hσ⟩ := List.mem_map.1 hw
  exact ⟨σ, hσ⟩

end BlockWalk
