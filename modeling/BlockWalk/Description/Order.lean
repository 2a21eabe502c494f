import BlockWalk.Description

/-!
# The order of encoding

The identifier of a node is part of every node that links to it, so a node is encoded after those it
links to. Nodes are visited depth first, from a stack of visits to come. When a node is met for the
first time, a second visit of it goes on the stack, and above it visits of the nodes it links to. By
its second visit those are in order, so it comes next. Between its two visits a node is open, and a
link to an open node closes a cycle.

* `Sorting` — how far the sort has come.
* `Sorting.run` — makes the visits on the stack. Every visit opens a node or shortens what is on the
  stack, so this ends: `Sorting.measure`.
* `Description.order` — the sort, from every node in turn.
-/

namespace BlockWalk

/-- How far a node has come. -/
inductive Mark where
  /-- the nodes it links to are being visited -/
  | visiting
  /-- it is in order -/
  | done
  deriving Repr, DecidableEq

/-- A visit to come. -/
structure Visit where
  /-- the node -/
  name : String
  /-- whether this is its second visit: the nodes it links to have been put on the stack -/
  expanded : Bool
  deriving Repr, DecidableEq

/-- How far the sort of a description has come. -/
structure Sorting where
  /-- the nodes that have been visited -/
  marks : Fields Mark
  /-- the names in order, last first -/
  order : List String
  /-- the visits to come, next first -/
  stack : List Visit
  deriving Repr

namespace Sorting

/-- Nothing is sorted. -/
def empty : Sorting := ⟨[], [], []⟩

/-- Puts a visit of a link target on the stack, unless the target is in order already. -/
def push (marks : Fields Mark) (target : String) (stack : List Visit) :
    Except ImportError (List Visit) :=
  match marks.find? target with
  | some .done => .ok stack
  | some .visiting => .error (.cycle target)
  | none => .ok (⟨target, false⟩ :: stack)

/-- Opens a node: its second visit goes on the stack, and above it visits of the nodes it links to,
the last one first. -/
def expand (d : Description) (s : Sorting) (name : String) : Except ImportError Sorting := do
  let marks := s.marks.insert name .visiting
  let stack ← (d.references name).foldrM (push marks) (⟨name, true⟩ :: s.stack)
  return { s with marks, stack }

/-- Makes a visit that has been taken from the stack. -/
def visit (d : Description) (s : Sorting) (v : Visit) : Except ImportError Sorting :=
  if v.expanded then
    .ok { s with marks := s.marks.insert v.name .done, order := v.name :: s.order }
  else
    match s.marks.find? v.name with
    | some .done => .ok s
    | some .visiting => .error (.cycle v.name)
    | none => s.expand d v.name

/-! ## What opening a node does -/

/-- The first visits that opening a node puts on the stack. -/
def fresh (marks : Fields Mark) (targets : List String) : List Visit :=
  (targets.filter fun m => (marks.find? m).isNone).map (⟨·, false⟩)

/-- Targets are put on the stack if none of them is open. -/
theorem foldrM_push (marks : Fields Mark) (targets : List String) (stack : List Visit) :
    (∀ m ∈ targets, marks.find? m ≠ some .visiting)
        ∧ targets.foldrM (push marks) stack = .ok (fresh marks targets ++ stack)
      ∨ ∃ m ∈ targets, marks.find? m = some .visiting
        ∧ targets.foldrM (push marks) stack = .error (.cycle m) := by
  induction targets with
  | nil => exact .inl ⟨nofun, rfl⟩
  | cons m targets ih =>
    rw [List.foldrM_cons]
    rcases ih with ⟨hn, h⟩ | ⟨m', hm', hv, h⟩
    · have hb : (targets.foldrM (push marks) stack >>= push marks m)
          = push marks m (fresh marks targets ++ stack) := by rw [h]; rfl
      rw [hb]
      cases hm : marks.find? m with
      | none => exact .inl ⟨List.forall_mem_cons.2 ⟨by simp [hm], hn⟩, by simp [push, fresh, hm]⟩
      | some μ =>
        cases μ with
        | done => exact .inl ⟨List.forall_mem_cons.2 ⟨by simp [hm], hn⟩, by simp [push, fresh, hm]⟩
        | visiting => exact .inr ⟨m, List.mem_cons_self, hm, by simp [push, hm]⟩
    · exact .inr ⟨m', List.mem_cons_of_mem m hm', hv, by rw [h]; rfl⟩

/-- What opening a node does. -/
theorem expand_cases (d : Description) (s : Sorting) (name : String) :
    (∀ m ∈ d.references name, (s.marks.insert name .visiting).find? m ≠ some .visiting)
        ∧ s.expand d name = .ok ⟨s.marks.insert name .visiting, s.order,
          fresh (s.marks.insert name .visiting) (d.references name) ++ ⟨name, true⟩ :: s.stack⟩
      ∨ ∃ m ∈ d.references name, (s.marks.insert name .visiting).find? m = some .visiting
        ∧ s.expand d name = .error (.cycle m) := by
  simp only [expand]
  rcases foldrM_push (s.marks.insert name .visiting) (d.references name)
    (⟨name, true⟩ :: s.stack) with ⟨hn, h⟩ | ⟨m, hm, hv, h⟩
  · exact .inl ⟨hn, by rw [h]; rfl⟩
  · exact .inr ⟨m, hm, hv, by rw [h]; rfl⟩

/-! ## The visits come to an end -/

/-- A bound on the visits that are made of the stack while no node is opened. -/
def weight : List Visit → Nat
  | [] => 0
  | v :: stack => (if v.expanded then 1 else 2) + weight stack

/-- How many of the names have no mark. -/
def unmarked (names : List String) (marks : Fields Mark) : Nat :=
  names.countP fun n => (marks.find? n).isNone

/-- What falls with every visit. -/
def measure (d : Description) (s : Sorting) : Nat × Nat :=
  (unmarked d.names s.marks, weight s.stack)

/-- The order of what falls: the first difference counts. -/
def measureOrder : Nat × Nat → Nat × Nat → Prop := Prod.Lex (· < ·) (· < ·)

/-- A new mark takes no mark away. -/
theorem unmarked_insert_le (names : List String) (marks : Fields Mark) (name : String) (μ : Mark) :
    unmarked names (marks.insert name μ) ≤ unmarked names marks := by
  refine List.countP_mono_left fun n _ h => ?_
  rw [Fields.find?_insert] at h
  split at h
  · cases h
  · exact h

/-- A name that gets its first mark is one less without. -/
theorem unmarked_insert_lt {names : List String} {marks : Fields Mark} {name : String} (μ : Mark)
    (hn : name ∈ names) (hm : marks.find? name = none) :
    unmarked names (marks.insert name μ) < unmarked names marks := by
  obtain ⟨before, after, rfl⟩ := List.append_of_mem hn
  have h₁ := unmarked_insert_le before marks name μ
  have h₂ := unmarked_insert_le after marks name μ
  have h₃ : ((marks.insert name μ).find? name).isNone = false := by
    rw [Fields.find?_insert, if_pos rfl, Option.isNone_some]
  have h₄ : (marks.find? name).isNone = true := by rw [hm, Option.isNone_none]
  simp only [unmarked, List.countP_append, List.countP_cons, h₃, h₄, if_true, Bool.false_eq_true,
    if_false] at h₁ h₂ ⊢
  omega

/-- With fewer names without a mark, the measure is lower. -/
theorem measure_lt_of_unmarked {d : Description} {s t : Sorting}
    (h : unmarked d.names t.marks < unmarked d.names s.marks) :
    measureOrder (t.measure d) (s.measure d) :=
  .left _ _ h

/-- With a lighter stack, the measure is lower if no mark is lost. -/
theorem measure_lt_of_weight {d : Description} {s t : Sorting}
    (hm : unmarked d.names t.marks ≤ unmarked d.names s.marks)
    (hw : weight t.stack < weight s.stack) : measureOrder (t.measure d) (s.measure d) := by
  rcases Nat.lt_or_eq_of_le hm with h | h
  · exact .left _ _ h
  · rw [measureOrder, measure, h]
    exact .right _ hw

/-- Every visit lowers the measure. -/
theorem measure_visit {d : Description} {s t : Sorting} {v : Visit} {stack : List Visit}
    (hs : s.stack = v :: stack) (h : visit d { s with stack } v = .ok t) :
    measureOrder (t.measure d) (s.measure d) := by
  unfold visit at h
  split at h
  · next he =>
    obtain rfl := Except.ok.inj h
    refine measure_lt_of_weight (unmarked_insert_le ..) ?_
    simp [hs, weight, he]
  · next he =>
    split at h
    · obtain rfl := Except.ok.inj h
      refine measure_lt_of_weight (Nat.le_refl _) ?_
      simp [hs, weight, he]
    · cases h
    · next hm =>
      rcases expand_cases d { s with stack } v.name with ⟨-, ht⟩ | ⟨m, -, -, ht⟩
      · obtain rfl := Except.ok.inj (ht.symm.trans h)
        by_cases hn : v.name ∈ d.names
        · exact measure_lt_of_unmarked (unmarked_insert_lt _ hn hm)
        · -- what has no name here has no references, so nothing is put above its second visit
          refine measure_lt_of_weight (unmarked_insert_le ..) ?_
          simp [hs, weight, he, fresh, Description.references_eq_nil hn]
      · cases ht.symm.trans h

/-- Makes the visits on the stack, and those that they lead to. -/
def run (d : Description) (s : Sorting) : Except ImportError Sorting :=
  match _hs : s.stack with
  | [] => .ok s
  | v :: stack =>
    match _hv : visit d { s with stack } v with
    | .error ε => .error ε
    | .ok t => run d t
termination_by s.measure d
decreasing_by exact measure_visit _hs _hv

/-- With no visit to come, a run is at its end. -/
theorem run_nil (d : Description) (marks : Fields Mark) (order : List String) :
    run d ⟨marks, order, []⟩ = .ok ⟨marks, order, []⟩ := by
  rw [run]

/-- A run makes the visit on top of the stack, and goes on. -/
theorem run_cons (d : Description) (marks : Fields Mark) (order : List String) (v : Visit)
    (stack : List Visit) :
    run d ⟨marks, order, v :: stack⟩ = visit d ⟨marks, order, stack⟩ v >>= run d := by
  rw [run]
  split
  · next hs => cases hs
  · next hs =>
    cases hs
    split <;> next hv => rw [hv]; rfl

/-- A run goes on where the visit on top of the stack leaves it. -/
theorem run_of_visit {d : Description} {marks : Fields Mark} {order : List String} {v : Visit}
    {stack : List Visit} {t : Sorting} (h : visit d ⟨marks, order, stack⟩ v = .ok t) :
    run d ⟨marks, order, v :: stack⟩ = run d t := by
  rw [run_cons, h]
  rfl

/-- Visits a node, if it is not in order already. -/
def start (d : Description) (s : Sorting) (name : String) : Except ImportError Sorting :=
  run d { s with stack := ⟨name, false⟩ :: s.stack }

end Sorting

namespace Description

/-- The names in the order of encoding. -/
def order (d : Description) : Except ImportError (List String) :=
  match d.unknownTarget? with
  | some (name, target) => .error (.unknownTarget name target)
  | none => return (← d.names.foldlM (Sorting.start d) .empty).order.reverse

end Description

end BlockWalk
