import BlockWalk.Proofs.Consuming
import BlockWalk.Proofs.Invariants

/-!
# Where tasks come from

Whatever is left to do at a cursor, or at siblings that wait, is an end of the document's program,
or an end of the picks of one of its recursions together with what comes after that recursion.

* `Task.Traces` — that this is so of a task, and that a recursion has as many passes left as its
  limit allows (`Scope.PassesLeft`). What instructions do keeps it (`Task.traces_kept`).
* `Advance.Within` — a pass stays in its recursion until it goes on with what comes after it
  (`Cursor.within_of_pass`), so no recursion is entered inside another one.
* `Traversal.tasks_trace` — all of it together, for the walks that a traversal comes to and for the
  ways in which it ends.
-/

namespace BlockWalk

/-! ## Ends of a program -/

/-- How many passes can be left of a recursion of a given limit, the running one included. -/
inductive Scope.PassesLeft : Option UInt64 → Option Nat → Prop
  /-- without a limit they are not counted -/
  | unlimited : PassesLeft none none
  /-- with a limit there is at least one, and no more than the limit -/
  | limited {limit : UInt64} {k : Nat} (running : 1 ≤ k) (within : k ≤ limit.toNat) :
      PassesLeft (some limit) (some k)

/-- The task comes from the program. -/
inductive Task.Traces (program : List Selector) : Task → Prop
  /-- an end of the program -/
  | top {rest : Program Selector} (left : rest.remaining <:+ program) : Traces program (.top rest)
  /-- an end of the picks of one of its recursions, which is followed by what comes after it -/
  | pass {picks : Program Pick} {s : Scope}
      (recursion : .recursive s.recursion :: s.after.remaining <:+ program)
      (left : picks.remaining <:+ s.recursion.follow)
      (budget : Scope.PassesLeft s.recursion.limit s.passes) : Traces program (.pass picks s)

section

variable {program : List Selector}

/-- What comes after the next instruction is an end of the definition if what remained was one. -/
theorem Program.suffix_of_next? {α : Type} {definition : List α} {p after : Program α} {a : α}
    (next : p.next? = some (a, after)) (left : p.remaining <:+ definition) :
    after.remaining <:+ definition := by
  rw [remaining_of_next? next] at left
  exact (List.suffix_cons a _).trans left

namespace Scope

variable {limit : Option UInt64} {passes : Option Nat}

/-- The first pass may run if the limit is not zero. -/
theorem passesLeft_enter (h : limit ≠ some 0) : PassesLeft limit (limit.map UInt64.toNat) := by
  cases limit with
  | none => exact .unlimited
  | some n =>
    have pos : n.toNat ≠ 0 := fun zero => h (congrArg some (UInt64.toNat_inj.1 zero))
    exact .limited (Nat.one_le_iff_ne_zero.2 pos) le_rfl

/-- The next pass may run if the one that ends was not the last. -/
theorem PassesLeft.next (h : PassesLeft limit passes) (more : passes.map (· - 1) ≠ some 0) :
    PassesLeft limit (passes.map (· - 1)) := by
  cases h with
  | unlimited => exact .unlimited
  | @limited n k running within =>
    have pos : k - 1 ≠ 0 := fun zero => more (congrArg some zero)
    exact .limited (Nat.one_le_iff_ne_zero.2 pos) ((Nat.sub_le k 1).trans within)

end Scope

namespace Task

theorem Traces.forSiblings {task : Task} (h : task.Traces program) :
    task.forSiblings.Traces program := by
  cases h with
  | top left => exact .top left
  | pass recursion left budget => exact .pass recursion left budget

/-- What comes after a recursion of the program is an end of it. -/
theorem Traces.after {picks : Program Pick} {s : Scope} (h : (Task.pass picks s).Traces program) :
    s.after.remaining <:+ program := by
  cases h with
  | pass recursion => exact (List.suffix_cons _ _).trans recursion

/-- **Moves keep that tasks come from the program.** A move takes the next instruction of
the program or of a pass, enters a recursion that is the next instruction, begins the picks of a
pass anew, or goes on with what comes after the recursion. -/
theorem traces_kept (program : List Selector) :
    Kept (fun _ => True) (fun c => c.task.Traces program)
      (fun φ => φ.task.Traces program ∧ φ.task.start? = none) fun rest => rest <:+ program where
  stay c d hc does := by
    cases does with
    | firstPass next limit =>
      cases hc with
      | top left =>
        rw [Program.remaining_of_next? next] at left
        exact .pass left List.suffix_rfl (Scope.passesLeft_enter limit)
    | lastPass => exact .top hc.after
    | nextPass empty passes =>
      cases hc with
      | pass recursion left budget =>
        exact .pass recursion List.suffix_rfl (budget.next passes)
    | fallBack => exact .top hc.after
  ended c rest hc does := by
    cases does with
    | done => exact List.nil_suffix
    | noPass next =>
      cases hc with
      | top left => exact Program.suffix_of_next? next left
    | mismatch =>
      cases hc with
      | top left => exact left
    | noStart => exact hc.after
  child c m task hc does := by
    have traces : task.Traces program := by
      cases does with
      | matching next =>
        cases hc with
        | top left => exact .top (Program.suffix_of_next? next left)
      | matchingInPass next =>
        cases hc with
        | pass recursion left budget =>
          exact .pass recursion (Program.suffix_of_next? next left) budget
    exact ⟨⟨fun _ => traces, fun _ _ => traces⟩,
      fun _ => ⟨traces.forSiblings, task.start?_forSiblings⟩⟩
  sibling f σ later task h := ⟨⟨fun _ => h.1, fun _ _ => h.1⟩, fun _ => h⟩

end Task

end

/-! ## Recursions are not lost -/

/-- The next instruction of a task. -/
def Task.next? : Task → Option Selector
  | top program => program.remaining.head?
  | pass picks _ => picks.remaining.head?.map .pick

/-- The task belongs to the same recursion, or is what comes after it. -/
def Scope.Keeps (s : Scope) : Task → Prop
  | .top program => program = s.after
  | .pass _ s' => s'.recursion = s.recursion ∧ s'.after = s.after

/-- What is left to do, or left over, belongs to the same recursion or is what comes after it. -/
def Advance.Within (s : Scope) : Advance → Prop
  | exhausted rest => rest = s.after.remaining
  | stay c => s.Keeps c.task
  | children _ task => s.Keeps task

/-- A pass stays in its recursion until it goes on with what comes after it. -/
theorem Cursor.within_of_pass {c : Cursor} {picks : Program Pick} {s : Scope}
    (h : c.task = .pass picks s) : c.advance.Within s := by
  obtain ⟨f, task⟩ := c
  obtain rfl : task = .pass picks s := h
  have does := does_advance ⟨f, .pass picks s⟩
  generalize advance ⟨f, .pass picks s⟩ = a at does ⊢
  cases does with
  | lastPass => rfl
  | nextPass => exact ⟨rfl, rfl⟩
  | matchingInPass => exact ⟨rfl, rfl⟩
  | fallBack => rfl
  | noStart => rfl

/-- Only the document's program has recursions. -/
theorem Task.eq_top_of_next? {task : Task} {r : Recursion} (h : task.next? = some (.recursive r)) :
    ∃ program, task = .top program := by
  cases task with
  | top program => exact ⟨program, rfl⟩
  | pass picks s =>
    obtain ⟨p, -, hp⟩ := Option.map_eq_some_iff.1 h
    cases hp

/-! ## Walks of a traversal -/

/-- What is left to do on a walk, and what was left over, comes from the program. -/
structure Walk.Traces (program : List Selector) (w : Walk) : Prop where
  /-- what is left to do at the cursor -/
  cursor : ∀ c ∈ w.cursor?, c.task.Traces program
  /-- what is left to do at siblings that wait, which have no beginning of a pass -/
  waiting : ∀ φ ∈ w.stack, φ.task.Traces program ∧ φ.task.start? = none
  /-- what was left over on a branch that has just ended -/
  leftover : ∀ rest ∈ w.leftover?, rest <:+ program
  /-- a recursion is next only outside of all recursions; the type of tasks carries this, since what
  is left of a pass are picks, and a recursion is built of nothing else (`Recursion.ofSelectors`) -/
  entered : ∀ c ∈ w.cursor?, ∀ r, c.task.next? = some (.recursive r) → ∃ p, c.task = .top p
  /-- a pass stays in its recursion until it goes on with what comes after it -/
  enclosed : ∀ c ∈ w.cursor?, ∀ picks s, c.task = .pass picks s → c.advance.Within s

namespace Traversal

/-- What was not done when a traversal ended is an end of the program, and there is something of
it. -/
def Leaves (program : List Selector) (ρ : Resolution) : Prop :=
  ∀ rest, ρ = .unresolved rest → rest ≠ [] ∧ rest <:+ program

theorem leaves_ofRest {program rest : List Selector} (h : rest <:+ program) :
    Leaves program (.ofRest rest) := by
  intro rest' unresolved
  obtain ⟨rfl, nonempty⟩ := ofRest_eq_unresolved_iff.1 unresolved
  exact ⟨nonempty, h⟩

section

variable {S : Type} (read : BlockReader (StateM S)) (codecs : Registry) (d : Document) (s : S)

/-- What is left to do after the first `n` pulls of a document, and what is left over when it ends,
comes from its program. -/
structure FromProgram (n : Nat) : Prop where
  /-- on every walk that the next pull leads through -/
  walks : ∀ w, (record read codecs d s n).traversal.Meets w → w.Traces d.program
  /-- when the traversal has ended -/
  resolution : ∀ ρ, (record read codecs d s n).traversal.resolution? = some ρ →
    Leaves d.program ρ
  /-- when a drain of what is left, by any number of pulls, has ended -/
  drained : ∀ p sel ρ, drainAfter read codecs d s n p = some sel → sel.outcome = .ok ρ →
    Leaves d.program ρ

/-- What is left to do after any number of pulls comes from the document's program. -/
theorem holds_traces (n : Nat) :
    (record read codecs d s n).traversal.Holds (fun _ => True) (fun c => c.task.Traces d.program)
      (fun φ => φ.task.Traces d.program ∧ φ.task.start? = none) fun rest => rest <:+ d.program :=
  holds_record (Task.traces_kept d.program) (fun _ _ => .top List.suffix_rfl) n
    fun _ _ => trivial

theorem leaves_of_resolution {n : Nat} {ρ : Resolution}
    (h : (record read codecs d s n).traversal.resolution? = some ρ) : Leaves d.program ρ := by
  have state := holds_traces read codecs d s n
  rw [resolution?] at h
  rw [Holds] at state
  split at h
  · next hp =>
    obtain rfl := Option.some.inj h
    rw [hp] at state
    obtain ⟨rest, left, rfl⟩ := state
    exact leaves_ofRest left
  · cases h

/-- **Tasks come from the document's program.** After any number of pulls, whatever the store does,
what is left to do outside of recursions is an end of the program, at the cursor as at the siblings
that wait. Inside a recursion, that recursion stands in the program, what comes after it is what is
done after it, an end of its picks is left of the pass, and if it is limited there is at least one
pass left and no more than the limit. Only the cursor knows where its pass began. No recursion is
entered inside another one. What an ending leaves over is an end of the program, and not empty. -/
theorem tasks_trace (n : Nat) : FromProgram read codecs d s n where
  walks w met := by
    have walk := (holds_traces read codecs d s n).meets (Task.traces_kept d.program) met
    exact ⟨walk.cursor, walk.stack, walk.leftover, fun c _ r => Task.eq_top_of_next?,
      fun c _ picks s => Cursor.within_of_pass⟩
  resolution ρ := leaves_of_resolution read codecs d s
  drained p sel ρ h hρ := by
    by_cases failed : ∃ ε, .error ε ∈ (byHand read codecs d s n).answers
    · -- a drain after an error takes the walk for resolved
      obtain ⟨ε, hε⟩ := failed
      obtain rfl := drain_of_error h hε
      obtain rfl := Except.ok.inj hρ
      exact nofun
    · have no_error : ∀ ε, .error ε ∉ (byHand read codecs d s n).answers := not_exists.1 failed
      have ended := ended_of_no_error h no_error hρ
      exact leaves_of_resolution read codecs d s ((resolution_record_iff codecs (n + p) ρ).2 ended)

end

end Traversal

end BlockWalk
