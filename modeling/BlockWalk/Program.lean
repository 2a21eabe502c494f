/-!
# Programs

A program is a list of instructions of which some were taken. Taking one moves it from the front of
what remains to what was taken; the definition, which is both together, stays. Two programs are
equal if they have one definition and as many instructions were taken.
-/

namespace BlockWalk

/-- A list of instructions, some of them taken. -/
structure Program (α : Type) where
  /-- the instructions taken, the last one first -/
  taken : List α
  /-- the instructions that remain, the next one first -/
  remaining : List α
  deriving DecidableEq, Repr

namespace Program

variable {α : Type}

/-- A program of which nothing was taken. -/
def start (definition : List α) : Program α := ⟨[], definition⟩

/-- A program without instructions. -/
def empty : Program α := start []

/-- All instructions, first to last. -/
def definition (p : Program α) : List α := p.taken.reverse ++ p.remaining

/-- Takes the next instruction. -/
def next? (p : Program α) : Option (α × Program α) :=
  match p.remaining with
  | [] => none
  | a :: rest => some (a, ⟨a :: p.taken, rest⟩)

/-- The program from its first instruction again. -/
def restart (p : Program α) : Program α := start p.definition

/-- Were all instructions taken? -/
def isEmpty (p : Program α) : Bool := p.remaining.isEmpty

/-- The instruction that is taken is the first of those that remain. -/
theorem remaining_of_next? {p q : Program α} {a : α} (h : p.next? = some (a, q)) :
    p.remaining = a :: q.remaining := by
  unfold next? at h
  split at h
  · cases h
  · next hr =>
    obtain ⟨rfl, rfl⟩ := Prod.mk.inj (Option.some.inj h)
    exact hr

end Program

end BlockWalk
