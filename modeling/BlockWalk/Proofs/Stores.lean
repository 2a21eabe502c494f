import BlockWalk.Proofs.Pulls
import BlockWalk.Store.Memory

/-!
# Stores that answer as a function

A store works in a monad and may answer differently every time. Here is what it means that it does
not: from some state on, whatever was read before, its answers are those of a function of the
identifier (`BlockReader.Answers`). Such a function is itself a store, one without effects, and the
answers to pulls are the same over both (`Traversal.answers_of_answers`).

The blocks of a memory are an example, as long as none is put in or removed.
-/

namespace BlockWalk

namespace Memory

/-- What a memory has after a block was put in: what it had before, or the new block. -/
theorem get?_put (μ : Memory) (b : Block) (χ : Cid) :
    (μ.put b).get? χ = (μ.get? χ).or (if b.cid = χ then some b else none) := by
  rw [put]
  split
  · next c hc =>
    by_cases hχ : b.cid = χ
    · rw [if_pos hχ, ← hχ, hc]
      rfl
    · rw [if_neg hχ, Option.or_none]
  · next hc =>
    by_cases hχ : b.cid = χ
    · rw [if_pos hχ, ← hχ, hc]
      simp [get?]
    · simp [get?, hχ]

/-- What a memory has after blocks were put in: what it had before, or the first of the new ones. -/
theorem get?_foldl_put (B : List Block) (μ : Memory) (χ : Cid) :
    (B.foldl put μ).get? χ = (μ.get? χ).or (B.find? fun b => b.cid = χ) := by
  induction B generalizing μ with
  | nil => simp
  | cons b B ih =>
    rw [List.foldl_cons, ih, get?_put, List.find?_cons, Option.or_assoc]
    by_cases hχ : b.cid = χ <;> simp [hχ]

end Memory

namespace BlockReader

variable {S : Type} (read : BlockReader (StateM S))

/-- The state of a store after some reads. -/
def after (s : S) : List Cid → S
  | [] => s
  | χ :: past => after ((read χ).run s).2 past

/-- From the state `s` on, the store answers as the function `f`. -/
def Answers (s : S) (f : BlockReader Id) : Prop :=
  ∀ past χ, ((read χ).run (read.after s past)).1 = f χ

variable {read} {s : S} {f : BlockReader Id}

theorem Answers.answer (h : read.Answers s f) (χ : Cid) : ((read χ).run s).1 = f χ := h [] χ

/-- Reading does not change how a store answers. -/
theorem Answers.next (h : read.Answers s f) (χ : Cid) : read.Answers ((read χ).run s).2 f :=
  fun past => h (χ :: past)

/-- A memory that is only read stays as it is. -/
theorem after_memory (μ : Memory) (past : List Cid) : Store.memory.get.after μ past = μ := by
  induction past with
  | nil => rfl
  | cons χ past ih => exact ih

/-- A store gives out only blocks of the identifier that was asked for. -/
def Labelled (f : BlockReader Id) : Prop := ∀ χ b, f χ = .ok (some b) → b.cid = χ

/-- A memory does. -/
theorem labelled_memory (μ : Memory) : Labelled fun χ => .ok (μ.get? χ) := by
  intro χ b h
  simpa using List.find?_some (Except.ok.inj h)

/-- The blocks of a memory are found by their identifiers. -/
theorem answers_memory (μ : Memory) : Store.memory.get.Answers μ fun χ => .ok (μ.get? χ) := by
  intro past χ
  rw [after_memory]
  rfl

end BlockReader

namespace Traversal

variable {S : Type} {read : BlockReader (StateM S)} {s : S} {f : BlockReader Id}
  (codecs : Registry)

/-- A pull over a store that answers as a function is a pull over the function. -/
theorem pull_of_answers (h : read.Answers s f) (t : Traversal) :
    ((t.pull read codecs).run s).1 = t.pull f codecs
      ∧ read.Answers ((t.pull read codecs).run s).2 f := by
  cases hd : t.demand with
  | nothing u =>
    rw [run_pull_of_nothing read codecs hd, pull_eq_of_nothing f codecs hd]
    exact ⟨rfl, h⟩
  | block χ task stack =>
    rw [run_pull_of_block read codecs hd, pull_eq_of_block f codecs hd, run_load, h.answer]
    exact ⟨rfl, h.next χ⟩

/-- Any number of pulls over a store that answers as a function are pulls over the function. -/
theorem answers_of_answers (h : read.Answers s f) (n : Nat) (t : Traversal) :
    ((answers read codecs n t).run s).1 = answers f codecs n t := by
  induction n generalizing t s with
  | zero => rfl
  | succ n ih =>
    obtain ⟨hp, hs⟩ := pull_of_answers codecs h t
    rw [run_answers_succ, answers_succ, ← hp]
    dsimp only
    rw [ih hs]

end Traversal

/-! ## A list with one link -/

namespace OneLink

/-- An identifier of thirty-two equal bytes. -/
def cid (b : UInt8) : Cid := ⟨⟨0⟩, ⟨List.replicate 32 b, List.length_replicate⟩⟩

/-- The block of a list that links to `inner`. -/
def outer : Block := ⟨cid 0, [0]⟩

/-- The block of a node without value. -/
def inner : Block := ⟨cid 1, []⟩

/-- The one codec of both. -/
def codecs : Registry :=
  ⟨[⟨⟨0⟩, fun β => .ok (if β.isEmpty then .null else .list [.link inner.cid]), fun _ => .ok []⟩]⟩

/-- Both blocks, and one that is not needed. -/
def memory : Memory := ⟨[outer, inner, ⟨cid 2, []⟩]⟩

/-- A document that takes all items. -/
def document : Document := ⟨outer.cid, [.pick .all]⟩

end OneLink

end BlockWalk
