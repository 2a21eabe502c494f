import BlockWalk.Proofs.Stores
import Mathlib

/-!
# Replaying a traversal from its blocks

Every decision of a traversal depends on blocks that it has given out before, so whoever has those
blocks can run it again. Two stores that agree on the blocks that a run over the first gave out let
the same run happen over both, up to the first error (`Traversal.replays_of_agree`): a pull that
gives a block finds the same block in both, and a pull that gives none does not look.

In particular a memory with nothing but these blocks is enough, and more blocks in a store change
nothing (`Traversal.emitted_blocks_replay`).
-/

namespace BlockWalk

/-- Two stores answer alike for the identifiers of some blocks. -/
def BlockReader.AgreeOn (B : List Block) (f f' : BlockReader Id) : Prop :=
  ∀ b ∈ B, f' b.cid = f b.cid

namespace Traversal

/-- A run repeats another, as far as that came: its blocks begin with those of the other, and if the
other ended without an error it gives no more blocks and ends in the same way. -/
structure Replays (run run' : List (Except TraversalError (Option Block)) × Traversal) :
    Prop where
  /-- the blocks of the one are the first blocks of the other -/
  blocks : given run.1 <+: given run'.1
  /-- an ending of the one is an ending of the other, after the same blocks -/
  ending : ∀ ρ, run.2.resolution? = some ρ →
    given run'.1 = given run.1 ∧ run'.2.resolution? = some ρ

/-! ## Answers -/

theorem given_block (b : Block) (rest : List (Except TraversalError (Option Block))) :
    given (.ok (some b) :: rest) = b :: given rest := rfl

theorem given_error (ε : TraversalError) (rest : List (Except TraversalError (Option Block))) :
    given (.error ε :: rest) = given rest := rfl

/-- A pull that gives nothing, before both. -/
theorem Replays.nothing {run run' : List (Except TraversalError (Option Block)) × Traversal}
    (h : Replays run run') :
    Replays (.ok none :: run.1, run.2) (.ok none :: run'.1, run'.2) :=
  ⟨h.blocks, h.ending⟩

/-- A pull that gives a block, before both. -/
theorem Replays.block {run run' : List (Except TraversalError (Option Block)) × Traversal}
    (h : Replays run run') (b : Block) :
    Replays (.ok (some b) :: run.1, run.2) (.ok (some b) :: run'.1, run'.2) := by
  refine ⟨(List.cons_prefix_cons).2 ⟨rfl, h.blocks⟩, fun ρ hρ => ?_⟩
  obtain ⟨hb, hr⟩ := h.ending ρ hρ
  exact ⟨congrArg (b :: ·) hb, hr⟩

/-! ## Runs -/

section

variable (codecs : Registry) (f f' : BlockReader Id)

/-- Over a function, a pull that needs a block asks for it. -/
theorem pull_of_block {t : Traversal} {χ : Cid} {task : Task} {stack : List Frame}
    (h : t.demand = .block χ task stack) :
    t.pull f codecs = t.resume task stack (opened codecs χ (f χ)) :=
  pull_eq_of_block f codecs h

/-- A traversal that has stopped gives nothing any more and stays as it is. -/
theorem answers_of_stopped {t : Traversal} (h : t.Stopped) (n : Nat) :
    given (answers f codecs n t).1 = [] ∧ (answers f codecs n t).2 = t := by
  induction n with
  | zero => exact ⟨rfl, rfl⟩
  | succ n ih =>
    rw [answers_succ, pull_eq_of_nothing f codecs h.demand]
    exact ih

/-- After an error there is nothing to repeat. -/
theorem replays_of_broken (t : Traversal) (ε : TraversalError) (n : Nat)
    (run' : List (Except TraversalError (Option Block)) × Traversal) :
    Replays (.error ε :: (answers f codecs n t.broken).1, (answers f codecs n t.broken).2)
      run' := by
  obtain ⟨hg, ht⟩ := answers_of_stopped codecs f (t := t.broken) trivial n
  refine ⟨?_, fun ρ hρ => ?_⟩
  · rw [given_error, hg]
    exact List.nil_prefix
  · rw [ht] at hρ
    cases hρ

variable {f f'}

/-- **Stores that agree on the blocks of a run let it be repeated**, by any number of pulls that is
no smaller. -/
theorem replays_of_agree (labelled : f.Labelled) {n k : Nat} (hk : n ≤ k) {t : Traversal}
    (agree : BlockReader.AgreeOn (given (answers f codecs n t).1) f f') :
    Replays (answers f codecs n t) (answers f' codecs k t) := by
  induction n generalizing k t with
  | zero =>
    refine ⟨List.nil_prefix, fun ρ hρ => ?_⟩
    have ht : t.resolution? = some ρ := hρ
    obtain ⟨h₁, h₂⟩ := answers_of_stopped codecs f' (stopped_of_resolution ht) k
    rw [h₁, h₂]
    exact ⟨rfl, ht⟩
  | succ n ih =>
    obtain ⟨k, rfl⟩ : ∃ j, k = j + 1 := ⟨k - 1, by omega⟩
    rw [answers_succ] at agree ⊢
    rw [answers_succ]
    cases hd : t.demand with
    | nothing u =>
      -- neither store is asked
      rw [pull_eq_of_nothing f codecs hd] at agree ⊢
      rw [pull_eq_of_nothing f' codecs hd]
      exact (ih (by omega) agree).nothing
    | block χ task stack =>
      rw [pull_of_block codecs f hd] at agree ⊢
      rw [pull_of_block codecs f' hd]
      rcases ha : opened codecs χ (f χ) with ε | ⟨b, v⟩
      · rw [resume]
        exact replays_of_broken codecs f t ε n _
      · -- the block is given out, so the other store has the same under its identifier
        rw [ha, resume, given_block] at agree
        have hb : f χ = .ok (some b) := (opened_eq_ok_iff.1 ha).1
        obtain rfl : b.cid = χ := labelled χ b hb
        have hf : f' b.cid = f b.cid := agree b List.mem_cons_self
        rw [hf, ha, resume]
        exact (ih (by omega) fun c hc => agree c (List.mem_cons_of_mem b hc)).block b

/-- Every block of a run is what the store has under the identifier of the block. -/
theorem read_of_mem_given (labelled : f.Labelled) {n : Nat} {t : Traversal} {b : Block}
    (hb : b ∈ given (answers f codecs n t).1) : f b.cid = .ok (some b) := by
  induction n generalizing t with
  | zero => cases hb
  | succ n ih =>
    rw [answers_succ] at hb
    cases hd : t.demand with
    | nothing u =>
      rw [pull_eq_of_nothing f codecs hd] at hb
      exact ih hb
    | block χ task stack =>
      rw [pull_of_block codecs f hd] at hb
      rcases ha : opened codecs χ (f χ) with ε | ⟨c, v⟩
      · rw [ha, resume, given_error] at hb
        exact ih hb
      · rw [ha, resume, given_block] at hb
        have hc : f χ = .ok (some c) := (opened_eq_ok_iff.1 ha).1
        rcases List.mem_cons.1 hb with rfl | hb
        · obtain rfl : b.cid = χ := labelled χ b hc
          exact hc
        · exact ih hb

end

/-- The memory that holds some blocks and nothing else. -/
def memoryOf (B : List Block) : Memory := B.foldl Memory.put Memory.empty

/-- The memory of the blocks of a run has them under their identifiers. -/
theorem get?_memoryOf {f : BlockReader Id} {B : List Block}
    (hB : ∀ b ∈ B, f b.cid = .ok (some b)) {b : Block} (hb : b ∈ B) :
    (memoryOf B).get? b.cid = some b := by
  rw [memoryOf, Memory.get?_foldl_put, show Memory.empty.get? b.cid = none from rfl, Option.none_or]
  -- another block of the same identifier is the same block, since the store is a function
  cases hc : B.find? fun c => c.cid = b.cid with
  | none => exact absurd (by simp) (List.find?_eq_none.1 hc b hb)
  | some c =>
    have hcid : c.cid = b.cid := by simpa using List.find?_some hc
    have hread : f b.cid = .ok (some c) := hcid ▸ hB c (List.mem_of_find?_eq_some hc)
    rw [hB b hb] at hread
    exact (Except.ok.inj hread).symm

/-- The answers to the first `n` pulls of a document over a store in the state `s`, and where they
leave the traversal. -/
def firstAnswers {S : Type} (read : BlockReader (StateM S)) (codecs : Registry) (d : Document)
    (s : S) (n : Nat) : List (Except TraversalError (Option Block)) × Traversal :=
  ((answers read codecs n (ofDocument d)).run s).1

/-- The first `n` pulls over one store are repeated over another, by as many pulls or more. -/
def RepeatedOver {S S' : Type} (codecs : Registry) (d : Document) (n : Nat)
    (read : BlockReader (StateM S)) (s : S) (read' : BlockReader (StateM S')) (s' : S') : Prop :=
  ∀ k, n ≤ k → Replays (firstAnswers read codecs d s n) (firstAnswers read' codecs d s' k)

/-- A run over a store that answers as a function is repeated over another that agrees with it on
the blocks of the run. -/
theorem repeatedOver_of_agree {S S' : Type} {read : BlockReader (StateM S)}
    {read' : BlockReader (StateM S')} {s : S} {s' : S'} {f f' : BlockReader Id}
    (hf : read.Answers s f) (hf' : read'.Answers s' f') (labelled : f.Labelled)
    (codecs : Registry) (d : Document) {n : Nat}
    (agree : BlockReader.AgreeOn (given (firstAnswers read codecs d s n).1) f f') :
    RepeatedOver codecs d n read s read' s' := by
  intro k hk
  rw [firstAnswers, answers_of_answers codecs hf] at agree ⊢
  rw [firstAnswers, answers_of_answers codecs hf']
  exact replays_of_agree codecs labelled hk agree

/-- **The blocks that a run gives out are enough to repeat it.** Of a document, take the first `n`
pulls over a store that answers as a function and gives only blocks of the identifier asked for.
They are repeated

* over every store that agrees with it on the blocks given out,
* over a memory that holds these blocks and nothing else, and
* over every store that has all the blocks of the first and perhaps more. -/
theorem emitted_blocks_replay {S : Type} {read : BlockReader (StateM S)} {s : S}
    {f : BlockReader Id} (hf : read.Answers s f) (labelled : f.Labelled) (codecs : Registry)
    (d : Document) (n : Nat) :
    (∀ {S' : Type} {read' : BlockReader (StateM S')} {s' : S'} {f' : BlockReader Id},
        read'.Answers s' f' →
        BlockReader.AgreeOn (given (firstAnswers read codecs d s n).1) f f' →
        RepeatedOver codecs d n read s read' s')
      ∧ RepeatedOver codecs d n read s Store.memory.get
          (memoryOf (given (firstAnswers read codecs d s n).1))
      ∧ ∀ {S' : Type} {read' : BlockReader (StateM S')} {s' : S'} {f' : BlockReader Id},
        read'.Answers s' f' → (∀ χ b, f χ = .ok (some b) → f' χ = .ok (some b)) →
        RepeatedOver codecs d n read s read' s' := by
  have hread : ∀ b ∈ given (firstAnswers read codecs d s n).1, f b.cid = .ok (some b) := by
    intro b hb
    rw [firstAnswers, answers_of_answers codecs hf] at hb
    exact read_of_mem_given codecs labelled hb
  refine ⟨fun hf' agree => ?_, ?_, fun hf' more => ?_⟩
  · exact repeatedOver_of_agree hf hf' labelled codecs d agree
  · refine repeatedOver_of_agree hf (BlockReader.answers_memory _) labelled codecs d ?_
    exact fun b hb => (congrArg Except.ok (get?_memoryOf hread hb)).trans (hread b hb).symm
  · refine repeatedOver_of_agree hf hf' labelled codecs d fun b hb => ?_
    rw [hread b hb, more b.cid b (hread b hb)]

open OneLink in
/-- Three pulls give the list and what it links to, and these two are enough. -/
theorem emitted_blocks_replay_oneLink :
    Store.memory.get.Answers memory (fun χ => .ok (memory.get? χ))
      ∧ BlockReader.Labelled (fun χ => .ok (memory.get? χ))
      ∧ (firstAnswers Store.memory.get codecs document memory 3).2.resolution? = some .resolved
      ∧ RepeatedOver codecs document 3 Store.memory.get memory Store.memory.get
          (memoryOf [outer, inner]) := by
  have hf := BlockReader.answers_memory memory
  have labelled := BlockReader.labelled_memory memory
  obtain ⟨-, h, -⟩ := emitted_blocks_replay hf labelled codecs document 3
  have hg : given (firstAnswers Store.memory.get codecs document memory 3).1 = [outer, inner] := by
    cbv
  rw [hg] at h
  exact ⟨hf, labelled, by cbv, h⟩

end Traversal

end BlockWalk
