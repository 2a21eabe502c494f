import BlockWalk.Proofs.Pulls
import Mathlib.Order.WellFounded

/-!
# Every pull ends

A pull moves a walk until it needs a block, and then reads that block. The moves are made inside
blocks that were read before, so the store has no part in them: whatever blocks it holds, links in a
circle or recursions without a limit, `Walk.lands_seek` says that they come to an end, and
`Walk.wellFounded_step` that no walk at all goes on moving for ever.

`ReadsAtMostOnce` is about what follows the moves. It is said of every monad that a store may work
in, so also of stores that fail, change, or answer differently every time.
-/

namespace BlockWalk

/-! ## Moves -/

/-- The walk `w` comes to a landing by exactly `n` moves, the last of which lands. -/
inductive Walk.Lands : (n : Nat) → (w : Walk) → Landing → Prop
  /-- the last move -/
  | last {w : Walk} {landing : Landing} (h : w.step = .inr landing) : Lands 1 w landing
  /-- a move and others after it -/
  | move {n : Nat} {w v : Walk} {landing : Landing} (h : w.step = .inl v)
      (rest : Lands n v landing) : Lands (n + 1) w landing

namespace Walk

/-- **No walk goes on moving for ever.** -/
theorem wellFounded_step : WellFounded fun v w : Walk => w.step = .inl v :=
  Subrelation.wf weight_step (measure weight).wf

/-- A walk lands where the search for the next block says, after no more moves than its weight
allows. -/
theorem lands_seek (w : Walk) : ∃ n, n ≤ w.weight + 1 ∧ w.Lands n w.seek := by
  fun_induction seek w with
  | case1 w v h ih =>
    obtain ⟨n, hn, hl⟩ := ih
    have hlt : v.weight < w.weight := weight_step h
    exact ⟨n + 1, by omega, .move h hl⟩
  | case2 w landing h => exact ⟨1, by omega, .last h⟩

/-- A walk lands after one number of moves only. -/
theorem Lands.unique {n k : Nat} {w : Walk} {landing landing' : Landing}
    (h : w.Lands n landing) (h' : w.Lands k landing') : n = k := by
  induction h generalizing k with
  | last h =>
    cases h' with
    | last => rfl
    | move h' => cases h.symm.trans h'
  | move h _ ih =>
    cases h' with
    | last h' => cases h.symm.trans h'
    | move h' rest' =>
      obtain rfl := Sum.inl.inj (h.symm.trans h')
      rw [ih rest']

end Walk

namespace Traversal

/-- The number of moves that a pull makes before it turns to the store, or ends. -/
def Moves (t : Traversal) (n : Nat) : Prop :=
  match t.phase with
  | .underway c stack => (Walk.running c stack).Lands n (Walk.running c stack).seek
  | _ => n = 0

/-- A pull makes some number of moves, and only one. -/
theorem exists_moves (t : Traversal) : ∃ n, t.Moves n ∧ ∀ k, t.Moves k → k = n := by
  obtain ⟨root, phase, emitted⟩ := t
  cases phase with
  | underway c stack =>
    obtain ⟨n, -, h⟩ := (Walk.running c stack).lands_seek
    exact ⟨n, h, fun k hk => hk.unique h⟩
  | _ => exact ⟨0, rfl, fun k hk => hk⟩

end Traversal

/-! ## Reads -/

/-- What `f` does with a store is one read, of whose answer the rest is a function, or nothing. -/
def ReadsAtMostOnce {α : Type}
    (f : (m : Type → Type) → [Monad m] → BlockReader m → m α) : Prop :=
  (∃ a, ∀ (m : Type → Type) [Monad m] [LawfulMonad m] (read : BlockReader m), f m read = pure a)
    ∨ ∃ χ k, ∀ (m : Type → Type) [Monad m] [LawfulMonad m] (read : BlockReader m),
      f m read = k <$> read χ

/-- A pull reads one block or none. -/
theorem Traversal.readsAtMostOnce_pull (codecs : Registry) (t : Traversal) :
    ReadsAtMostOnce fun m [Monad m] read => t.pull (m := m) read codecs := by
  cases hd : t.demand with
  | nothing u => exact .inl ⟨_, fun m _ _ read => pull_eq_of_nothing read codecs hd⟩
  | block χ task stack => exact .inr ⟨χ, _, fun m _ _ read => pull_eq_of_block read codecs hd⟩

/-- **Every pull ends.** From whatever state a traversal is in, a pull makes a finite number of
moves, the same whatever the store, and at most one read; and the moves of any walk, whatever its
program, come to an end. -/
theorem Traversal.pull_ends (codecs : Registry) (t : Traversal) :
    (∃ n, t.Moves n ∧ ∀ k, t.Moves k → k = n)
      ∧ ReadsAtMostOnce (fun m [Monad m] read => t.pull (m := m) read codecs)
      ∧ ∀ walks : Nat → Walk, ∃ i, (walks i).step ≠ .inl (walks (i + 1)) := by
  refine ⟨t.exists_moves, t.readsAtMostOnce_pull codecs, fun walks => ?_⟩
  obtain ⟨w, ⟨i, rfl⟩, hmin⟩ := Walk.wellFounded_step.has_min (Set.range walks) ⟨_, 0, rfl⟩
  exact ⟨i, fun h => hmin _ ⟨i + 1, rfl⟩ h⟩

end BlockWalk
