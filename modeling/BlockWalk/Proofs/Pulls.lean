import BlockWalk.Traversal

/-!
# Pulls

What a pull asks of the store, and what it makes of the answer.

* `Traversal.demand` — the block that a pull needs, if it needs one: what the walk comes to before
  the store is used.
* `Traversal.pull_eq_of_block`, `Traversal.pull_eq_of_nothing` — a pull is one read of that block,
  of whose answer the rest is a function, or it does not use the store at all.
* `Traversal.Stopped` — nothing is left to do, as after an ending or an error.
* `Traversal.answers` — several pulls, one after the other.

Over a store with a state, the same is said of the state that a pull leaves.
-/

namespace BlockWalk.Traversal

/-! ## Demands -/

/-- What a pull needs. -/
inductive Demand where
  /-- no block; the traversal is `t` from then on -/
  | nothing (t : Traversal)
  /-- a block, at whose root `task` is left to do -/
  | block (χ : Cid) (task : Task) (stack : List Frame)

/-- What the next pull needs. -/
def demand (t : Traversal) : Demand :=
  match t.phase with
  | .fresh program => .block t.root (.top (.start program)) []
  | .underway c stack =>
    match (Walk.running c stack).seek with
    | .block χ task stack => .block χ task stack
    | .ended rest => .nothing { t with phase := .done (.ofRest rest) }
  | .done _ | .failed => .nothing t

/-- A traversal that has given a block out and goes on at its root. -/
def entered (t : Traversal) (v : Node) (task : Task) (stack : List Frame) : Traversal :=
  ⟨t.root, .underway ⟨.block v, task⟩ stack, t.emitted + 1⟩

/-- A traversal that has failed. -/
def broken (t : Traversal) : Traversal := { t with phase := .failed }

/-- What the answer of a store gives: a block and its root, or an error. -/
def opened (codecs : Registry) (χ : Cid) :
    Except StorageError (Option Block) → Except TraversalError (Block × Node)
  | .error ε => .error (.storage ε)
  | .ok none => .error (.notFound χ)
  | .ok (some b) =>
    match codecs.decode b with
    | .error ε => .error (.decode χ ε)
    | .ok v => .ok (b, v)

/-- A block is opened if the store has it and its root can be decoded. -/
theorem opened_eq_ok_iff {codecs : Registry} {χ : Cid} {a : Except StorageError (Option Block)}
    {b : Block} {v : Node} :
    opened codecs χ a = .ok (b, v) ↔ a = .ok (some b) ∧ codecs.decode b = .ok v := by
  rcases a with ε | c | c
  · exact ⟨nofun, fun h => nomatch h.1⟩
  · exact ⟨nofun, fun h => nomatch h.1⟩
  · rw [opened]
    constructor
    · intro h
      split at h
      · cases h
      · next w hw =>
        obtain ⟨rfl, rfl⟩ := Prod.mk.inj (Except.ok.inj h)
        exact ⟨rfl, hw⟩
    · rintro ⟨hc, hv⟩
      obtain rfl := Option.some.inj (Except.ok.inj hc)
      rw [hv]

/-- What a pull answers when it has asked for a block, and where it leaves the traversal. -/
def resume (t : Traversal) (task : Task) (stack : List Frame) :
    Except TraversalError (Block × Node) → Except TraversalError (Option Block) × Traversal
  | .error ε => (.error ε, t.broken)
  | .ok (b, v) => (.ok (some b), t.entered v task stack)

section

variable {m : Type → Type} [Monad m] (read : BlockReader m) (codecs : Registry)

/-- A pull asks for the block that it needs, and goes on at its root. -/
theorem pull_eq_of_demand (t : Traversal) :
    t.pull read codecs =
      match t.demand with
      | .nothing u => pure (.ok none, u)
      | .block χ task stack => t.enter read codecs χ task stack := by
  obtain ⟨root, phase, emitted⟩ := t
  cases phase with
  | fresh program => rfl
  | underway c stack =>
    rw [pull, demand]
    dsimp only
    cases (Walk.running c stack).seek <;> rfl
  | done ρ => rfl
  | failed => rfl

theorem pull_of_demand {t : Traversal} {χ : Cid} {task : Task} {stack : List Frame}
    (h : t.demand = .block χ task stack) :
    t.pull read codecs = t.enter read codecs χ task stack := by
  rw [pull_eq_of_demand, h]

/-- A pull that needs no block does not use the store. -/
theorem pull_eq_of_nothing {t u : Traversal} (h : t.demand = .nothing u) :
    t.pull read codecs = pure (.ok none, u) := by
  rw [pull_eq_of_demand, h]

variable [LawfulMonad m]

/-- A block is had by one read. -/
theorem load_eq_map (χ : Cid) : load read codecs χ = opened codecs χ <$> read χ := by
  rw [load, map_eq_pure_bind]
  refine bind_congr fun a => ?_
  rcases a with ε | b | b
  · rfl
  · rfl
  · rw [opened]
    dsimp only
    cases codecs.decode b <;> rfl

theorem enter_eq_map (t : Traversal) (χ : Cid) (task : Task) (stack : List Frame) :
    t.enter read codecs χ task stack = t.resume task stack <$> load read codecs χ := by
  rw [enter, map_eq_pure_bind]
  refine bind_congr fun a => ?_
  rcases a with ε | ⟨b, v⟩ <;> rfl

/-- A pull that needs a block reads it, and uses the store for nothing else. -/
theorem pull_eq_of_block {t : Traversal} {χ : Cid} {task : Task} {stack : List Frame}
    (h : t.demand = .block χ task stack) :
    t.pull read codecs = (fun a => t.resume task stack (opened codecs χ a)) <$> read χ := by
  rw [pull_of_demand read codecs h, enter_eq_map, load_eq_map, Functor.map_map]

end

/-! ## Stopped traversals -/

/-- The traversal has ended or failed. -/
def Stopped (t : Traversal) : Prop :=
  match t.phase with
  | .fresh _ | .underway _ _ => False
  | .done _ | .failed => True

section

variable {t : Traversal}

/-- A traversal that has stopped needs nothing, and stays as it is. -/
theorem Stopped.demand (h : t.Stopped) : t.demand = .nothing t := by
  obtain ⟨root, phase, emitted⟩ := t
  cases phase with
  | fresh program => cases h
  | underway c stack => cases h
  | done ρ => rfl
  | failed => rfl

theorem not_stopped_of_demand {χ : Cid} {task : Task} {stack : List Frame}
    (h : t.demand = .block χ task stack) : ¬t.Stopped :=
  fun stopped => nomatch h.symm.trans stopped.demand

theorem stopped_of_resolution {ρ : Resolution} (h : t.resolution? = some ρ) : t.Stopped := by
  rw [resolution?] at h
  split at h
  · next hp => simp [Stopped, hp]
  · cases h

end

/-! ## Stores with a state -/

section

variable {S : Type} (read : BlockReader (StateM S)) (codecs : Registry)

theorem run_load (χ : Cid) (s : S) :
    (load read codecs χ).run s = (opened codecs χ ((read χ).run s).1, ((read χ).run s).2) := by
  rw [load_eq_map]
  rfl

theorem run_pull_of_nothing {t u : Traversal} (h : t.demand = .nothing u) (s : S) :
    (t.pull read codecs).run s = ((.ok none, u), s) := by
  rw [pull_eq_of_nothing read codecs h]
  rfl

theorem run_pull_of_block {t : Traversal} {χ : Cid} {task : Task} {stack : List Frame}
    (h : t.demand = .block χ task stack) (s : S) :
    (t.pull read codecs).run s =
      (t.resume task stack ((load read codecs χ).run s).1, ((load read codecs χ).run s).2) := by
  rw [pull_of_demand read codecs h, enter_eq_map]
  rfl

/-- Draining is a pull, and draining what is left if that gave a block. -/
theorem run_drainFrom_succ (pulls : Nat) (before : List Block) (t : Traversal) (s : S) :
    (drainFrom read codecs (pulls + 1) before t).run s =
      match (t.pull read codecs).run s with
      | ((.ok (some b), t), s) => (drainFrom read codecs pulls (b :: before) t).run s
      | ((.ok none, t), s) => (some ⟨before.reverse, .ok t.ending⟩, s)
      | ((.error ε, _), s) => (some ⟨before.reverse, .error ε⟩, s) := by
  rw [drainFrom, StateT.run_bind]
  show (match (t.pull read codecs).run s with | (a, s) => _) = _
  rcases (t.pull read codecs).run s with ⟨⟨ε | b | b, u⟩, s₁⟩ <;> rfl

variable {read codecs}

/-- More pulls than suffice do not change what draining gives. -/
theorem run_drainFrom_of_le {n n' : Nat} (hn : n ≤ n') {before : List Block} {t : Traversal}
    {s s' : S} {sel : Selection}
    (h : (drainFrom read codecs n before t).run s = (some sel, s')) :
    (drainFrom read codecs n' before t).run s = (some sel, s') := by
  induction n generalizing n' before t s with
  | zero => cases h
  | succ n ih =>
    obtain ⟨n', rfl⟩ := Nat.exists_eq_add_one.2 (Nat.zero_lt_of_lt hn)
    rw [run_drainFrom_succ] at h ⊢
    generalize (t.pull read codecs).run s = pulled at h ⊢
    rcases pulled with ⟨⟨ε | _ | b, u⟩, s₁⟩
    · exact h
    · exact h
    · exact ih (Nat.le_of_succ_le_succ hn) h

end

/-! ## Several pulls -/

section

variable {m : Type → Type} [Monad m] (read : BlockReader m) (codecs : Registry)

/-- The answers to `n` pulls, first to last, and where they leave the traversal. -/
def answers : (n : Nat) → Traversal →
    m (List (Except TraversalError (Option Block)) × Traversal)
  | 0, t => return ([], t)
  | n + 1, t => do
    let (a, t) ← t.pull read codecs
    let (rest, t) ← answers n t
    return (a :: rest, t)

end

theorem run_answers_succ {S : Type} (read : BlockReader (StateM S)) (codecs : Registry) (n : Nat)
    (t : Traversal) (s : S) :
    (answers read codecs (n + 1) t).run s =
      let p := (t.pull read codecs).run s
      let q := (answers read codecs n p.1.2).run p.2
      ((p.1.1 :: q.1.1, q.1.2), q.2) :=
  rfl

theorem answers_succ (f : BlockReader Id) (codecs : Registry) (n : Nat) (t : Traversal) :
    answers f codecs (n + 1) t =
      let p : Except TraversalError (Option Block) × Traversal := t.pull f codecs
      let q : List (Except TraversalError (Option Block)) × Traversal := answers f codecs n p.2
      (p.1 :: q.1, q.2) :=
  rfl

/-- The blocks among answers. -/
def given (answers : List (Except TraversalError (Option Block))) : List Block :=
  answers.filterMap fun a => a.toOption.join

end BlockWalk.Traversal
