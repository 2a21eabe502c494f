import BlockWalk.Proofs.Correspondence
import Mathlib.Data.List.Forall2

/-!
# Traversals in step

Two programs can be compared while they are run: a relation `T` between what is left to do in the
one and in the other, which every instruction keeps. The instructions need not go one by one: where
the first walk begins a pass, the second may have nothing to do and wait (`InStep.wait`).

* `Simulates` — the instructions of a cursor are kept in step with those of another.
* `Walk.alike_seek` — then the searches for the next block come to the same block, or both to an
  end.
* `Traversal.stream_eq_of_alike`, `Traversal.seen_drain_eq_of_alike` — then both traversals give the
  same blocks and the same error. This is said of every store, whatever monad it works in, and of
  any number of pulls, so of traversals without an end too.

Nothing is said about what is left over.
-/

namespace BlockWalk

/-! ## Taking an instruction -/

theorem Program.next?_of_nil {α : Type} {p : Program α} (h : p.remaining = []) :
    p.next? = none := by
  rw [next?, h]

/-- The first instruction that remains can be taken. -/
theorem Program.next?_of_cons {α : Type} {p : Program α} {a : α} {rest : List α}
    (h : p.remaining = a :: rest) : ∃ q, p.next? = some (a, q) ∧ q.remaining = rest := by
  rw [next?, h]
  exact ⟨_, rfl, rfl⟩

namespace Cursor

variable {f : Focus} {program after : Program Selector} {picks rest : Program Pick} {s : Scope}

/-- Without instructions a branch ends. -/
theorem advance_of_nil (h : program.remaining = []) :
    advance ⟨f, .top program⟩ = .exhausted [] := by
  simp only [advance, Program.next?_of_nil h]

theorem advance_recursive {r : Recursion} (h : program.next? = some (.recursive r, after)) :
    advance ⟨f, .top program⟩ = r.enter f after := by
  simp only [advance, h]

theorem advance_pick {p : Pick} (h : program.next? = some (.pick p, after)) :
    advance ⟨f, .top program⟩ =
      match p.visit f.node with
      | some m => .children m (.top after)
      | none => .exhausted program.remaining := by
  cases hv : p.visit f.node <;> simp only [advance, h, hv]

theorem advance_endOfPass (h : picks.remaining = []) :
    advance ⟨f, .pass picks s⟩ = .stay (s.endOfPass f) := by
  simp only [advance, Program.next?_of_nil h]

theorem advance_pass {p : Pick} (h : picks.next? = some (p, rest)) :
    advance ⟨f, .pass picks s⟩ =
      match p.visit f.node with
      | some m => .children m (.pass rest s)
      | none => s.halt := by
  cases hv : p.visit f.node <;> simp only [advance, h, hv]

end Cursor

/-! ## Relations between tasks -/

section

variable (T : Task → Task → Prop)

/-- The same siblings, with tasks that are related. -/
def Frame.Alike (φ φ' : Frame) : Prop :=
  φ.parent = φ'.parent ∧ φ.siblings = φ'.siblings ∧ T φ.task φ'.task

/-- What an instruction leads to, seen next to a cursor `c` at the same node. -/
inductive InStep (c : Cursor) : Advance → Prop
  /-- both branches end -/
  | exhausted {rest rest' : List Selector} (h : c.advance = .exhausted rest') :
      InStep c (.exhausted rest)
  /-- both go to the same children -/
  | children {m : Match} {task task' : Task} (h : c.advance = .children m task')
      (first : T task task') (siblings : T task.forSiblings task'.forSiblings) :
      InStep c (.children m task)
  /-- both go on at the same node -/
  | stay {f : Focus} {task task' : Task} (h : c.advance = .stay ⟨f, task'⟩)
      (related : T task task') : InStep c (.stay ⟨f, task⟩)
  /-- `c` waits -/
  | wait {task : Task} (related : T task c.task) : InStep c (.stay ⟨c.focus, task⟩)
  /-- the branch of `c` ends, and the other has nothing left to do -/
  | fallen {f : Focus} {program : Program Selector} {rest' : List Selector}
      (h : c.advance = .exhausted rest') (nil : program.remaining = []) :
      InStep c (.stay ⟨f, .top program⟩)

/-- The instructions of related tasks are in step. -/
def Simulates : Prop :=
  ∀ f task task', T task task' → InStep T ⟨f, task'⟩ (Cursor.advance ⟨f, task⟩)

/-- Walks in step. -/
inductive Walk.Alike : Walk → Walk → Prop
  /-- at the same node -/
  | running {f : Focus} {task task' : Task} {stack stack' : List Frame} (related : T task task')
      (waiting : List.Forall₂ (Frame.Alike T) stack stack') :
      Alike (.running ⟨f, task⟩ stack) (.running ⟨f, task'⟩ stack')
  /-- after a branch -/
  | exhausted {rest rest' : List Selector} {stack stack' : List Frame}
      (waiting : List.Forall₂ (Frame.Alike T) stack stack') :
      Alike (.exhausted rest stack) (.exhausted rest' stack')
  /-- after a branch, where the first walk has still to find that nothing is left to do -/
  | fallen {f : Focus} {program : Program Selector} {rest' : List Selector}
      {stack stack' : List Frame} (nil : program.remaining = [])
      (waiting : List.Forall₂ (Frame.Alike T) stack stack') :
      Alike (.running ⟨f, .top program⟩ stack) (.exhausted rest' stack')

/-- Landings at the same block, or both at the end. -/
inductive Landing.Alike : Landing → Landing → Prop
  /-- at a block -/
  | block {χ : Cid} {task task' : Task} {stack stack' : List Frame} (related : T task task')
      (waiting : List.Forall₂ (Frame.Alike T) stack stack') :
      Alike (.block χ task stack) (.block χ task' stack')
  /-- at the end -/
  | ended {rest rest' : List Selector} : Alike (.ended rest) (.ended rest')

end

variable {T : Task → Task → Prop}

/-! ## Moves -/

/-- Siblings are put off alike. -/
theorem Walk.alike_defer {task task' : Task} {stack stack' : List Frame} (related : T task task')
    (waiting : List.Forall₂ (Frame.Alike T) stack stack') (parent : Focus)
    (siblings : List Step) :
    List.Forall₂ (Frame.Alike T) (defer parent siblings task stack)
      (defer parent siblings task' stack') := by
  rw [defer, defer]
  split
  · exact waiting
  · exact .cons ⟨rfl, rfl, related⟩ waiting

/-- After a move of the first walk, the second is in step with it at once or after a move of its
own; and if the first lands, so does the second. -/
def Walk.MovesWith (T : Task → Task → Prop) (w' : Walk) : Walk ⊕ Landing → Prop
  | .inl v => v.Alike T w' ∨ ∃ v', w'.step = .inl v' ∧ v.Alike T v'
  | .inr landing => ∃ landing', w'.step = .inr landing' ∧ landing.Alike T landing'

/-- Both come to the same child. -/
theorem Walk.movesWith_arrive {w' : Walk} {f : Focus} {task task' : Task}
    {stack stack' : List Frame} (h : w'.step = arrive f task' stack') (related : T task task')
    (waiting : List.Forall₂ (Frame.Alike T) stack stack') :
    w'.MovesWith T (arrive f task stack) := by
  rw [arrive] at h ⊢
  split at h
  · exact ⟨_, h, .block related waiting⟩
  · exact .inr ⟨_, h, .running related waiting⟩

/-- The first move of a walk, by what the instruction of its cursor leads to. -/
theorem Walk.step_running {c : Cursor} {a : Advance} : c.advance = a → ∀ stack : List Frame,
    (running c stack).step =
      match a with
      | .exhausted rest => .inl (.exhausted rest stack)
      | .stay d => .inl (.running d stack)
      | .children m task =>
        arrive (c.focus.child m.next) task
          (defer c.focus m.siblings task.forSiblings stack) := by
  rintro rfl stack
  rfl

/-- Instructions in step keep walks in step. -/
theorem InStep.movesWith {c c' : Cursor} {a : Advance} {stack stack' : List Frame}
    (h : InStep T c' a) (ha : c.advance = a) (focus : c.focus = c'.focus)
    (waiting : List.Forall₂ (Frame.Alike T) stack stack') :
    (Walk.running c' stack').MovesWith T (Walk.running c stack).step := by
  rw [Walk.step_running ha]
  cases h with
  | exhausted h => exact .inr ⟨_, Walk.step_running h stack', .exhausted waiting⟩
  | children h first siblings =>
    refine Walk.movesWith_arrive ?_ first (Walk.alike_defer siblings waiting _ _)
    rw [Walk.step_running h, focus]
  | stay h related => exact .inr ⟨_, Walk.step_running h stack', .running related waiting⟩
  | wait related => exact .inl (.running related waiting)
  | fallen h nil => exact .inr ⟨_, Walk.step_running h stack', .fallen nil waiting⟩

/-- **Walks in step move in step.** -/
theorem Walk.Alike.movesWith (hT : Simulates T) {w w' : Walk} (h : w.Alike T w') :
    w'.MovesWith T w.step := by
  cases h with
  | running related waiting => exact (hT _ _ _ related).movesWith rfl rfl waiting
  | fallen nil waiting =>
    -- only the first walk moves
    rw [step_running (Cursor.advance_of_nil nil)]
    exact .inl (.exhausted waiting)
  | exhausted waiting =>
    cases waiting with
    | nil => exact ⟨_, rfl, .ended⟩
    | @cons φ φ' stack stack' hφ waiting =>
      obtain ⟨parent, siblings, task⟩ := φ
      obtain ⟨parent', siblings', task'⟩ := φ'
      obtain ⟨rfl, rfl, related⟩ : parent = parent' ∧ siblings = siblings' ∧ T task task' := hφ
      cases siblings with
      | nil => exact .inr ⟨_, rfl, .exhausted waiting⟩
      | cons σ later =>
        exact movesWith_arrive rfl related (alike_defer related waiting parent later)

theorem Walk.seek_of_inl {w v : Walk} (h : w.step = .inl v) : w.seek = v.seek := by
  rw [seek]
  split <;> simp_all

theorem Walk.seek_of_inr {w : Walk} {landing : Landing} (h : w.step = .inr landing) :
    w.seek = landing := by
  rw [seek]
  split <;> simp_all

/-- **The searches of walks in step come to like landings.** -/
theorem Walk.alike_seek (hT : Simulates T) {w w' : Walk} (h : w.Alike T w') :
    w.seek.Alike T w'.seek := by
  fun_induction Walk.seek w generalizing w' with
  | case1 w v hs ih =>
    have hm := h.movesWith hT
    rw [hs] at hm
    rcases hm with hv | ⟨v', hs', hv⟩
    · exact ih hv
    · rw [seek_of_inl hs']
      exact ih hv
  | case2 w landing hs =>
    have hm := h.movesWith hT
    rw [hs] at hm
    obtain ⟨landing', hs', hl⟩ := hm
    rw [seek_of_inr hs']
    exact hl

/-! ## Traversals -/

namespace Traversal

/-- The same block is needed, or no block. -/
inductive Demand.Alike (T : Task → Task → Prop) : Demand → Demand → Prop
  /-- no block -/
  | nothing {t t' : Traversal} : Alike T (.nothing t) (.nothing t')
  /-- the same block -/
  | block {χ : Cid} {task task' : Task} {stack stack' : List Frame} (related : T task task')
      (waiting : List.Forall₂ (Frame.Alike T) stack stack') :
      Alike T (.block χ task stack) (.block χ task' stack')

/-- Traversals in step. -/
def Alike (T : Task → Task → Prop) (t t' : Traversal) : Prop := t.demand.Alike T t'.demand

/-- The blocks of a selection, and the error that ended it, if one did. -/
def Selection.seen (sel : Selection) : List Block × Except TraversalError Unit :=
  (sel.blocks, sel.outcome.map fun _ => ())

/-- Traversals that go on at the root of the same block are in step. -/
theorem alike_entered (hT : Simulates T) {task task' : Task} {stack stack' : List Frame}
    (related : T task task') (waiting : List.Forall₂ (Frame.Alike T) stack stack')
    (t t' : Traversal) (v : Node) :
    Alike T (t.entered v task stack) (t'.entered v task' stack') := by
  have h := Walk.alike_seek hT (.running (f := .block v) related waiting)
  rw [Alike, demand, demand, entered, entered]
  dsimp only
  generalize (Walk.running ⟨.block v, task⟩ stack).seek = landing at h ⊢
  generalize (Walk.running ⟨.block v, task'⟩ stack').seek = landing' at h ⊢
  cases h with
  | block related waiting => exact .block related waiting
  | ended => exact .nothing

section

variable {m : Type → Type} [Monad m] [LawfulMonad m] (read : BlockReader m) (codecs : Registry)

/-- **Whatever is done with the pulls of two traversals in step is the same**, if it does not look
at the traversals themselves. -/
theorem pull_bind_eq_of_alike (hT : Simulates T) {t t' : Traversal} (h : Alike T t t') {β : Type}
    {k k' : Except TraversalError (Option Block) × Traversal → m β}
    (nothing : ∀ u u', k (.ok none, u) = k' (.ok none, u'))
    (error : ∀ ε u u', k (.error ε, u) = k' (.error ε, u'))
    (block : ∀ b u u', Alike T u u' → k (.ok (some b), u) = k' (.ok (some b), u')) :
    t.pull read codecs >>= k = t'.pull read codecs >>= k' := by
  rw [Alike] at h
  generalize hd : t.demand = need at h
  generalize hd' : t'.demand = need' at h
  cases h with
  | @nothing u u' =>
    rw [pull_eq_of_nothing read codecs hd, pull_eq_of_nothing read codecs hd', pure_bind, pure_bind]
    exact nothing u u'
  | @block χ _ _ _ _ related waiting =>
    rw [pull_eq_of_block read codecs hd, pull_eq_of_block read codecs hd', bind_map_left,
      bind_map_left]
    refine bind_congr fun a => ?_
    rcases opened codecs χ a with ε | ⟨b, v⟩
    · exact error ε _ _
    · exact block b _ _ (alike_entered hT related waiting t t' v)

/-- **Traversals in step give the same blocks**, and the same error after them if there is one. -/
theorem stream_eq_of_alike (hT : Simulates T) (n : Nat) {t t' : Traversal} (h : Alike T t t') :
    stream read codecs n t = stream read codecs n t' := by
  induction n generalizing t t' with
  | zero => rfl
  | succ n ih =>
    rw [stream, stream]
    refine pull_bind_eq_of_alike read codecs hT h (fun _ _ => rfl) (fun _ _ _ => rfl) ?_
    intro b u u' hu
    simp only [ih hu]

/-- **Draining traversals in step gives the same blocks and the same error**, or does not end by so
many pulls. -/
theorem seen_drain_eq_of_alike (hT : Simulates T) (n : Nat) {t t' : Traversal}
    (h : Alike T t t') :
    Option.map Selection.seen <$> t.drain read codecs n
      = Option.map Selection.seen <$> t'.drain read codecs n := by
  rw [drain, drain]
  generalize ([] : List Block) = before
  induction n generalizing before t t' with
  | zero => rfl
  | succ n ih =>
    rw [drainFrom, drainFrom, map_bind, map_bind]
    refine pull_bind_eq_of_alike read codecs hT h ?_ ?_ ?_
    · intro u u'
      simp only [map_pure]
      rfl
    · intro ε u u'
      rfl
    · intro b u u' hu
      exact ih hu (b :: before)

end

end Traversal

end BlockWalk
