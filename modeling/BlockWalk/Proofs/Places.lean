import BlockWalk.Proofs.Invariants

/-!
# Where a walk stands

A place in a block is a path from its root, and a path that led nowhere would be read as one to a
node without value. Here is that this never happens: whatever blocks a store gives, all the paths
that a walk holds lead to nodes of blocks that it was given.

* `Cursor.Rests`, `Frame.Rests` — the paths of a cursor and of siblings that wait. What instructions
  do keeps both (`Focus.rests_kept`).
* `Walk.stepOr` — a move of a walk where the paths that lead nowhere are read in another way. It
  makes no difference (`Walk.stepOr_eq_step`).
* `Traversal.paths_resolve` — both together, for all walks that a traversal comes to.
-/

namespace BlockWalk

/-! ## Places that exist -/

section

variable (known : Node → Prop)

/-- A place in a block that is known. -/
structure Focus.Leads (f : Focus) : Prop where
  /-- the block is known -/
  root : known f.root
  /-- the path leads to a node -/
  node : ∃ v, f.node? = some v

/-- A place where a walk can go on: of the links, only one that is a whole block. -/
structure Focus.Rests (f : Focus) : Prop extends Focus.Leads known f where
  /-- a link below the root of a block is not a place to stay -/
  unlinked : ∀ χ, f.node? = some (.link χ) → f.path = []

/-- The places of a cursor exist. -/
structure Cursor.Rests (c : Cursor) : Prop where
  /-- where the cursor is -/
  focus : c.focus.Rests known
  /-- where its pass began -/
  start : ∀ f ∈ c.task.start?, f.Rests known

/-- The places of a frame exist. -/
structure Frame.Rests (φ : Frame) : Prop where
  /-- where the siblings are children of -/
  parent : φ.parent.Leads known
  /-- where the siblings are -/
  siblings : ∀ σ ∈ φ.siblings, ∃ v, (φ.parent.child σ).node? = some v
  /-- there are some -/
  nonempty : φ.siblings ≠ []
  /-- a sibling has no beginning of a pass to fall back to -/
  start : φ.task.start? = none

end

section

variable {known : Node → Prop}

namespace Focus

theorem node_of_node? {f : Focus} {v : Node} (h : f.node? = some v) : f.node = v := by
  rw [node, h, Option.getD_some]

theorem node?_child (f : Focus) (σ : Step) : (f.child σ).node? = f.node? >>= σ.apply := by
  simp only [node?, child, List.foldlM_append, List.foldlM_cons, List.foldlM_nil, bind_pure]

/-- The root of a block is always a place to stay, be it a link or not. -/
theorem rests_block {v : Node} (hv : known v) : (block v).Rests known where
  root := hv
  node := ⟨v, rfl⟩
  unlinked _ _ := rfl

/-- A walk comes to a child, or through it to another block. -/
theorem Leads.arrival {f : Focus} (h : f.Leads known) {σ : Step}
    (child : ∃ v, (f.child σ).node? = some v) {task : Task}
    (start : ∀ g ∈ task.start?, g.Rests known) :
    Arrival known (Cursor.Rests known) (f.child σ) task where
  inside hlink := by
    refine ⟨⟨⟨h.root, child⟩, fun χ hχ => ?_⟩, start⟩
    rw [node_of_node? hχ] at hlink
    cases hlink
  opened v hv := ⟨rests_block hv, start⟩

end Focus

namespace Cursor

variable {c : Cursor} {m : Match} {task : Task}

/-- What an instruction leads to is there. -/
theorem Does.exists_child (does : c.Does (.children m task)) (h : c.focus.Leads known) {σ : Step}
    (hσ : σ ∈ m.steps) : ∃ v, (c.focus.child σ).node? = some v := by
  obtain ⟨w, hw⟩ := h.node
  obtain ⟨p, visit⟩ : ∃ p : Pick, p.visit c.focus.node = some m := by
    cases does with
    | matching next visit => exact ⟨_, visit⟩
    | matchingInPass next visit => exact ⟨_, visit⟩
  rw [Focus.node_of_node? hw] at visit
  obtain ⟨v, hv⟩ := Pick.apply_of_visit visit σ hσ
  refine ⟨v, ?_⟩
  rw [Focus.node?_child, hw]
  exact hv

/-- A pass goes on where it began. -/
theorem Does.start?_children (does : c.Does (.children m task)) : task.start? = c.task.start? := by
  cases does <;> rfl

end Cursor

theorem Frame.Rests.later {f : Focus} {σ : Step} {later : List Step} {task : Task}
    (h : Frame.Rests known ⟨f, σ :: later, task⟩) (some : later ≠ []) :
    Frame.Rests known ⟨f, later, task⟩ where
  parent := h.parent
  siblings τ hτ := h.siblings τ (List.mem_cons_of_mem _ hτ)
  nonempty := some
  start := h.start

/-- **Moves keep that places exist.** A cursor stays where it is or goes back to where its pass
began, it goes to a child that matched, or it comes to the root of another block. -/
theorem Focus.rests_kept :
    Kept known (Cursor.Rests known) (Frame.Rests known) fun _ => True where
  stay c d hc does := by
    cases does with
    | firstPass => exact ⟨hc.focus, fun f hf => Option.some.inj hf ▸ hc.focus⟩
    | lastPass => exact ⟨hc.focus, fun f hf => nomatch hf⟩
    | nextPass => exact ⟨hc.focus, fun f hf => Option.some.inj hf ▸ hc.focus⟩
    | fallBack next visit start => exact ⟨hc.start _ start, fun f hf => nomatch hf⟩
  ended _ _ _ _ := trivial
  child c m task hc does := by
    have here := hc.focus.toLeads
    have start : ∀ g ∈ task.start?, g.Rests known := by
      rw [does.start?_children]
      exact hc.start
    refine ⟨here.arrival (does.exists_child here List.mem_cons_self) start, fun some => ?_⟩
    have waiting (σ : Step) (hσ : σ ∈ m.siblings) :=
      does.exists_child here (List.mem_cons_of_mem m.next hσ)
    exact ⟨here, waiting, some, task.start?_forSiblings⟩
  sibling f σ later task h := by
    have start : ∀ g ∈ task.start?, g.Rests known := by
      rw [h.start]
      exact nofun
    exact ⟨h.parent.arrival (h.siblings σ List.mem_cons_self) start, h.later⟩

end

/-! ## Paths that lead nowhere

To say that no path that leads nowhere is looked at, let such paths be read as ones to another node,
and compare. -/

section

variable (missing : Node)

/-- The node that the path leads to, or `missing`. -/
def Focus.nodeOr (f : Focus) : Node := f.node?.getD missing

/-- What the next instruction of a cursor does if a path that leads nowhere is read as one to
`missing`. -/
def Cursor.advanceOr (c : Cursor) : Advance :=
  match c.task with
  | .top program =>
    match program.next? with
    | none => .exhausted []
    | some (.recursive r, after) => r.enter c.focus after
    | some (.pick p, after) =>
      match p.visit (c.focus.nodeOr missing) with
      | some m => .children m (.top after)
      | none => .exhausted program.remaining
  | .pass picks scope =>
    match picks.next? with
    | none => .stay (scope.endOfPass c.focus)
    | some (p, rest) =>
      match p.visit (c.focus.nodeOr missing) with
      | some m => .children m (.pass rest scope)
      | none => scope.halt

namespace Walk

/-- Comes to a child, which is `missing` if the path leads nowhere. -/
def arriveOr (f : Focus) (task : Task) (stack : List Frame) : Walk ⊕ Landing :=
  match (f.nodeOr missing).asLink? with
  | some χ => .inr (.block χ task stack)
  | none => .inl (.running ⟨f, task⟩ stack)

/-- One move of a walk if paths that lead nowhere are read as ones to `missing`. -/
def stepOr : Walk → Walk ⊕ Landing
  | .running c stack =>
    match c.advanceOr missing with
    | .exhausted rest => .inl (.exhausted rest stack)
    | .stay d => .inl (.running d stack)
    | .children m task =>
      arriveOr missing (c.focus.child m.next) task
        (defer c.focus m.siblings task.forSiblings stack)
  | .exhausted rest [] => .inr (.ended rest)
  | .exhausted rest (φ :: stack) =>
    match φ.siblings with
    | [] => .inl (.exhausted rest stack)
    | σ :: later =>
      arriveOr missing (φ.parent.child σ) φ.task (defer φ.parent later φ.task stack)

end Walk

end

/-- As a node without value, they are read as ever. -/
theorem Walk.stepOr_null : stepOr .null = step := rfl

section

variable {known : Node → Prop} (missing : Node)

theorem Focus.nodeOr_eq_node {f : Focus} (h : ∃ v, f.node? = some v) :
    f.nodeOr missing = f.node := by
  obtain ⟨v, hv⟩ := h
  rw [nodeOr, node_of_node? hv, hv, Option.getD_some]

theorem Cursor.advanceOr_eq_advance {c : Cursor} (h : ∃ v, c.focus.node? = some v) :
    c.advanceOr missing = c.advance := by
  rw [advanceOr, Focus.nodeOr_eq_node missing h]
  rfl

theorem Walk.arriveOr_eq_arrive {f : Focus} (h : ∃ v, f.node? = some v) (task : Task)
    (stack : List Frame) : arriveOr missing f task stack = arrive f task stack := by
  rw [arriveOr, Focus.nodeOr_eq_node missing h]
  rfl

/-- **It does not matter how paths that lead nowhere are read**, since a move looks at the cursor,
at the child where it goes on and at the sibling that it resumes, and all of them exist. -/
theorem Walk.stepOr_eq_step {w : Walk} (cursor : ∀ c ∈ w.cursor?, c.Rests known)
    (waiting : ∀ φ ∈ w.stack, φ.Rests known) : w.stepOr missing = w.step := by
  cases w with
  | running c stack =>
    have here := (cursor c rfl).focus.toLeads
    rw [stepOr, step, Cursor.advanceOr_eq_advance missing here.node]
    cases hc : c.advance with
    | exhausted rest => rfl
    | stay d => rfl
    | children m task =>
      have child := (Cursor.does_of_advance hc).exists_child here List.mem_cons_self
      exact arriveOr_eq_arrive missing child _ _
  | exhausted rest stack =>
    cases stack with
    | nil => rfl
    | cons φ stack =>
      obtain ⟨parent, siblings, task⟩ := φ
      cases siblings with
      | nil => rfl
      | cons σ later =>
        have first := (waiting _ List.mem_cons_self).siblings σ List.mem_cons_self
        exact arriveOr_eq_arrive missing first _ _

end

/-! ## Walks of a traversal -/

/-- All places of a walk exist, and it does not matter how paths that lead nowhere are read. -/
structure Walk.Resolves (known : Node → Prop) (w : Walk) : Prop where
  /-- the places of the cursor -/
  cursor : ∀ c ∈ w.cursor?, c.Rests known
  /-- the places of the siblings that wait -/
  waiting : ∀ φ ∈ w.stack, φ.Rests known
  /-- the next move does not depend on what such a path would be read as -/
  moves : ∀ missing, w.stepOr missing = w.step

/-- **All paths lead to nodes.** Take the walks that lead from one block to the next, after any
number of pulls of a document and whatever the store does. The place of the cursor, the beginning of
its pass, the parents of all siblings that wait and the siblings themselves are nodes of blocks that
were given out. No frame is without siblings. The cursor, and where its pass began, are at a link
only if that link is a whole block. -/
theorem Traversal.paths_resolve {S : Type} {read : BlockReader (StateM S)} {codecs : Registry}
    {d : Document} {s : S} {n : Nat} {w : Walk}
    (met : (record read codecs d s n).traversal.Meets w) :
    w.Resolves (Opened read codecs d s n) := by
  have start : ∀ v, Opened read codecs d s n v →
      Cursor.Rests (Opened read codecs d s n) ⟨.block v, .top (.start d.program)⟩ :=
    fun v hv => ⟨Focus.rests_block hv, nofun⟩
  have state := holds_record Focus.rests_kept start n fun v hv => hv
  have walk := state.meets Focus.rests_kept met
  exact ⟨walk.cursor, walk.stack, fun missing => Walk.stepOr_eq_step missing walk.cursor walk.stack⟩

open ListOfLists in
/-- The cursor is at the first item of a list, and the other item waits. -/
theorem Traversal.paths_resolve_listOfLists :
    (record Store.memory.get codecs document memory 1).traversal.Meets walk
      ∧ walk.Resolves (Opened Store.memory.get codecs document memory 1) :=
  ⟨meets, paths_resolve meets⟩

end BlockWalk
