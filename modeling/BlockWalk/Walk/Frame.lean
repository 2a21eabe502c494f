import BlockWalk.Walk.Cursor

/-!
# Walks

A walk has a cursor and a stack of siblings that wait for their turn; when a branch ends, the walk
goes back to the sibling deferred last. `Walk.step` does one thing: an instruction of the cursor, or
a look at the uppermost frame of the stack.

A walk moves inside blocks that were read. Where a child is a link it stops and names the block.
-/

namespace BlockWalk

/-- Siblings that wait until the branch before them has ended. -/
structure Frame where
  /-- the place they are children of -/
  parent : Focus
  /-- the ways to them, in order -/
  siblings : List Step
  /-- what is left to do at each -/
  task : Task
  deriving Repr

/-- A walk between two blocks. -/
inductive Walk where
  /-- the cursor and the siblings that wait, those deferred last first -/
  | running (c : Cursor) (stack : List Frame)
  /-- the branch has ended with instructions left over -/
  | exhausted (rest : List Selector) (stack : List Frame)
  deriving Repr

/-- What a walk comes to. -/
inductive Landing where
  /-- a link: its block is to be read, and `task` is left to do at the root of that block -/
  | block (χ : Cid) (task : Task) (stack : List Frame)
  /-- no branch is left; `rest` was left over on the last one -/
  | ended (rest : List Selector)
  deriving Repr

namespace Walk

/-- Puts siblings off, if there are any. -/
def defer (parent : Focus) (siblings : List Step) (task : Task) (stack : List Frame) : List Frame :=
  if siblings.isEmpty then stack else ⟨parent, siblings, task⟩ :: stack

/-- Comes to a child. -/
def arrive (f : Focus) (task : Task) (stack : List Frame) : Walk ⊕ Landing :=
  match f.node.asLink? with
  | some χ => .inr (.block χ task stack)
  | none => .inl (.running ⟨f, task⟩ stack)

/-- One move of a walk. -/
def step : Walk → Walk ⊕ Landing
  | .running c stack =>
    match c.advance with
    | .exhausted rest => .inl (.exhausted rest stack)
    | .stay d => .inl (.running d stack)
    | .children m task =>
      arrive (c.focus.child m.next) task (defer c.focus m.siblings task.forSiblings stack)
  | .exhausted rest [] => .inr (.ended rest)
  | .exhausted rest (φ :: stack) =>
    match φ.siblings with
    | [] => .inl (.exhausted rest stack)
    | σ :: later => arrive (φ.parent.child σ) φ.task (defer φ.parent later φ.task stack)

end Walk

end BlockWalk
