import BlockWalk.Walk.Frame

/-!
# The search for the next block

`Walk.seek` moves a walk until it comes to a link or to its end. It always does: no block is read on
the way, so the walk goes down inside finitely many blocks that it already has, and a pass of a
recursion goes down as well.

`Cursor.weight` makes that a number. It counts the moves of a cursor and of all the siblings that it
will put off, and every move of a walk lowers the sum of the weights of its cursor and its frames.
-/

namespace BlockWalk

/-! ## Children are smaller -/

/-- A node without value has no children. -/
theorem Step.apply_null (σ : Step) : σ.apply .null = none := by cases σ <;> rfl

/-- The node of a child is the child of the node. -/
theorem Focus.node_child (f : Focus) (σ : Step) :
    (f.child σ).node = (σ.apply f.node).getD .null := by
  simp only [node, node?, child, List.foldlM_append, List.foldlM_cons, List.foldlM_nil]
  cases f.path.foldlM (fun v σ => σ.apply v) f.root with
  | none => simp [Step.apply_null]
  | some v => simp

/-- The children that a pick leads to are smaller than the node. -/
theorem Pick.sizeOf_child_lt {p : Pick} {f : Focus} {m : Match} (h : p.visit f.node = some m)
    {σ : Step} (hσ : σ ∈ m.steps) : sizeOf (f.child σ).node < sizeOf f.node := by
  obtain ⟨w, hw⟩ := Pick.apply_of_visit h σ hσ
  rw [Focus.node_child, hw]
  exact Step.sizeOf_lt_of_apply hw

/-! ## Rank

What an instruction leads to has a lower rank than the cursor it is an instruction of: less of the
document's program is left, or the node is smaller, or a pass that had ended begins anew. -/

/-- How much of the document's program is left, in half instructions. -/
def Task.level : Task → Nat
  | top program => 2 * program.remaining.length
  | pass _ scope => 2 * scope.after.remaining.length + 1

/-- Whether a pass has ended. -/
def Task.phase : Task → Nat
  | top _ => 0
  | pass picks _ => if picks.remaining.isEmpty then 1 else 0

/-- What falls with every instruction. -/
noncomputable def Cursor.rank (c : Cursor) : Nat × Nat × Nat :=
  (c.task.level, sizeOf c.focus.node, c.task.phase)

/-- The order of ranks: the first difference counts. -/
def rankOrder : Nat × Nat × Nat → Nat × Nat × Nat → Prop :=
  Prod.Lex (· < ·) (Prod.Lex (· < ·) (· < ·))

theorem Task.level_forSiblings (t : Task) : t.forSiblings.level = t.level := by
  cases t <;> rfl

/-- What comes after an instruction has a level lower by two. -/
theorem Program.level_of_next? {p after : Program Selector} {s : Selector}
    (h : p.next? = some (s, after)) : (Task.top p).level = (Task.top after).level + 2 := by
  have := remaining_of_next? h
  simp only [Task.level, this, List.length_cons]
  omega

/-- A new pass has a pick. -/
theorem Scope.phase_newPass (s : Scope) (f : Focus) : (s.newPass f).task.phase = 0 := by
  simp [newPass, Task.phase, Program.start, s.recursion.follow_ne_nil]

/-- A pass without a pick left has ended. -/
theorem Program.phase_of_next? {p : Program Pick} {s : Scope} (h : p.next? = none) :
    (Task.pass p s).phase = 1 := by
  unfold next? at h
  split at h
  · next hr => simp [Task.phase, hr]
  · cases h

/-- A cursor that stays has a lower rank. -/
theorem Cursor.rank_stay {c d : Cursor} (h : c.advance = .stay d) : rankOrder d.rank c.rank := by
  cases does_of_advance h with
  | @firstPass f program after r next =>
    have lower := Program.level_of_next? next
    exact .left _ _ (show (Task.top after).level + 1 < (Task.top program).level by omega)
  | lastPass => exact .left _ _ (Nat.lt_succ_self _)
  | nextPass empty =>
    refine .right _ (.right _ ?_)
    rw [Program.phase_of_next? empty, Scope.phase_newPass]
    exact Nat.zero_lt_one
  | fallBack => exact .left _ _ (Nat.lt_succ_self _)

/-- The children have a lower rank, whichever of the two tasks is done there. -/
theorem Cursor.rank_child {c : Cursor} {m : Match} {task : Task}
    (h : c.advance = .children m task) {σ : Step} (hσ : σ ∈ m.steps) (t : Task)
    (hl : t.level = task.level) : rankOrder (Cursor.rank ⟨c.focus.child σ, t⟩) c.rank := by
  cases does_of_advance h with
  | @matching f program after p m next =>
    have lower := Program.level_of_next? next
    exact .left _ _ (show t.level < (Task.top program).level by omega)
  | @matchingInPass f picks rest s p m next visit =>
    -- a pick of a pass leaves the level as it is, but leads down
    rw [rank, show t.level = (Task.pass picks s).level from hl]
    exact .right _ (.left _ _ (Pick.sizeOf_child_lt visit hσ))

/-! ## Weight -/

/-- The sum of weights. -/
def total (weights : List Nat) : Nat := weights.foldr (· + ·) 0

@[simp] theorem total_nil : total [] = 0 := rfl

@[simp] theorem total_cons (n : Nat) (weights : List Nat) :
    total (n :: weights) = n + total weights := rfl

/-- A bound on the moves of a cursor and of the siblings that it puts off. -/
def Cursor.weight (c : Cursor) : Nat :=
  match h : c.advance with
  | .exhausted _ => 1
  | .stay d => 1 + weight d
  | .children m task =>
    3 + weight ⟨c.focus.child m.next, task⟩
      + total (m.siblings.attach.map fun σ => 1 + weight ⟨c.focus.child σ.1, task.forSiblings⟩)
termination_by c.rank
decreasing_by
  · exact c.rank_stay h
  · exact c.rank_child h List.mem_cons_self task rfl
  · exact c.rank_child h (List.mem_cons_of_mem _ σ.2) task.forSiblings task.level_forSiblings

theorem Cursor.weight_pos (c : Cursor) : 0 < c.weight := by
  rw [weight]
  split <;> omega

theorem Cursor.weight_stay {c d : Cursor} (h : c.advance = .stay d) :
    c.weight = 1 + d.weight := by
  rw [weight]
  split <;> simp_all

theorem Cursor.weight_children {c : Cursor} {m : Match} {task : Task}
    (h : c.advance = .children m task) :
    c.weight = 3 + weight ⟨c.focus.child m.next, task⟩
      + total (m.siblings.map fun σ => 1 + weight ⟨c.focus.child σ, task.forSiblings⟩) := by
  rw [weight]
  split <;> simp_all [List.attach_map_val
    (f := fun σ => 1 + weight ⟨c.focus.child σ, task.forSiblings⟩)]

/-- A bound on the moves of the siblings of a frame, and on the looks at it. -/
def Frame.weight (φ : Frame) : Nat :=
  1 + total (φ.siblings.map fun σ => 1 + Cursor.weight ⟨φ.parent.child σ, φ.task⟩)

namespace Walk

/-- A bound on the moves of a walk. -/
def weight : Walk → Nat
  | running c stack => c.weight + total (stack.map Frame.weight)
  | exhausted _ stack => total (stack.map Frame.weight)

/-- Siblings that are put off weigh no more than a frame that holds them. -/
theorem weight_defer_le (parent : Focus) (siblings : List Step) (task : Task)
    (stack : List Frame) :
    total ((defer parent siblings task stack).map Frame.weight)
      ≤ Frame.weight ⟨parent, siblings, task⟩ + total (stack.map Frame.weight) := by
  unfold defer
  split
  · omega
  · simp

/-- A child where the walk goes on is a cursor there. -/
theorem eq_running_of_arrive {f : Focus} {task : Task} {stack : List Frame} {w : Walk}
    (h : arrive f task stack = .inl w) : w = .running ⟨f, task⟩ stack := by
  unfold arrive at h
  split at h
  · cases h
  · exact (Sum.inl.inj h).symm

/-- Every move lowers the weight. -/
theorem weight_step {w v : Walk} (h : w.step = .inl v) : v.weight < w.weight := by
  cases w with
  | running c stack =>
    simp only [step] at h
    split at h
    · obtain rfl := Sum.inl.inj h
      have := c.weight_pos
      simp only [weight]
      omega
    · next hc =>
      obtain rfl := Sum.inl.inj h
      simp only [weight, Cursor.weight_stay hc]
      omega
    · next m task hc =>
      obtain rfl := eq_running_of_arrive h
      have := weight_defer_le c.focus m.siblings task.forSiblings stack
      simp only [Frame.weight] at this
      simp only [weight, Cursor.weight_children hc]
      omega
  | exhausted rest stack =>
    cases stack with
    | nil => cases h
    | cons φ stack =>
      simp only [step] at h
      split at h
      · next hφ =>
        obtain rfl := Sum.inl.inj h
        simp [weight, Frame.weight, hφ]
      · next σ later hφ =>
        obtain rfl := eq_running_of_arrive h
        have := weight_defer_le φ.parent later φ.task stack
        simp only [Frame.weight] at this
        simp only [weight, List.map_cons, total_cons, Frame.weight, hφ]
        omega

/-- Moves until the walk comes to a link or to its end. -/
def seek (w : Walk) : Landing :=
  match _h : w.step with
  | .inl v => seek v
  | .inr landing => landing
termination_by w.weight
decreasing_by exact weight_step _h

end Walk

end BlockWalk
