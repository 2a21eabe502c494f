import BlockWalk.Proofs.DepthFirst
import BlockWalk.Proofs.Pulls

/-!
# A walk with a stack is a depth-first evaluation

A walk keeps what it has put off on a stack of frames; depth-first evaluation keeps nothing, since
it comes back to it. Here every walk is given a behaviour in terms of depth-first evaluation: that
of its cursor, and then that of the siblings on its stack in turn. A move of the walk does not
change the behaviour (`Walk.behaviour_step`), so neither does the search for the next block, and
what the pulls of a traversal give is what the evaluation gives (`Traversal.gives_of_drainFrom` and
`Traversal.drainFrom_of_gives`). The evaluation has its own words for what comes of a link and for
how a document ends; they say what the traversal computes (`fetches_iff`, `selects_iff`).

For a whole document this says that draining its traversal ends with some blocks and an ending
exactly if depth-first evaluation does (`Traversal.drain_iff_selects`).
-/

namespace BlockWalk

/-! ## Plans of tasks -/

/-- Nothing remains where no instruction can be taken. -/
theorem Program.remaining_eq_nil {α : Type} {p : Program α} (h : p.next? = none) :
    p.remaining = [] := by
  rw [next?] at h
  split at h
  · assumption
  · cases h

/-- The plan that a task is. A running pass counts, so at least one pass is left. -/
def Task.plan : Task → Plan
  | top program => .top program.remaining
  | pass picks scope =>
    .pass picks.remaining scope.recursion (scope.passes.map (max 1)) scope.after.remaining
      (scope.start.map Focus.node)

theorem Task.plan_forSiblings (t : Task) : t.forSiblings.plan = t.plan.forSiblings := by
  cases t <;> rfl

/-- What a cursor has to do. -/
def Cursor.errand (c : Cursor) : Errand := .node c.focus.node c.task.plan

/-- The siblings of a frame, with what is left to do at each. -/
def Frame.children (φ : Frame) : List (Node × Plan) :=
  φ.siblings.map fun σ => ((φ.parent.child σ).node, φ.task.plan)

/-- All that waits on a stack, in the order of its turn. -/
def waiting (stack : List Frame) : List (Node × Plan) := stack.flatMap Frame.children

@[simp] theorem waiting_nil : waiting [] = [] := rfl

@[simp] theorem waiting_cons (φ : Frame) (stack : List Frame) :
    waiting (φ :: stack) = φ.children ++ waiting stack := rfl

/-- Siblings that are put off wait before all others. -/
theorem waiting_defer (parent : Focus) (siblings : List Step) (task : Task) (stack : List Frame) :
    waiting (Walk.defer parent siblings task stack)
      = Frame.children ⟨parent, siblings, task⟩ ++ waiting stack := by
  rw [Walk.defer]
  split
  · next h => rw [List.isEmpty_iff.1 h]; rfl
  · rfl

/-- A match gives the first child the task and the others that of siblings. -/
theorem Cursor.family_children {f : Focus} {p : Pick} {m : Match} (h : p.visit f.node = some m)
    (task : Task) :
    ∃ cs, p.children f.node = (f.child m.next).node :: cs
      ∧ task.plan.family (f.child m.next).node cs
        = ((f.child m.next).node, task.plan)
          :: Frame.children ⟨f, m.siblings, task.forSiblings⟩ := by
  refine ⟨m.siblings.map fun σ => (f.child σ).node, Pick.children_eq_map_node h, ?_⟩
  rw [Plan.family, Frame.children, Task.plan_forSiblings, List.map_map]
  rfl

/-- A node that is a link is nothing else. -/
theorem Node.eq_link_of_asLink? {v : Node} {χ : Cid} (h : v.asLink? = some χ) : v = .link χ := by
  cases v <;> cases h
  rfl

/-! ## Links and endings -/

section

variable {S : Type} {read : BlockReader (StateM S)} {codecs : Registry}

/-- What comes of a link is what a traversal loads. -/
theorem fetches_iff {χ : Cid} {s s' : S} {a : Except TraversalError (Block × Node)} :
    Fetches read codecs χ s s' a ↔ (Traversal.load read codecs χ).run s = (a, s') := by
  rw [Traversal.run_load]
  refine ⟨fun h => ?_, fun h => ?_⟩
  · cases h with
    | had found decoded => rw [found, Traversal.opened_eq_ok_iff.2 ⟨rfl, decoded⟩]
    | undecoded found decoded =>
      rw [found, Traversal.opened]
      dsimp only
      rw [decoded]
    | absent found => rw [found]; rfl
    | refused found => rw [found]; rfl
  · obtain ⟨rfl, rfl⟩ := Prod.mk.inj h
    rcases found : (read χ).run s with ⟨ε | _ | b, s₁⟩
    · exact .refused found
    · exact .absent found
    · rw [Traversal.opened]
      dsimp only
      cases decoded : codecs.decode b with
      | error ε => exact .undecoded found decoded
      | ok v => exact .had found decoded

/-- What a document gives is what its evaluation leaves over. -/
theorem selects_iff {d : Document} {s s' : S} {B : List Block}
    {o : Except TraversalError Resolution} :
    Selects read codecs d s B o s' ↔
      ∃ o', Evaluates read codecs (.child (.link d.root) (.top d.program)) s B o' s'
        ∧ o = o'.map Resolution.ofRest := by
  refine ⟨fun h => ?_, ?_⟩
  · cases h with
    | resolved evaluated => exact ⟨.ok [], evaluated, rfl⟩
    | unresolved evaluated => exact ⟨.ok _, evaluated, rfl⟩
    | failed evaluated => exact ⟨.error _, evaluated, rfl⟩
  · rintro ⟨ε | rest, evaluated, rfl⟩
    · exact .failed evaluated
    · cases rest with
      | nil => exact .resolved evaluated
      | cons i rest => exact .unresolved evaluated

end

/-! ## Behaviours of walks -/

section

variable {S : Type} (read : BlockReader (StateM S)) (codecs : Registry)

open Behaviour

/-- What an instruction does, by what it leads to. -/
def Advance.behaviour (f : Focus) : Advance → Behaviour S
  | exhausted rest => done rest
  | stay c => Evaluates read codecs c.errand
  | children m task =>
    Evaluates read codecs (.inTurn []
      (((f.child m.next).node, task.plan) :: Frame.children ⟨f, m.siblings, task.forSiblings⟩))

/-- What a walk does: its cursor, and then what waits. -/
def Walk.behaviour : Walk → Behaviour S
  | running c stack =>
    (Evaluates read codecs c.errand).Then fun left =>
      Evaluates read codecs (.inTurn left (waiting stack))
  | exhausted rest stack => Evaluates read codecs (.inTurn rest (waiting stack))

/-- What is done after a landing. -/
def Landing.behaviour : Landing → Behaviour S
  | block χ task stack =>
    (Evaluates read codecs (.child (.link χ) task.plan)).Then fun left =>
      Evaluates read codecs (.inTurn left (waiting stack))
  | ended rest => done rest

/-- What is done after a move. -/
def Walk.after : Walk ⊕ Landing → Behaviour S
  | .inl w => w.behaviour read codecs
  | .inr landing => landing.behaviour read codecs

variable {read codecs}

/-- The first pass of a recursion is begun, or the recursion is left at once, as the rules have
it. -/
theorem Recursion.evaluates_enter (r : Recursion) (f : Focus) (after : Program Selector) :
    Evaluates read codecs (.node f.node (.top (.recursive r :: after.remaining)))
      = (r.enter f after).behaviour read codecs f := by
  rw [enter]
  by_cases h : r.limit = some 0
  · rw [if_pos h]
    exact evaluates_noPass h
  · rw [if_neg h, evaluates_firstPass h]
    cases hl : r.limit with
    | none => simp [Advance.behaviour, Scope.newPass, Cursor.errand, Task.plan, Program.start]
    | some n =>
      -- a limit that is not zero is at least one, so the running pass does not change it
      have h₀ : n.toNat ≠ 0 := fun h₀ => h (hl.trans (congrArg some (UInt64.toNat_inj.1 h₀)))
      have hn : max 1 n.toNat = n.toNat := by omega
      simp [Advance.behaviour, Scope.newPass, Cursor.errand, Task.plan, Program.start, hn]

/-- What follows a pass is the next pass or what follows the recursion, as the rules have it. -/
theorem Scope.evaluates_endOfPass (s : Scope) (f : Focus) :
    Evaluates read codecs (.node f.node (.pass [] s.recursion (s.passes.map (max 1))
        s.after.remaining (s.start.map Focus.node)))
      = Evaluates read codecs (s.endOfPass f).errand := by
  rw [endOfPass]
  match h : s.passes with
  | none =>
    rw [Option.map_none, evaluates_nextPass (by simp)]
    rfl
  | some 0 =>
    exact evaluates_lastPass
  | some 1 =>
    exact evaluates_lastPass
  | some (n + 2) =>
    have hn : max 1 (n + 2) = n + 2 := by omega
    rw [Option.map_some, hn, evaluates_nextPass (by simp)]
    simp [newPass, Cursor.errand, Task.plan, Program.start]

/-- What follows a pick that does not match is left over or done at the start of the pass, as the
rules have it. -/
theorem Scope.evaluates_halt (s : Scope) {f : Focus} {p : Pick} (picks : List Pick)
    (h : p.children f.node = []) :
    Evaluates read codecs (.node f.node (.pass (p :: picks) s.recursion (s.passes.map (max 1))
        s.after.remaining (s.start.map Focus.node)))
      = s.halt.behaviour read codecs f := by
  rw [halt]
  cases hs : s.start with
  | none => exact evaluates_noStart h
  | some u => exact evaluates_fallBack h

/-- **What the next instruction leads to is what the rules say.** -/
theorem Cursor.behaviour_advance (c : Cursor) :
    Evaluates read codecs c.errand = c.advance.behaviour read codecs c.focus := by
  obtain ⟨f, task⟩ := c
  cases task with
  | top program =>
    simp only [errand, advance, Task.plan]
    split
    · next hn => rw [Program.remaining_eq_nil hn]; exact evaluates_top_nil
    · next r after hn =>
      rw [Program.remaining_of_next? hn]
      exact r.evaluates_enter f after
    · next p after hn =>
      rw [Program.remaining_of_next? hn]
      split
      · next m hm =>
        obtain ⟨cs, hc, hf⟩ := family_children hm (.top after)
        rw [evaluates_matching hc]
        exact congrArg (fun cs => Evaluates read codecs (.inTurn [] cs)) hf
      · next hm => exact evaluates_mismatch (Pick.visit_eq_none_iff.1 hm)
  | pass picks scope =>
    simp only [errand, advance, Task.plan]
    split
    · next hn =>
      rw [Program.remaining_eq_nil hn]
      exact scope.evaluates_endOfPass f
    · next p rest hn =>
      rw [Program.remaining_of_next? hn]
      split
      · next m hm =>
        obtain ⟨cs, hc, hf⟩ := family_children hm (.pass rest scope)
        rw [evaluates_matchingInPass hc]
        exact congrArg (fun cs => Evaluates read codecs (.inTurn [] cs)) hf
      · next hm => exact scope.evaluates_halt _ (Pick.visit_eq_none_iff.1 hm)

/-- A walk that comes to a child evaluates it, and then what waits. -/
theorem Walk.behaviour_arrive (f : Focus) (task : Task) (stack : List Frame) :
    (Evaluates read codecs (.child f.node task.plan)).Then
        (fun left => Evaluates read codecs (.inTurn left (waiting stack)))
      = after read codecs (arrive f task stack) := by
  rw [arrive]
  split
  · next χ h =>
    rw [Node.eq_link_of_asLink? h]
    rfl
  · next h =>
    rw [evaluates_inside h]
    rfl

/-- **A move does not change what a walk does.** -/
theorem Walk.behaviour_step (w : Walk) : w.behaviour read codecs = after read codecs w.step := by
  cases w with
  | running c stack =>
    rw [behaviour, c.behaviour_advance, step]
    cases c.advance with
    | exhausted rest => exact done_then _ _
    | stay d => rfl
    | children m task =>
      -- the siblings are put off before all that waits already
      dsimp only
      rw [← behaviour_arrive, waiting_defer, Advance.behaviour, evaluates_inTurn_cons, then_assoc]
      congr 1
      funext left
      exact evaluates_inTurn_append.symm
  | exhausted rest stack =>
    cases stack with
    | nil => exact evaluates_inTurn_nil
    | cons φ stack =>
      obtain ⟨parent, siblings, task⟩ := φ
      cases siblings with
      | nil => rfl
      | cons σ later =>
        simp only [step]
        rw [← behaviour_arrive, waiting_defer]
        exact evaluates_inTurn_cons

/-- The search for the next block does not change what a walk does. -/
theorem Walk.behaviour_seek (w : Walk) :
    w.behaviour read codecs = w.seek.behaviour read codecs := by
  fun_induction Walk.seek w with
  | case1 w v h ih => rw [behaviour_step, h, after, ih]
  | case2 w landing h => rw [behaviour_step, h, after]

/-- After a landing at a link, its block is opened and the walk goes on from its root. -/
theorem Landing.behaviour_block (χ : Cid) (task : Task) (stack : List Frame) :
    (block χ task stack).behaviour read codecs
      = Opening read codecs χ fun v =>
          (Walk.running ⟨.block v, task⟩ stack).behaviour read codecs := by
  rw [behaviour, evaluates_link, opening_then]
  rfl

/-! ## What a traversal gives -/

namespace Traversal

variable (read codecs)

/-- What can be seen of draining a traversal: the state of the store before it, the blocks, the
ending or the error, and the state of the store after it. -/
def Gives (t : Traversal) (s : S) (B : List Block) (o : Except TraversalError Resolution)
    (s' : S) : Prop :=
  match t.demand with
  | .nothing u => B = [] ∧ o = .ok u.ending ∧ s' = s
  | .block χ task stack =>
    ∃ o', (Landing.block χ task stack).behaviour read codecs s B o' s'
      ∧ o = o'.map Resolution.ofRest

variable {read codecs}

/-- A traversal under way gives what its walk does. -/
theorem gives_entered_iff {t : Traversal} {v : Node} {task : Task} {stack : List Frame} {s s' : S}
    {B : List Block} {o : Except TraversalError Resolution} :
    (t.entered v task stack).Gives read codecs s B o s' ↔
      ∃ o', (Walk.running ⟨.block v, task⟩ stack).behaviour read codecs s B o' s'
        ∧ o = o'.map Resolution.ofRest := by
  rw [Walk.behaviour_seek, Gives, demand, entered]
  dsimp only
  cases (Walk.running ⟨.block v, task⟩ stack).seek with
  | block χ task stack => rfl
  | ended rest =>
    constructor
    · rintro ⟨rfl, rfl, rfl⟩
      exact ⟨.ok rest, done_self rest s', rfl⟩
    · rintro ⟨o', ⟨rfl, rfl, rfl⟩, rfl⟩
      exact ⟨rfl, rfl, rfl⟩

/-- What is given when nothing is needed any more. -/
theorem gives_iff_of_nothing {t u : Traversal} (hd : t.demand = .nothing u) {s s' : S}
    {B : List Block} {o : Except TraversalError Resolution} :
    t.Gives read codecs s B o s' ↔ B = [] ∧ o = .ok u.ending ∧ s' = s := by
  rw [Gives, hd]

/-- What is given when a block is needed: that block, and what is given after it; or an error. -/
theorem gives_iff_of_block {t : Traversal} {χ : Cid} {task : Task} {stack : List Frame}
    (hd : t.demand = .block χ task stack) {s s' : S} {B : List Block}
    {o : Except TraversalError Resolution} :
    t.Gives read codecs s B o s' ↔
      (∃ b v s₁ B', (load read codecs χ).run s = (.ok (b, v), s₁) ∧ B = b :: B'
        ∧ (t.entered v task stack).Gives read codecs s₁ B' o s')
      ∨ ∃ ε, (load read codecs χ).run s = (.error ε, s') ∧ B = [] ∧ o = .error ε := by
  rw [Gives, hd]
  dsimp only
  rw [Landing.behaviour_block]
  constructor
  · rintro ⟨o', h, rfl⟩
    cases h with
    | opened fetch rest =>
      exact .inl ⟨_, _, _, _, fetches_iff.1 fetch, rfl, gives_entered_iff.2 ⟨o', rest, rfl⟩⟩
    | error fetch => exact .inr ⟨_, fetches_iff.1 fetch, rfl, rfl⟩
  · rintro (⟨b, v, s₁, B', load, rfl, h⟩ | ⟨ε, load, rfl, rfl⟩)
    · obtain ⟨o', rest, rfl⟩ := gives_entered_iff.1 h
      exact ⟨o', .opened (fetches_iff.2 load) rest, rfl⟩
    · exact ⟨.error ε, .error (fetches_iff.2 load), rfl⟩

/-- What draining ends with is given. -/
theorem gives_of_drainFrom {pulls : Nat} {before : List Block} {t : Traversal} {s s' : S}
    {sel : Selection} (h : (drainFrom read codecs pulls before t).run s = (some sel, s')) :
    ∃ B, sel.blocks = before.reverse ++ B ∧ t.Gives read codecs s B sel.outcome s' := by
  induction pulls generalizing before t s with
  | zero => cases h
  | succ pulls ih =>
    rw [run_drainFrom_succ] at h
    cases hd : t.demand with
    | nothing u =>
      rw [run_pull_of_nothing read codecs hd] at h
      obtain ⟨h₁, rfl⟩ := Prod.mk.inj h
      obtain rfl := Option.some.inj h₁
      exact ⟨[], (List.append_nil _).symm, (gives_iff_of_nothing hd).2 ⟨rfl, rfl, rfl⟩⟩
    | block χ task stack =>
      rw [run_pull_of_block read codecs hd] at h
      rcases hl : (load read codecs χ).run s with ⟨a, s₁⟩
      rw [hl] at h
      rcases a with ε | ⟨b, v⟩
      · obtain ⟨h₁, rfl⟩ := Prod.mk.inj h
        obtain rfl := Option.some.inj h₁
        exact ⟨[], (List.append_nil _).symm, (gives_iff_of_block hd).2 (.inr ⟨ε, hl, rfl, rfl⟩)⟩
      · obtain ⟨B, hB, hg⟩ := ih h
        refine ⟨b :: B, ?_, (gives_iff_of_block hd).2 (.inl ⟨b, v, s₁, B, hl, rfl, hg⟩)⟩
        rw [hB, List.reverse_cons, List.append_assoc]
        rfl

/-- What is given is what draining ends with, by one pull more than there are blocks. -/
theorem drainFrom_of_gives {before : List Block} {t : Traversal} {s s' : S} {B : List Block}
    {o : Except TraversalError Resolution} (h : t.Gives read codecs s B o s') :
    (drainFrom read codecs (B.length + 1) before t).run s
      = (some ⟨before.reverse ++ B, o⟩, s') := by
  -- every block takes one pull, and the ending one more
  induction B generalizing before t s with
  | nil =>
    rw [run_drainFrom_succ]
    cases hd : t.demand with
    | nothing u =>
      obtain ⟨-, rfl, rfl⟩ := (gives_iff_of_nothing hd).1 h
      rw [run_pull_of_nothing read codecs hd, List.append_nil]
    | block χ task stack =>
      obtain ⟨b, v, s₁, B', -, hB, -⟩ | ⟨ε, hl, -, rfl⟩ := (gives_iff_of_block hd).1 h
      · cases hB
      · rw [run_pull_of_block read codecs hd, hl, List.append_nil]
        rfl
  | cons b B ih =>
    rw [run_drainFrom_succ]
    cases hd : t.demand with
    | nothing u =>
      obtain ⟨hB, -, -⟩ := (gives_iff_of_nothing hd).1 h
      cases hB
    | block χ task stack =>
      obtain ⟨c, v, s₁, B', hl, hB, hg⟩ | ⟨ε, -, hB, -⟩ := (gives_iff_of_block hd).1 h
      · obtain ⟨rfl, rfl⟩ := List.cons.inj hB
        rw [run_pull_of_block read codecs hd, hl]
        refine (ih hg).trans ?_
        rw [List.reverse_cons, List.append_assoc]
        rfl
      · cases hB

/-- Draining a traversal ends with what is given. -/
theorem drain_iff_gives {t : Traversal} {s s' : S} {B : List Block}
    {o : Except TraversalError Resolution} :
    (∃ pulls, (t.drain read codecs pulls).run s = (some ⟨B, o⟩, s'))
      ↔ t.Gives read codecs s B o s' := by
  refine ⟨?_, fun h => ⟨B.length + 1, drainFrom_of_gives h⟩⟩
  rintro ⟨pulls, h⟩
  obtain ⟨B', hB, hg⟩ := gives_of_drainFrom h
  obtain rfl : B = B' := hB
  exact hg

/-- A new traversal gives what its document selects. -/
theorem gives_ofDocument_iff {d : Document} {s s' : S} {B : List Block}
    {o : Except TraversalError Resolution} :
    (ofDocument d).Gives read codecs s B o s' ↔ Selects read codecs d s B o s' := by
  have h : (Landing.block d.root (.top (.start d.program)) []).behaviour read codecs
      = Evaluates read codecs (.child (.link d.root) (.top d.program)) := by
    simp only [Landing.behaviour, waiting_nil, evaluates_inTurn_nil]
    exact then_done _
  rw [selects_iff, ← h]
  rfl

end Traversal

end

/-- **Draining the traversal of a document is depth-first evaluation**: it ends with these blocks
and this ending, and leaves the store in this state, exactly if the evaluation does. -/
theorem Traversal.drain_iff_selects {S : Type} (read : BlockReader (StateM S)) (codecs : Registry)
    (d : Document) (s s' : S) (B : List Block) (o : Except TraversalError Resolution) :
    (∃ pulls, ((ofDocument d).drain read codecs pulls).run s = (some ⟨B, o⟩, s'))
      ↔ Selects read codecs d s B o s' := by
  rw [drain_iff_gives, gives_ofDocument_iff]

end BlockWalk
