import BlockWalk.Program
import BlockWalk.Selector

/-!
# Cursors

A cursor is a place inside a block and what is left to do there. What is left is either the rest of
the document's program, or the rest of one pass of a recursion together with what comes after it.

`Cursor.advance` says what the next instruction does: it leads to children of the node, it leaves
the cursor at a node with something else to do, or it ends the branch with a part of the program
left over. `Cursor.Does` has a rule for each of its cases.
-/

namespace BlockWalk

/-! ## Places -/

/-- A node inside a block, by the way that leads to it from the root of the block. -/
structure Focus where
  /-- the root of the block -/
  root : Node
  /-- the steps from the root, first to last -/
  path : List Step
  deriving Repr

namespace Focus

/-- The root of a block. -/
def block (v : Node) : Focus := ⟨v, []⟩

/-- The node that the path leads to, if it leads to one. -/
def node? (f : Focus) : Option Node := f.path.foldlM (fun v σ => σ.apply v) f.root

/-- The node that the path leads to. Every path that a walk builds leads to one; any other would be
read as one to a node without value. -/
def node (f : Focus) : Node := f.node?.getD .null

/-- The place one step further. -/
def child (f : Focus) (σ : Step) : Focus := ⟨f.root, f.path ++ [σ]⟩

end Focus

/-! ## Tasks -/

/-- The recursion that a pass belongs to. -/
structure Scope where
  /-- the recursion -/
  recursion : Recursion
  /-- the number of passes left, the running one included, if they are limited -/
  passes : Option Nat
  /-- what comes after the recursion -/
  after : Program Selector
  /-- where the running pass started. A sibling that is resumed inside a pass has no start. -/
  start : Option Focus
  deriving Repr

/-- What is left to do at a cursor. -/
inductive Task where
  /-- the rest of the document's program -/
  | top (program : Program Selector)
  /-- the rest of a pass -/
  | pass (picks : Program Pick) (scope : Scope)
  deriving Repr

/-- The task of a sibling, to be done later: its pass has no start to fall back to. -/
def Task.forSiblings : Task → Task
  | top program => top program
  | pass picks scope => pass picks { scope with start := none }

/-- Where a walk stands. -/
structure Cursor where
  /-- the place -/
  focus : Focus
  /-- what is left to do there -/
  task : Task
  deriving Repr

/-! ## Instructions -/

/-- What the next instruction does. -/
inductive Advance where
  /-- the branch ends, and these instructions are left over -/
  | exhausted (rest : List Selector)
  /-- the walk goes on at a node that was reached before -/
  | stay (c : Cursor)
  /-- children of the node match, and `task` is left to do at the first of them -/
  | children (m : Match) (task : Task)
  deriving Repr

namespace Scope

/-- The first pick of a new pass, which starts at `f`. -/
def newPass (s : Scope) (f : Focus) : Cursor :=
  ⟨f, .pass (.start s.recursion.follow) { s with start := some f }⟩

/-- What happens after the last pick of a pass: the next pass, or what comes after the recursion if
that was the last. -/
def endOfPass (s : Scope) (f : Focus) : Cursor :=
  match s.passes.map (· - 1) with
  | some 0 => ⟨f, .top s.after⟩
  | passes => newPass { s with passes } f

/-- What happens when a pick does not match: what comes after the recursion is done where the pass
started. Without a start the branch ends. -/
def halt (s : Scope) : Advance :=
  match s.start with
  | some f => .stay ⟨f, .top s.after⟩
  | none => .exhausted s.after.remaining

end Scope

/-- The first pass of a recursion, at `f`; a recursion limited to no pass at all ends the branch. -/
def Recursion.enter (r : Recursion) (f : Focus) (after : Program Selector) : Advance :=
  if r.limit = some 0 then .exhausted after.remaining
  else .stay (Scope.newPass ⟨r, r.limit.map UInt64.toNat, after, none⟩ f)

/-- What the next instruction of a cursor does. -/
def Cursor.advance (c : Cursor) : Advance :=
  match c.task with
  | .top program =>
    match program.next? with
    | none => .exhausted []
    | some (.recursive r, after) => r.enter c.focus after
    | some (.pick p, after) =>
      match p.visit c.focus.node with
      | some m => .children m (.top after)
      | none => .exhausted program.remaining
  | .pass picks scope =>
    match picks.next? with
    | none => .stay (scope.endOfPass c.focus)
    | some (p, rest) =>
      match p.visit c.focus.node with
      | some m => .children m (.pass rest scope)
      | none => scope.halt

/-! ## What an instruction can do -/

/-- What the instruction of a cursor does. -/
inductive Cursor.Does : Cursor → Advance → Prop
  /-- nothing is left of the document's program -/
  | done {f : Focus} {program : Program Selector} (empty : program.next? = none) :
      Does ⟨f, .top program⟩ (.exhausted [])
  /-- a recursion of no passes -/
  | noPass {f : Focus} {program after : Program Selector} {r : Recursion}
      (next : program.next? = some (.recursive r, after)) (limit : r.limit = some 0) :
      Does ⟨f, .top program⟩ (.exhausted after.remaining)
  /-- the first pass of a recursion -/
  | firstPass {f : Focus} {program after : Program Selector} {r : Recursion}
      (next : program.next? = some (.recursive r, after)) (limit : r.limit ≠ some 0) :
      Does ⟨f, .top program⟩ (.stay (Scope.newPass ⟨r, r.limit.map UInt64.toNat, after, none⟩ f))
  /-- a pick that does not match -/
  | mismatch {f : Focus} {program after : Program Selector} {p : Pick}
      (next : program.next? = some (.pick p, after)) (visit : p.visit f.node = none) :
      Does ⟨f, .top program⟩ (.exhausted program.remaining)
  /-- a pick that matches -/
  | matching {f : Focus} {program after : Program Selector} {p : Pick} {m : Match}
      (next : program.next? = some (.pick p, after)) (visit : p.visit f.node = some m) :
      Does ⟨f, .top program⟩ (.children m (.top after))
  /-- the end of the last pass -/
  | lastPass {f : Focus} {picks : Program Pick} {s : Scope} (empty : picks.next? = none)
      (passes : s.passes.map (· - 1) = some 0) :
      Does ⟨f, .pass picks s⟩ (.stay ⟨f, .top s.after⟩)
  /-- the end of another pass -/
  | nextPass {f : Focus} {picks : Program Pick} {s : Scope} (empty : picks.next? = none)
      (passes : s.passes.map (· - 1) ≠ some 0) :
      Does ⟨f, .pass picks s⟩ (.stay (Scope.newPass { s with passes := s.passes.map (· - 1) } f))
  /-- a pick of a pass that matches -/
  | matchingInPass {f : Focus} {picks rest : Program Pick} {s : Scope} {p : Pick} {m : Match}
      (next : picks.next? = some (p, rest)) (visit : p.visit f.node = some m) :
      Does ⟨f, .pass picks s⟩ (.children m (.pass rest s))
  /-- a pick of a pass that does not match, after which the walk goes on where the pass began -/
  | fallBack {f g : Focus} {picks rest : Program Pick} {s : Scope} {p : Pick}
      (next : picks.next? = some (p, rest)) (visit : p.visit f.node = none)
      (start : s.start = some g) : Does ⟨f, .pass picks s⟩ (.stay ⟨g, .top s.after⟩)
  /-- a pick of a pass that does not match, and the pass has no beginning -/
  | noStart {f : Focus} {picks rest : Program Pick} {s : Scope} {p : Pick}
      (next : picks.next? = some (p, rest)) (visit : p.visit f.node = none)
      (start : s.start = none) : Does ⟨f, .pass picks s⟩ (.exhausted s.after.remaining)

/-- Every instruction does one of these things. -/
theorem Cursor.does_advance (c : Cursor) : c.Does c.advance := by
  obtain ⟨f, task⟩ := c
  cases task with
  | top program =>
    simp only [advance]
    split
    · next empty => exact .done empty
    · next r after next =>
      unfold Recursion.enter
      split
      · next limit => exact .noPass next limit
      · next limit => exact .firstPass next limit
    · next p after next =>
      split
      · next m visit => exact .matching next visit
      · next visit => exact .mismatch next visit
  | pass picks s =>
    simp only [advance]
    split
    · next empty =>
      unfold Scope.endOfPass
      split
      · next passes => exact .lastPass empty passes
      · next passes => exact .nextPass empty passes
    · next p rest next =>
      split
      · next m visit => exact .matchingInPass next visit
      · next visit =>
        unfold Scope.halt
        split
        · next g start => exact .fallBack next visit start
        · next start => exact .noStart next visit start

theorem Cursor.does_of_advance {c : Cursor} {a : Advance} (h : c.advance = a) : c.Does a :=
  h ▸ c.does_advance

end BlockWalk
