import BlockWalk.Proofs.Children
import BlockWalk.Traversal
import Mathlib.Data.List.Forall2

/-!
# Depth-first evaluation

What a document selects, said without a stack, a cursor or a pull: a recursion over nodes.

* `Plan` — what is left to do at a node: instructions of the document, or of one pass of a
  recursion.
* `Fetches` — what comes of a link: the block that the store gives for it and the root that its
  bytes decode to, or what is wrong.
* `Evaluates` — the rules. A branch gives out blocks and ends with the instructions left over, or
  with the error that stops everything. The children of a match are evaluated one after the other,
  the first with the plan itself and the others without a start of the pass; a child that is a link
  is fetched and given out before its root is evaluated.
* `Selects` — what a whole document gives: the block of the root, then the program at its root node.

None of this is said with the functions of a traversal: only the store, the codecs and the nodes
occur in it.

A store is anything that answers from a state `S` and may change it with every read, so an
evaluation also leads from a state of the store to another.

Every rule is used again as an equation between behaviours (`evaluates_matching` and so on);
`Behaviour.Then` is what the equations are written with.
-/

namespace BlockWalk

/-! ## Plans -/

/-- What is left to do at a node. -/
inductive Plan where
  /-- the rest of the document's program -/
  | top (program : List Selector)
  /-- the rest of a pass of `r`, with `passes` left, this one included, if they are limited; `after`
  follows the recursion, and the pass began at `start` unless it is one of a later child -/
  | pass (picks : List Pick) (r : Recursion) (passes : Option Nat) (after : List Selector)
    (start : Option Node)

/-- The plan for the later children of a match: the same, but a pass has no start. -/
def Plan.forSiblings : Plan → Plan
  | top program => top program
  | pass picks r passes after _ => pass picks r passes after none

/-- The children of a match with what is left to do at each. -/
def Plan.family (plan : Plan) (c : Node) (cs : List Node) : List (Node × Plan) :=
  (c, plan) :: cs.map fun d => (d, plan.forSiblings)

/-- Two plans that are related, also as those of later children, are so at all children of a
match. -/
theorem Plan.family_forall₂ {R : Plan → Plan → Prop} {plan plan' : Plan} (first : R plan plan')
    (later : R plan.forSiblings plan'.forSiblings) (c : Node) (cs : List Node) :
    List.Forall₂ (fun x x' => x.1 = x'.1 ∧ R x.2 x'.2) (plan.family c cs) (plan'.family c cs) := by
  refine .cons ⟨rfl, first⟩ ?_
  rw [List.forall₂_map_left_iff, List.forall₂_map_right_iff, List.forall₂_same]
  exact fun d _ => ⟨rfl, later⟩

/-- Something to evaluate. -/
inductive Errand where
  /-- a plan at a node -/
  | node (v : Node) (plan : Plan)
  /-- a plan at a child, which is read first if it is a link -/
  | child (v : Node) (plan : Plan)
  /-- children in turn; `left` was left over on the branch before them -/
  | inTurn (left : List Selector) (children : List (Node × Plan))

/-! ## Links -/

/-- What comes of a link, if the store is in the state `s` before and `s'` after: it is asked for
the block once, and the bytes of the block are decoded. -/
inductive Fetches {S : Type} (read : BlockReader (StateM S)) (codecs : Registry) (χ : Cid)
    (s s' : S) : Except TraversalError (Block × Node) → Prop
  /-- the block and its root -/
  | had {b : Block} {v : Node} (found : (read χ).run s = (.ok (some b), s'))
      (decoded : codecs.decode b = .ok v) : Fetches read codecs χ s s' (.ok (b, v))
  /-- the block is there, but not a node -/
  | undecoded {b : Block} {ε : CodecError} (found : (read χ).run s = (.ok (some b), s'))
      (decoded : codecs.decode b = .error ε) : Fetches read codecs χ s s' (.error (.decode χ ε))
  /-- no block is there -/
  | absent (found : (read χ).run s = (.ok none, s')) :
      Fetches read codecs χ s s' (.error (.notFound χ))
  /-- the store fails -/
  | refused {ε : StorageError} (found : (read χ).run s = (.error ε, s')) :
      Fetches read codecs χ s s' (.error (.storage ε))

/-- The store is read once. -/
theorem Fetches.state_eq {S : Type} {read : BlockReader (StateM S)} {codecs : Registry} {χ : Cid}
    {s s' : S} {a : Except TraversalError (Block × Node)} (h : Fetches read codecs χ s s' a) :
    s' = ((read χ).run s).2 := by
  cases h with
  | had found | undecoded found | absent found | refused found => rw [found]

/-! ## Behaviours -/

/-- What can be seen of an evaluation: the state of the store before it, the blocks given out, the
instructions left over or the error, and the state of the store after it. -/
abbrev Behaviour (S : Type) : Type :=
  S → List Block → Except TraversalError (List Selector) → S → Prop

namespace Behaviour

variable {S : Type}

/-- Nothing is done, and `left` is left over. -/
def done (left : List Selector) : Behaviour S := fun s B o s' => B = [] ∧ o = .ok left ∧ s' = s

/-- One evaluation and then another, which is told what was left over. After an error the second is
not begun. -/
inductive Then (R : Behaviour S) (K : List Selector → Behaviour S) : Behaviour S
  /-- both -/
  | both {s s₁ s' : S} {B₁ B₂ : List Block} {left : List Selector}
      {o : Except TraversalError (List Selector)} (first : R s B₁ (.ok left) s₁)
      (second : K left s₁ B₂ o s') : Then R K s (B₁ ++ B₂) o s'
  /-- an error in the first -/
  | error {s s' : S} {B : List Block} {ε : TraversalError} (first : R s B (.error ε) s') :
      Then R K s B (.error ε) s'

/-- A block is fetched and given out, and its root is passed on. -/
inductive Opening (read : BlockReader (StateM S)) (codecs : Registry) (χ : Cid)
    (K : Node → Behaviour S) : Behaviour S
  /-- the block can be had -/
  | opened {s s₁ s' : S} {b : Block} {v : Node} {B : List Block}
      {o : Except TraversalError (List Selector)}
      (fetch : Fetches read codecs χ s s₁ (.ok (b, v))) (rest : K v s₁ B o s') :
      Opening read codecs χ K s (b :: B) o s'
  /-- it cannot -/
  | error {s s' : S} {ε : TraversalError} (fetch : Fetches read codecs χ s s' (.error ε)) :
      Opening read codecs χ K s [] (.error ε) s'

/-- Behaviours are the same if the same can be seen of both. -/
theorem ext {R K : Behaviour S} (h : ∀ s B o s', R s B o s' ↔ K s B o s') : R = K :=
  funext fun s => funext fun B => funext fun o => funext fun s' => propext (h s B o s')

/-- Doing nothing is a behaviour. -/
theorem done_self (left : List Selector) (s : S) : done left s [] (.ok left) s := ⟨rfl, rfl, rfl⟩

/-- Nothing before an evaluation. -/
theorem done_then (left : List Selector) (K : List Selector → Behaviour S) :
    (done left).Then K = K left := by
  refine ext fun s B o s' => ⟨fun h => ?_, fun h => .both (done_self left s) h⟩
  cases h with
  | both first second =>
    obtain ⟨rfl, hl, rfl⟩ := first
    obtain rfl := Except.ok.inj hl
    exact second
  | error first => cases first.2.1

/-- Nothing after an evaluation. -/
theorem then_done (R : Behaviour S) : R.Then done = R := by
  refine ext fun s B o s' => ⟨fun h => ?_, fun h => ?_⟩
  · cases h with
    | both first second =>
      obtain ⟨rfl, rfl, rfl⟩ := second
      rwa [List.append_nil]
    | error first => exact first
  · cases o with
    | error ε => exact .error h
    | ok left => exact List.append_nil B ▸ .both h (done_self left s')

/-- Three evaluations one after the other. -/
theorem then_assoc (R : Behaviour S) (K L : List Selector → Behaviour S) :
    (R.Then K).Then L = R.Then fun left => (K left).Then L := by
  refine ext fun s B o s' => ⟨fun h => ?_, fun h => ?_⟩
  · cases h with
    | both first third =>
      cases first with
      | both first second => exact List.append_assoc _ _ _ ▸ .both first (.both second third)
    | error first =>
      cases first with
      | both first second => exact .both first (.error second)
      | error first => exact .error first
  · cases h with
    | both first rest =>
      cases rest with
      | both second third => exact List.append_assoc _ _ _ ▸ .both (.both first second) third
      | error second => exact .error (.both first second)
    | error first => exact .error (.error first)

/-- What follows a block may as well follow what is done at its root. -/
theorem opening_then (read : BlockReader (StateM S)) (codecs : Registry) (χ : Cid)
    (K : Node → Behaviour S) (L : List Selector → Behaviour S) :
    (Opening read codecs χ K).Then L = Opening read codecs χ fun v => (K v).Then L := by
  refine ext fun s B o s' => ⟨fun h => ?_, fun h => ?_⟩
  · cases h with
    | both first second =>
      cases first with
      | opened fetch rest => exact .opened fetch (.both rest second)
    | error first =>
      cases first with
      | opened fetch rest => exact .opened fetch (.error rest)
      | error fetch => exact .error fetch
  · cases h with
    | opened fetch rest =>
      cases rest with
      | both first second => exact .both (Opening.opened fetch first) second
      | error first => exact .error (Opening.opened fetch first)
    | error fetch => exact .error (Opening.error fetch)

end Behaviour

/-! ## The rules -/

section Rules

variable {S : Type} (read : BlockReader (StateM S)) (codecs : Registry)

/-- The rules of depth-first evaluation. -/
inductive Evaluates : Errand → Behaviour S
  /-- the program is done -/
  | finished {v : Node} {s : S} : Evaluates (.node v (.top [])) s [] (.ok []) s
  /-- a recursion of no passes ends the branch -/
  | noPass {v : Node} {r : Recursion} {after : List Selector} {s : S} (limit : r.limit = some 0) :
      Evaluates (.node v (.top (.recursive r :: after))) s [] (.ok after) s
  /-- a recursion begins its first pass -/
  | firstPass {v : Node} {r : Recursion} {after : List Selector} {s s' : S} {B : List Block}
      {o : Except TraversalError (List Selector)} (limit : r.limit ≠ some 0)
      (pass : Evaluates
        (.node v (.pass r.follow r (r.limit.map UInt64.toNat) after (some v))) s B o s') :
      Evaluates (.node v (.top (.recursive r :: after))) s B o s'
  /-- an instruction of the document does not match: it is left over with all that follow -/
  | mismatch {v : Node} {p : Pick} {after : List Selector} {s : S} (children : p.children v = []) :
      Evaluates (.node v (.top (.pick p :: after))) s [] (.ok (.pick p :: after)) s
  /-- an instruction of the document matches -/
  | matching {v c : Node} {cs : List Node} {p : Pick} {after : List Selector} {s s' : S}
      {B : List Block} {o : Except TraversalError (List Selector)}
      (children : p.children v = c :: cs)
      (family : Evaluates (.inTurn [] ((Plan.top after).family c cs)) s B o s') :
      Evaluates (.node v (.top (.pick p :: after))) s B o s'
  /-- the last pass ends: what follows the recursion is done here -/
  | lastPass {v : Node} {r : Recursion} {after : List Selector} {start : Option Node} {s s' : S}
      {B : List Block} {o : Except TraversalError (List Selector)}
      (rest : Evaluates (.node v (.top after)) s B o s') :
      Evaluates (.node v (.pass [] r (some 1) after start)) s B o s'
  /-- another pass ends: the next one begins here -/
  | nextPass {v : Node} {r : Recursion} {passes : Option Nat} {after : List Selector}
      {start : Option Node} {s s' : S} {B : List Block}
      {o : Except TraversalError (List Selector)} (notLast : passes ≠ some 1)
      (pass : Evaluates
        (.node v (.pass r.follow r (passes.map (· - 1)) after (some v))) s B o s') :
      Evaluates (.node v (.pass [] r passes after start)) s B o s'
  /-- a pick of a pass does not match: what follows the recursion is done where the pass began -/
  | fallBack {v start : Node} {p : Pick} {picks : List Pick} {r : Recursion} {passes : Option Nat}
      {after : List Selector} {s s' : S} {B : List Block}
      {o : Except TraversalError (List Selector)} (children : p.children v = [])
      (rest : Evaluates (.node start (.top after)) s B o s') :
      Evaluates (.node v (.pass (p :: picks) r passes after (some start))) s B o s'
  /-- a pick of a pass without a start does not match: what follows the recursion is left over -/
  | noStart {v : Node} {p : Pick} {picks : List Pick} {r : Recursion} {passes : Option Nat}
      {after : List Selector} {s : S} (children : p.children v = []) :
      Evaluates (.node v (.pass (p :: picks) r passes after none)) s [] (.ok after) s
  /-- a pick of a pass matches -/
  | matchingInPass {v c : Node} {cs : List Node} {p : Pick} {picks : List Pick} {r : Recursion}
      {passes : Option Nat} {after : List Selector} {start : Option Node} {s s' : S}
      {B : List Block} {o : Except TraversalError (List Selector)}
      (children : p.children v = c :: cs)
      (family : Evaluates
        (.inTurn [] ((Plan.pass picks r passes after start).family c cs)) s B o s') :
      Evaluates (.node v (.pass (p :: picks) r passes after start)) s B o s'
  /-- a child in the same block -/
  | inside {v : Node} {plan : Plan} {s s' : S} {B : List Block}
      {o : Except TraversalError (List Selector)} (plain : v.asLink? = none)
      (node : Evaluates (.node v plan) s B o s') : Evaluates (.child v plan) s B o s'
  /-- a child in another block, which is fetched and given out -/
  | opened {χ : Cid} {b : Block} {v : Node} {plan : Plan} {s s₁ s' : S} {B : List Block}
      {o : Except TraversalError (List Selector)}
      (fetch : Fetches read codecs χ s s₁ (.ok (b, v)))
      (node : Evaluates (.node v plan) s₁ B o s') :
      Evaluates (.child (.link χ) plan) s (b :: B) o s'
  /-- a child in a block that cannot be had: the error ends everything -/
  | notOpened {χ : Cid} {plan : Plan} {s s' : S} {ε : TraversalError}
      (fetch : Fetches read codecs χ s s' (.error ε)) :
      Evaluates (.child (.link χ) plan) s [] (.error ε) s'
  /-- no child is left -/
  | noChild {left : List Selector} {s : S} : Evaluates (.inTurn left []) s [] (.ok left) s
  /-- a child, and the others after it -/
  | nextChild {left left' : List Selector} {c : Node} {plan : Plan} {cs : List (Node × Plan)}
      {s s₁ s' : S} {B₁ B₂ : List Block} {o : Except TraversalError (List Selector)}
      (child : Evaluates (.child c plan) s B₁ (.ok left') s₁)
      (others : Evaluates (.inTurn left' cs) s₁ B₂ o s') :
      Evaluates (.inTurn left ((c, plan) :: cs)) s (B₁ ++ B₂) o s'
  /-- an error in a child: the others are not evaluated -/
  | noMoreChildren {left : List Selector} {c : Node} {plan : Plan} {cs : List (Node × Plan)}
      {s s' : S} {B : List Block} {ε : TraversalError}
      (child : Evaluates (.child c plan) s B (.error ε) s') :
      Evaluates (.inTurn left ((c, plan) :: cs)) s B (.error ε) s'

/-! ### The rules as equations -/

variable {read codecs} {v : Node} {plan : Plan} {p : Pick} {picks : List Pick} {r : Recursion}
  {passes : Option Nat} {program after left : List Selector} {start : Option Node}

open Behaviour

theorem evaluates_top_nil : Evaluates read codecs (.node v (.top [])) = done [] := by
  refine Behaviour.ext fun s B o s' => ⟨fun h => ?_, ?_⟩
  · cases h
    exact done_self [] s
  · rintro ⟨rfl, rfl, rfl⟩
    exact .finished

theorem evaluates_noPass (h : r.limit = some 0) :
    Evaluates read codecs (.node v (.top (.recursive r :: after))) = done after := by
  refine Behaviour.ext fun s B o s' => ⟨fun he => ?_, ?_⟩
  · cases he with
    | noPass => exact done_self after s
    | firstPass limit => exact absurd h limit
  · rintro ⟨rfl, rfl, rfl⟩
    exact .noPass h

theorem evaluates_firstPass (h : r.limit ≠ some 0) :
    Evaluates read codecs (.node v (.top (.recursive r :: after)))
      = Evaluates read codecs
          (.node v (.pass r.follow r (r.limit.map UInt64.toNat) after (some v))) := by
  refine Behaviour.ext fun s B o s' => ⟨fun he => ?_, fun he => .firstPass h he⟩
  cases he with
  | noPass limit => exact absurd limit h
  | firstPass _ pass => exact pass

theorem evaluates_mismatch (h : p.children v = []) :
    Evaluates read codecs (.node v (.top (.pick p :: after))) = done (.pick p :: after) := by
  refine Behaviour.ext fun s B o s' => ⟨fun he => ?_, ?_⟩
  · cases he with
    | mismatch => exact done_self _ s
    | matching children => cases h.symm.trans children
  · rintro ⟨rfl, rfl, rfl⟩
    exact .mismatch h

/-- All children of a match are evaluated, with nothing left over before them. -/
theorem evaluates_matching {c : Node} {cs : List Node} (h : p.children v = c :: cs) :
    Evaluates read codecs (.node v (.top (.pick p :: after)))
      = Evaluates read codecs (.inTurn [] ((Plan.top after).family c cs)) := by
  refine Behaviour.ext fun s B o s' => ⟨fun he => ?_, fun he => .matching h he⟩
  cases he with
  | mismatch children => cases h.symm.trans children
  | matching children family =>
    obtain ⟨rfl, rfl⟩ := List.cons.inj (h.symm.trans children)
    exact family

theorem evaluates_lastPass :
    Evaluates read codecs (.node v (.pass [] r (some 1) after start))
      = Evaluates read codecs (.node v (.top after)) := by
  refine Behaviour.ext fun s B o s' => ⟨fun he => ?_, fun he => .lastPass he⟩
  cases he with
  | lastPass rest => exact rest
  | nextPass notLast => exact absurd rfl notLast

theorem evaluates_nextPass (h : passes ≠ some 1) :
    Evaluates read codecs (.node v (.pass [] r passes after start))
      = Evaluates read codecs
          (.node v (.pass r.follow r (passes.map (· - 1)) after (some v))) := by
  refine Behaviour.ext fun s B o s' => ⟨fun he => ?_, fun he => .nextPass h he⟩
  cases he with
  | lastPass => exact absurd rfl h
  | nextPass _ pass => exact pass

/-- A pass that does not match goes back to its start, and on with what follows the recursion. -/
theorem evaluates_fallBack {u : Node} (h : p.children v = []) :
    Evaluates read codecs (.node v (.pass (p :: picks) r passes after (some u)))
      = Evaluates read codecs (.node u (.top after)) := by
  refine Behaviour.ext fun s B o s' => ⟨fun he => ?_, fun he => .fallBack h he⟩
  cases he with
  | fallBack _ rest => exact rest
  | matchingInPass children => cases h.symm.trans children

theorem evaluates_noStart (h : p.children v = []) :
    Evaluates read codecs (.node v (.pass (p :: picks) r passes after none)) = done after := by
  refine Behaviour.ext fun s B o s' => ⟨fun he => ?_, ?_⟩
  · cases he with
    | noStart => exact done_self after s
    | matchingInPass children => cases h.symm.trans children
  · rintro ⟨rfl, rfl, rfl⟩
    exact .noStart h

theorem evaluates_matchingInPass {c : Node} {cs : List Node} (h : p.children v = c :: cs) :
    Evaluates read codecs (.node v (.pass (p :: picks) r passes after start))
      = Evaluates read codecs
          (.inTurn [] ((Plan.pass picks r passes after start).family c cs)) := by
  refine Behaviour.ext fun s B o s' => ⟨fun he => ?_, fun he => .matchingInPass h he⟩
  cases he with
  | fallBack children => cases h.symm.trans children
  | noStart children => cases h.symm.trans children
  | matchingInPass children family =>
    obtain ⟨rfl, rfl⟩ := List.cons.inj (h.symm.trans children)
    exact family

/-- A child that is no link is evaluated as it is. -/
theorem evaluates_inside (h : v.asLink? = none) :
    Evaluates read codecs (.child v plan) = Evaluates read codecs (.node v plan) := by
  refine Behaviour.ext fun s B o s' => ⟨fun he => ?_, fun he => .inside h he⟩
  cases he with
  | inside _ node => exact node
  | opened => cases h
  | notOpened => cases h

/-- A child that is a link is fetched and given out, and its root is evaluated. -/
theorem evaluates_link {χ : Cid} :
    Evaluates read codecs (.child (.link χ) plan)
      = Opening read codecs χ fun v => Evaluates read codecs (.node v plan) := by
  refine Behaviour.ext fun s B o s' => ⟨fun he => ?_, fun he => ?_⟩
  · cases he with
    | inside plain => cases plain
    | opened fetch node => exact .opened fetch node
    | notOpened fetch => exact .error fetch
  · cases he with
    | opened fetch rest => exact .opened fetch rest
    | error fetch => exact .notOpened fetch

theorem evaluates_inTurn_nil : Evaluates read codecs (.inTurn left []) = done left := by
  refine Behaviour.ext fun s B o s' => ⟨fun he => ?_, ?_⟩
  · cases he
    exact done_self left s
  · rintro ⟨rfl, rfl, rfl⟩
    exact .noChild

/-- The first child is evaluated, and then the others, before which is left over what it leaves
over. -/
theorem evaluates_inTurn_cons {c : Node} {cs : List (Node × Plan)} :
    Evaluates read codecs (.inTurn left ((c, plan) :: cs))
      = (Evaluates read codecs (.child c plan)).Then fun left =>
          Evaluates read codecs (.inTurn left cs) := by
  refine Behaviour.ext fun s B o s' => ⟨fun he => ?_, fun he => ?_⟩
  · cases he with
    | nextChild child others => exact .both child others
    | noMoreChildren child => exact .error child
  · cases he with
    | both first second => exact .nextChild first second
    | error first => exact .noMoreChildren first

/-- Some children and then some more. -/
theorem evaluates_inTurn_append {cs ds : List (Node × Plan)} :
    Evaluates read codecs (.inTurn left (cs ++ ds))
      = (Evaluates read codecs (.inTurn left cs)).Then fun left =>
          Evaluates read codecs (.inTurn left ds) := by
  induction cs generalizing left with
  | nil => rw [List.nil_append, evaluates_inTurn_nil, done_then]
  | cons c cs ih =>
    obtain ⟨c, plan⟩ := c
    rw [List.cons_append, evaluates_inTurn_cons, evaluates_inTurn_cons, then_assoc]
    congr 1
    funext left
    exact ih

end Rules

/-- What a document gives: its root is fetched and given out, and its program is evaluated at the
root node. What the last branch leaves over is what the document leaves over. -/
inductive Selects {S : Type} (read : BlockReader (StateM S)) (codecs : Registry) (d : Document)
    (s : S) (B : List Block) : Except TraversalError Resolution → S → Prop
  /-- nothing is left over -/
  | resolved {s' : S}
      (evaluated : Evaluates read codecs (.child (.link d.root) (.top d.program)) s B (.ok []) s') :
      Selects read codecs d s B (.ok .resolved) s'
  /-- some instructions are left over -/
  | unresolved {i : Selector} {rest : List Selector} {s' : S}
      (evaluated : Evaluates read codecs (.child (.link d.root) (.top d.program)) s B
        (.ok (i :: rest)) s') : Selects read codecs d s B (.ok (.unresolved (i :: rest))) s'
  /-- a block cannot be had -/
  | failed {ε : TraversalError} {s' : S}
      (evaluated : Evaluates read codecs (.child (.link d.root) (.top d.program)) s B
        (.error ε) s') : Selects read codecs d s B (.error ε) s'

end BlockWalk
