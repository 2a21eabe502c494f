import BlockWalk.Proofs.Inlining
import BlockWalk.Proofs.Unrolling
import Mathlib

/-!
# Limits that are not reached

A recursion without a limit can be given one that no branch reaches, and nothing changes. Every
branch has its own passes to count: a child begins with those that its parent has completed, whether
it is the first child or one that waits, and what one branch completes is not counted on another.

* `Begins` — what is evaluated on the way through a document, with the passes that its branch has
  completed of the recursion that it is in. They are what a limit is less by (`Begins.passes_eq`).
* `CompletesFewer` — in no pass of a recursion has a branch completed as many as the limit.
* `Evaluates.relimited` — then the evaluation with the limit gives the same blocks, and leaves over
  the same instructions up to the limit.
* `Traversal.unreached_limit` — so it is for documents.
-/

namespace BlockWalk

/-! ## Passes that a branch completes -/

/-- The passes that a branch has completed when `picks` are left of the running one, which began
after `k` others. -/
def completed (picks : List Pick) (k : Nat) : Nat := if picks.isEmpty then k + 1 else k

theorem le_completed (picks : List Pick) (k : Nat) : k ≤ completed picks k := by
  rw [completed]
  split
  · exact Nat.le_succ k
  · exact Nat.le_refl k

section

variable {S : Type} (read : BlockReader (StateM S)) (codecs : Registry) (d : Document) (s₀ : S)

/-- What is begun while a document is evaluated from the state `s₀` of the store on: an errand, the
number of passes before the one that its branch is in, and the state of the store. The rules are
those of evaluation. -/
inductive Begins : Errand → Nat → S → Prop
  /-- the document -/
  | document : Begins (.child (.link d.root) (.top d.program)) 0 s₀
  /-- a recursion begins, with no pass before -/
  | firstPass {v : Node} {r : Recursion} {after : List Selector} {k : Nat} {s : S}
      (node : Begins (.node v (.top (.recursive r :: after))) k s) (limit : r.limit ≠ some 0) :
      Begins (.node v (.pass r.follow r (r.limit.map UInt64.toNat) after (some v))) 0 s
  /-- an instruction of the document matches -/
  | matching {v c : Node} {cs : List Node} {p : Pick} {after : List Selector} {k : Nat} {s : S}
      (node : Begins (.node v (.top (.pick p :: after))) k s) (children : p.children v = c :: cs) :
      Begins (.inTurn [] ((Plan.top after).family c cs)) 0 s
  /-- the last pass ends -/
  | lastPass {v : Node} {r : Recursion} {after : List Selector} {start : Option Node} {k : Nat}
      {s : S} (node : Begins (.node v (.pass [] r (some 1) after start)) k s) :
      Begins (.node v (.top after)) 0 s
  /-- another pass ends: there is one more before the next -/
  | nextPass {v : Node} {r : Recursion} {passes : Option Nat} {after : List Selector}
      {start : Option Node} {k : Nat} {s : S}
      (node : Begins (.node v (.pass [] r passes after start)) k s) (notLast : passes ≠ some 1) :
      Begins (.node v (.pass r.follow r (passes.map (· - 1)) after (some v))) (k + 1) s
  /-- a pick of a pass does not match, and what follows the recursion is done -/
  | fallBack {v start : Node} {p : Pick} {picks : List Pick} {r : Recursion} {passes : Option Nat}
      {after : List Selector} {k : Nat} {s : S}
      (node : Begins (.node v (.pass (p :: picks) r passes after (some start))) k s)
      (children : p.children v = []) : Begins (.node start (.top after)) 0 s
  /-- a pick of a pass matches: the children are in the same pass -/
  | matchingInPass {v c : Node} {cs : List Node} {p : Pick} {picks : List Pick} {r : Recursion}
      {passes : Option Nat} {after : List Selector} {start : Option Node} {k : Nat} {s : S}
      (node : Begins (.node v (.pass (p :: picks) r passes after start)) k s)
      (children : p.children v = c :: cs) :
      Begins (.inTurn [] ((Plan.pass picks r passes after start).family c cs)) k s
  /-- a child in the same block -/
  | inside {v : Node} {plan : Plan} {k : Nat} {s : S} (child : Begins (.child v plan) k s)
      (plain : v.asLink? = none) : Begins (.node v plan) k s
  /-- a child in another block -/
  | opened {χ : Cid} {b : Block} {v : Node} {plan : Plan} {k : Nat} {s s₁ : S}
      (child : Begins (.child (.link χ) plan) k s)
      (fetch : Fetches read codecs χ s s₁ (.ok (b, v))) :
      Begins (.node v plan) k s₁
  /-- the first of some children -/
  | nextChild {left : List Selector} {c : Node} {plan : Plan} {cs : List (Node × Plan)} {k : Nat}
      {s : S} (children : Begins (.inTurn left ((c, plan) :: cs)) k s) : Begins (.child c plan) k s
  /-- the others, when it was evaluated -/
  | others {left left' : List Selector} {c : Node} {plan : Plan} {cs : List (Node × Plan)} {k : Nat}
      {s s₁ : S} {B : List Block} (children : Begins (.inTurn left ((c, plan) :: cs)) k s)
      (first : Evaluates read codecs (.child c plan) s B (.ok left') s₁) :
      Begins (.inTurn left' cs) k s₁

end

/-! What is begun is always a part of the document, and the number of passes is what the passes left
are short of the limit. -/

/-- The plan is a part of the program, after `k` passes. -/
inductive Plan.PartOf (program : List Selector) (k : Nat) : Plan → Prop
  /-- the last instructions -/
  | top {rest : List Selector} (h : rest <:+ program) : PartOf program k (.top rest)
  /-- the last picks of a recursion -/
  | pass {picks : List Pick} {q : Recursion} {passes : Option Nat} {after : List Selector}
      {start : Option Node} (recursion : .recursive q :: after <:+ program)
      (rest : picks <:+ q.follow) (left : passes = q.limit.map (·.toNat - k)) :
      PartOf program k (.pass picks q passes after start)

/-- Every plan of the errand is a part of the program, after `k` passes. -/
def Errand.PartOf (program : List Selector) (k : Nat) : Errand → Prop
  | node _ plan => plan.PartOf program k
  | child _ plan => plan.PartOf program k
  | inTurn _ children => ∀ c ∈ children, c.2.PartOf program k

section

variable {program : List Selector} {k : Nat}

theorem Plan.PartOf.forSiblings {plan : Plan} (h : plan.PartOf program k) :
    plan.forSiblings.PartOf program k := by
  cases h with
  | top h => exact .top h
  | pass recursion rest left => exact .pass recursion rest left

/-- The children of a match are as far in the program as each other. -/
theorem Plan.PartOf.family {plan : Plan} (h : plan.PartOf program k) (c : Node) (cs : List Node) :
    ∀ child ∈ plan.family c cs, child.2.PartOf program k := by
  simpa [Plan.family] using ⟨h, fun _ _ => h.forSiblings⟩

variable {S : Type} {read : BlockReader (StateM S)} {codecs : Registry} {d : Document} {s₀ s : S}

/-- What is begun is a part of the document. -/
theorem Begins.partOf {e : Errand} (h : Begins read codecs d s₀ e k s) :
    e.PartOf d.program k := by
  induction h with
  | document => exact .top List.suffix_rfl
  | firstPass _ _ ih =>
    rcases ih with ⟨h⟩
    exact .pass h List.suffix_rfl rfl
  | matching _ _ ih =>
    rcases ih with ⟨h⟩
    exact (Plan.PartOf.top ((List.suffix_cons _ _).trans h)).family _ _
  | lastPass _ ih =>
    rcases ih with _ | ⟨h, -, -⟩
    exact .top ((List.suffix_cons _ _).trans h)
  | nextPass _ _ ih =>
    rcases ih with _ | ⟨h, -, rfl⟩
    exact .pass h List.suffix_rfl (Option.map_map _ _ _)
  | fallBack _ _ ih =>
    rcases ih with _ | ⟨h, -, -⟩
    exact .top ((List.suffix_cons _ _).trans h)
  | matchingInPass _ _ ih =>
    rcases ih with _ | ⟨h, rest, left⟩
    exact (Plan.PartOf.pass h ((List.suffix_cons _ _).trans rest) left).family _ _
  | inside _ _ ih => exact ih
  | opened _ _ ih => exact ih
  | nextChild _ ih => exact ih _ List.mem_cons_self
  | others _ _ ih => exact fun c hc => ih c (List.mem_cons_of_mem _ hc)

end

/-- **The number of passes is counted on every branch.** In a document, the passes that are followed
by `later` are those of one recursion, and the passes left of it are its limit less the passes that
the branch has completed. -/
theorem Begins.passes_eq {S : Type} {read : BlockReader (StateM S)} {codecs : Registry} {root : Cid}
    {before later : List Selector} {r q : Recursion} {s₀ s : S} {v : Node} {picks : List Pick}
    {passes : Option Nat} {start : Option Node} {k : Nat}
    (h : Begins read codecs ⟨root, before ++ .recursive r :: later⟩ s₀
      (.node v (.pass picks q passes later start)) k s) :
    q = r ∧ picks <:+ r.follow ∧ passes = r.limit.map (·.toNat - k) := by
  rcases h.partOf with _ | ⟨recursion, rest, left⟩
  have same : Selector.recursive q :: later = .recursive r :: later := by
    obtain h | h := List.suffix_or_suffix_of_suffix recursion (List.suffix_append _ _)
    · exact h.eq_of_length rfl
    · exact (h.eq_of_length rfl).symm
  obtain rfl := Selector.recursive.inj (List.cons.inj same).1
  exact ⟨rfl, rest, left⟩

/-- In every pass of the recursion that `later` follows, the branch has completed fewer than `n`.
No other recursion of a document is followed by the same instructions. -/
def CompletesFewer {S : Type} (read : BlockReader (StateM S)) (codecs : Registry) (d : Document)
    (s₀ : S) (later : List Selector) (n : Nat) : Prop :=
  ∀ v picks r passes start k s,
    Begins read codecs d s₀ (.node v (.pass picks r passes later start)) k s → completed picks k < n

/-! ## Programs with another limit -/

section

variable (before later : List Selector) (r : Recursion) (d : UInt64)

/-- The same instructions, but for the limit of the recursion `r` if it is still to come. -/
inductive Relimited : List Selector → List Selector → Prop
  /-- the recursion comes after the last instructions before it -/
  | ahead {front : List Selector} (rest : front <:+ before) :
      Relimited (front ++ .recursive r :: later) (front ++ .recursive (r.limitedTo d) :: later)
  /-- the instructions are the same -/
  | same (program : List Selector) : Relimited program program

/-- The same plan, but for the limit of the recursion `r`, when there were `k` passes before. -/
inductive Plan.Relimited (k : Nat) : Plan → Plan → Prop
  /-- in the document's program -/
  | top {program program' : List Selector}
      (h : BlockWalk.Relimited before later r d program program') :
      Relimited k (.top program) (.top program')
  /-- in another recursion -/
  | pass {picks : List Pick} {q : Recursion} {passes : Option Nat} {after after' : List Selector}
      {start : Option Node} (h : BlockWalk.Relimited before later r d after after') :
      Relimited k (.pass picks q passes after start) (.pass picks q passes after' start)
  /-- in the recursion itself -/
  | inside {picks : List Pick} {start : Option Node} :
      Relimited k (.pass picks r none later start)
        (.pass picks (r.limitedTo d) (some (d.toNat - k)) later start)

/-- The same children, with a plan for each that differs in the limit only. -/
def RelimitedEach (k : Nat) (children children' : List (Node × Plan)) : Prop :=
  List.Forall₂ (fun c c' => c.1 = c'.1 ∧ c.2.Relimited before later r d k c'.2) children children'

/-- The same errand, but for the limit of the recursion `r`. -/
inductive Errand.Relimited (k : Nat) : Errand → Errand → Prop
  /-- at a node -/
  | node {v : Node} {plan plan' : Plan} (h : plan.Relimited before later r d k plan') :
      Relimited k (.node v plan) (.node v plan')
  /-- at a child -/
  | child {v : Node} {plan plan' : Plan} (h : plan.Relimited before later r d k plan') :
      Relimited k (.child v plan) (.child v plan')
  /-- at children in turn -/
  | inTurn {left left' : List Selector} {children children' : List (Node × Plan)}
      (last : BlockWalk.Relimited before later r d left left')
      (h : RelimitedEach before later r d k children children') :
      Relimited k (.inTurn left children) (.inTurn left' children')

/-- The same error, or the same instructions left over but for the limit. -/
inductive SameEnd : Except TraversalError (List Selector) → Except TraversalError (List Selector) →
    Prop
  /-- an error -/
  | error (ε : TraversalError) : SameEnd (.error ε) (.error ε)
  /-- instructions left over -/
  | ok {left left' : List Selector} (h : Relimited before later r d left left') :
      SameEnd (.ok left) (.ok left')

end

variable {before later : List Selector} {r : Recursion} {d : UInt64} {k : Nat}

/-- Where one program is done, so is the other. -/
theorem Relimited.of_nil {program' : List Selector} (h : Relimited before later r d [] program') :
    program' = [] := by
  generalize hp : ([] : List Selector) = program at h
  cases h with
  | ahead rest => cases (List.append_eq_nil_iff.1 hp.symm).2
  | same => rfl

/-- The next instruction is the same in both, or the recursion with and without the limit. -/
theorem Relimited.of_cons {i : Selector} {after program' : List Selector}
    (h : Relimited before later r d (i :: after) program') :
    (∃ after', program' = i :: after' ∧ Relimited before later r d after after')
      ∨ i = .recursive r ∧ after = later ∧ program' = .recursive (r.limitedTo d) :: later := by
  generalize hp : i :: after = program at h
  cases h with
  | same => exact .inl ⟨after, hp.symm, .same after⟩
  | @ahead front rest =>
    cases front with
    | nil =>
      obtain ⟨rfl, rfl⟩ := List.cons.inj hp
      exact .inr ⟨rfl, rfl, rfl⟩
    | cons j front =>
      obtain ⟨rfl, rfl⟩ := List.cons.inj hp
      exact .inl ⟨_, rfl, .ahead ((List.suffix_cons i front).trans rest)⟩

theorem Plan.Relimited.forSiblings {plan plan' : Plan}
    (h : plan.Relimited before later r d k plan') :
    plan.forSiblings.Relimited before later r d k plan'.forSiblings := by
  cases h with
  | top h => exact .top h
  | pass h => exact .pass h
  | inside => exact .inside

/-- The children of a match differ in the limit if the plans do. -/
theorem Plan.Relimited.family {plan plan' : Plan} (h : plan.Relimited before later r d k plan')
    (c : Node) (cs : List Node) :
    RelimitedEach before later r d k (plan.family c cs) (plan'.family c cs) :=
  Plan.family_forall₂ h h.forSiblings c cs

/-! ## Evaluations -/

section

variable {S : Type} {read : BlockReader (StateM S)} {codecs : Registry} {doc : Document} {s₀ : S}

/-- **An evaluation does not change with a limit that is not reached.** It gives the same blocks,
and the same error or the same instructions left over, but for the limit. -/
theorem Evaluates.relimited (unlimited : r.limit = none)
    (fewer : CompletesFewer read codecs doc s₀ later d.toNat) {e e' : Errand} {s s' : S}
    {B : List Block} {o : Except TraversalError (List Selector)}
    (h : Evaluates read codecs e s B o s') (begun : Begins read codecs doc s₀ e k s)
    (rel : e.Relimited before later r d k e') :
    ∃ o', Evaluates read codecs e' s B o' s' ∧ SameEnd before later r d o o' := by
  induction h generalizing e' k with
  | finished =>
    rcases rel with ⟨⟨h⟩⟩
    obtain rfl := h.of_nil
    exact ⟨_, .finished, .ok h⟩
  | noPass limit =>
    rcases rel with ⟨⟨h⟩⟩
    obtain ⟨after', rfl, rest⟩ | ⟨hr, -, -⟩ := h.of_cons
    · exact ⟨_, .noPass limit, .ok rest⟩
    · obtain rfl := Selector.recursive.inj hr
      cases unlimited.symm.trans limit
  | firstPass limit _ ih =>
    rcases rel with ⟨⟨h⟩⟩
    obtain ⟨after', rfl, rest⟩ | ⟨hr, rfl, rfl⟩ := h.of_cons
    · obtain ⟨o', he, ho⟩ := ih (begun.firstPass limit) (.node (.pass rest))
      exact ⟨o', .firstPass limit he, ho⟩
    · cases Selector.recursive.inj hr.symm
      have begun := begun.firstPass limit
      have room : 0 < d.toNat := Nat.lt_of_le_of_lt (le_completed _ 0) (fewer _ _ _ _ _ _ _ begun)
      have limit' : (r.limitedTo d).limit ≠ some 0 :=
        fun h => room.ne' (congrArg UInt64.toNat (Option.some.inj h))
      rw [unlimited] at begun ih
      obtain ⟨o', he, ho⟩ := ih begun (.node .inside)
      exact ⟨o', .firstPass limit' he, ho⟩
  | mismatch children =>
    rcases rel with ⟨⟨h⟩⟩
    obtain ⟨after', rfl, -⟩ | ⟨⟨⟩, -, -⟩ := h.of_cons
    exact ⟨_, .mismatch children, .ok h⟩
  | matching children _ ih =>
    rcases rel with ⟨⟨h⟩⟩
    obtain ⟨after', rfl, rest⟩ | ⟨⟨⟩, -, -⟩ := h.of_cons
    obtain ⟨o', he, ho⟩ := ih (begun.matching children)
      (.inTurn (.same []) ((Plan.Relimited.top rest).family _ _))
    exact ⟨o', .matching children he, ho⟩
  | lastPass _ ih =>
    rcases rel with ⟨⟨⟩ | ⟨h⟩⟩
    obtain ⟨o', he, ho⟩ := ih begun.lastPass (.node (.top h))
    exact ⟨o', .lastPass he, ho⟩
  | nextPass notLast _ ih =>
    rcases rel with ⟨⟨⟩ | ⟨h⟩ | ⟨⟩⟩
    · obtain ⟨o', he, ho⟩ := ih (begun.nextPass notLast) (.node (.pass h))
      exact ⟨o', .nextPass notLast he, ho⟩
    · have more : k + 1 < d.toNat := fewer _ _ _ _ _ _ _ begun
      have notLast' : some (d.toNat - k) ≠ some 1 := fun h => by
        have := Option.some.inj h
        omega
      obtain ⟨o', he, ho⟩ := ih (begun.nextPass notLast) (.node .inside)
      exact ⟨o', .nextPass notLast' he, ho⟩
  | fallBack children _ ih =>
    rcases rel with ⟨⟨⟩ | ⟨h⟩ | ⟨⟩⟩
    · obtain ⟨o', he, ho⟩ := ih (begun.fallBack children) (.node (.top h))
      exact ⟨o', .fallBack children he, ho⟩
    · obtain ⟨o', he, ho⟩ := ih (begun.fallBack children) (.node (.top (.same later)))
      exact ⟨o', .fallBack children he, ho⟩
  | noStart children =>
    rcases rel with ⟨⟨⟩ | ⟨h⟩ | ⟨⟩⟩
    · exact ⟨_, .noStart children, .ok h⟩
    · exact ⟨_, .noStart children, .ok (.same later)⟩
  | matchingInPass children _ ih =>
    rcases rel with ⟨⟨⟩ | ⟨h⟩ | ⟨⟩⟩
    · obtain ⟨o', he, ho⟩ := ih (begun.matchingInPass children)
        (.inTurn (.same []) ((Plan.Relimited.pass h).family _ _))
      exact ⟨o', .matchingInPass children he, ho⟩
    · obtain ⟨o', he, ho⟩ := ih (begun.matchingInPass children)
        (.inTurn (.same []) (Plan.Relimited.inside.family _ _))
      exact ⟨o', .matchingInPass children he, ho⟩
  | inside plain _ ih =>
    rcases rel with _ | ⟨h⟩
    obtain ⟨o', he, ho⟩ := ih (begun.inside plain) (.node h)
    exact ⟨o', .inside plain he, ho⟩
  | opened fetch _ ih =>
    rcases rel with _ | ⟨h⟩
    obtain ⟨o', he, ho⟩ := ih (begun.opened fetch) (.node h)
    exact ⟨o', .opened fetch he, ho⟩
  | notOpened fetch =>
    rcases rel with _ | ⟨h⟩
    exact ⟨_, .notOpened fetch, .error _⟩
  | noChild =>
    rcases rel with _ | _ | ⟨last, ⟨⟩⟩
    exact ⟨_, .noChild, .ok last⟩
  | nextChild child _ ih ih' =>
    rcases rel with _ | _ | ⟨-, _ | ⟨⟨rfl, h⟩, hcs⟩⟩
    obtain ⟨_, first, same⟩ := ih begun.nextChild (.child h)
    cases same with | ok last =>
    obtain ⟨o', others, ho⟩ := ih' (begun.others child) (.inTurn last hcs)
    exact ⟨o', .nextChild first others, ho⟩
  | noMoreChildren _ ih =>
    rcases rel with _ | _ | ⟨-, _ | ⟨⟨rfl, h⟩, hcs⟩⟩
    obtain ⟨_, first, same⟩ := ih begun.nextChild (.child h)
    cases same with | error =>
    exact ⟨_, .noMoreChildren first, .error _⟩

end

/-! ## One link -/

namespace OneLink

theorem all_ne_nil : [Pick.all] ≠ [] := List.cons_ne_nil _ _

/-- All items, over and over. -/
def allItems : Recursion := ⟨[.all], all_ne_nil, none⟩

/-- The root of `outer`. -/
def outerRoot : Node := .list [.link inner.cid]

/-- What is begun when all items of `outer` are taken, over and over: one pass is completed, where
the link leads, and the next one does not match. -/
inductive Comes : Errand → Nat → Memory → Prop
  /-- the document -/
  | document : Comes (.child (.link outer.cid) (.top [.recursive allItems])) 0 memory
  /-- the root -/
  | root : Comes (.node outerRoot (.top [.recursive allItems])) 0 memory
  /-- the first pass -/
  | first : Comes (.node outerRoot (.pass [.all] allItems none [] (some outerRoot))) 0 memory
  /-- the only item -/
  | only :
    Comes (.inTurn [] [(.link inner.cid, .pass [] allItems none [] (some outerRoot))]) 0 memory
  /-- no item after it -/
  | noMore (left : List Selector) (s : Memory) : Comes (.inTurn left []) 0 s
  /-- the link -/
  | link : Comes (.child (.link inner.cid) (.pass [] allItems none [] (some outerRoot))) 0 memory
  /-- the end of the first pass -/
  | completed : Comes (.node .null (.pass [] allItems none [] (some outerRoot))) 0 memory
  /-- the second pass -/
  | second : Comes (.node .null (.pass [.all] allItems none [] (some .null))) 1 memory
  /-- what follows the recursion -/
  | rest : Comes (.node .null (.top [])) 0 memory

theorem comes_of_begins {e : Errand} {k : Nat} {s : Memory}
    (h : Begins Store.memory.get codecs (repeated none) memory e k s) : Comes e k s := by
  induction h with
  | document => exact .document
  | firstPass _ _ ih => cases ih; exact .first
  | matching _ _ ih => cases ih
  | lastPass _ ih => cases ih
  | nextPass _ _ ih => cases ih; exact .second
  | fallBack _ children ih =>
    cases ih with
    | first => cases children
    | second => exact .rest
  | matchingInPass _ children ih =>
    cases ih with
    | first => cases children; exact .only
    | second => cases children
  | inside _ plain ih => cases ih <;> cases plain
  | opened _ fetch ih =>
    obtain ⟨found, decoded⟩ := fetch
    cases ih with
    | document => cases found; cases decoded; exact .root
    | link => cases found; cases decoded; exact .completed
  | nextChild _ ih => cases ih; exact .link
  | others _ _ ih => cases ih; exact .noMore _ _

theorem completesFewer_repeated :
    CompletesFewer Store.memory.get codecs (repeated none) memory [] 2 := by
  intro v picks r passes start k s h
  cases comes_of_begins h <;> decide

end OneLink

/-! ## Documents -/

namespace Traversal

/-- **A limit that is not reached changes nothing.** Let a traversal end, and let every branch
complete fewer than `d` passes of an unlimited recursion each time it is entered. Then with `d` as
the limit of that recursion, the traversal gives the same blocks and ends with the same error or the
same resolution, but for the limit where the recursion itself is left over. -/
theorem unreached_limit {S : Type} (read : BlockReader (StateM S)) (codecs : Registry) (root : Cid)
    (before later : List Selector) (r : Recursion) (d : UInt64) (s : S)
    (unlimited : r.limit = none)
    (fewer : CompletesFewer read codecs ⟨root, before ++ .recursive r :: later⟩ s later d.toNat)
    {B : List Block} {o : Except TraversalError Resolution}
    (h : DrainsTo read codecs ⟨root, before ++ .recursive r :: later⟩ s ⟨B, o⟩) :
    ∃ o', DrainsTo read codecs ⟨root, before ++ .recursive (r.limitedTo d) :: later⟩ s ⟨B, o'⟩
      ∧ (o' = o ∨ ∃ front, front <:+ before
        ∧ o = .ok (.unresolved (front ++ .recursive r :: later))
        ∧ o' = .ok (.unresolved (front ++ .recursive (r.limitedTo d) :: later))) := by
  obtain ⟨e, s', he, rfl⟩ := evaluates_of_drainsTo h
  obtain ⟨e', he', same⟩ := he.relimited unlimited fewer .document
    (.child (.top (.ahead List.suffix_rfl)))
  refine ⟨e'.map .ofRest, drainsTo_of_evaluates he' rfl, ?_⟩
  cases same with
  | error ε => exact .inl rfl
  | ok left =>
    cases left with
    | same => exact .inl rfl
    | @ahead front rest => exact .inr ⟨front, rest, by cases front <;> rfl, by cases front <;> rfl⟩

open OneLink in
/-- One pass over a list with one link is completed, so two are not reached. -/
theorem unreached_limit_oneLink :
    allItems.limit = none
      ∧ CompletesFewer Store.memory.get codecs (repeated none) memory [] (UInt64.toNat 2)
      ∧ DrainsTo Store.memory.get codecs (repeated none) memory ⟨[outer, inner], .ok .resolved⟩
      ∧ DrainsTo Store.memory.get codecs (repeated (some 2)) memory
          ⟨[outer, inner], .ok .resolved⟩ := by
  have drains : DrainsTo Store.memory.get codecs (repeated none) memory
      ⟨[outer, inner], .ok .resolved⟩ := ⟨3, memory, by cbv⟩
  obtain ⟨o', h, same⟩ := unreached_limit Store.memory.get codecs outer.cid [] [] allItems 2 memory
    rfl completesFewer_repeated drains
  obtain rfl | ⟨_, _, hρ, -⟩ := same
  · exact ⟨rfl, completesFewer_repeated, drains, h⟩
  · cases hρ

end Traversal

end BlockWalk
