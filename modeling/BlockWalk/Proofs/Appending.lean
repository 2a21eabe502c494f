import BlockWalk.Proofs.Inlining
import Mathlib

/-!
# Programs that go on

Instructions behind the last one of a program add blocks to what it gives and take none away. Where
the shorter program ends a branch, the longer one goes on for a while, or ends it too; all siblings
that wait are the same in both. So the blocks of the one are among those of the other, in the same
order.

* `BlockReader.Lasting` — what is asked of the store, of which the longer program reads more: what
  it gives late it gives early, too. A store that answers as a function is an example. Without it
  the shorter program can fail where the longer one does not
  (`Traversal.shorter_not_found_late`).
* `Errand.Longer` — the same errand with instructions behind its program.
* `Evaluates.shorter` — the evaluation of the longer errand holds one of the shorter errand.
* `Traversal.appended_inserts` — so it is for documents.
-/

namespace BlockWalk

/-! ## Stores that are read more or less -/

namespace BlockReader

variable {S : Type} (read : BlockReader (StateM S))

/-- All that the store gives from the state `s'` on, after some reads, it gives from `s` on after
fewer of them. -/
def Covers (s s' : S) : Prop :=
  ∀ past past' χ b, past.Sublist past' → ((read χ).run (read.after s' past')).1 = .ok (some b) →
    ((read χ).run (read.after s past)).1 = .ok (some b)

/-- What the store gives after some reads it gives after fewer of them. -/
def Lasting (s : S) : Prop := read.Covers s s

variable {read} {s s' : S}

/-- A read that only the other state has seen changes nothing. -/
theorem Covers.skip (h : read.Covers s s') (χ : Cid) : read.Covers s ((read χ).run s').2 :=
  fun past past' ψ b sub hb => h past (χ :: past') ψ b (sub.cons χ) hb

/-- Neither does a read that both have seen. -/
theorem Covers.next (h : read.Covers s s') (χ : Cid) :
    read.Covers ((read χ).run s).2 ((read χ).run s').2 :=
  fun past past' ψ b sub hb => h (χ :: past) (χ :: past') ψ b (sub.cons_cons χ) hb

/-- A block that can be had late can be had early. -/
theorem Covers.fetch (h : read.Covers s s') {codecs : Registry} {χ : Cid} {b : Block} {v : Node}
    {t' : S} (late : Fetches read codecs χ s' t' (.ok (b, v))) :
    ∃ t, Fetches read codecs χ s t (.ok (b, v)) ∧ read.Covers t t' := by
  obtain rfl := late.state_eq
  cases late with
  | had found decoded =>
    have early : ((read χ).run s).1 = .ok (some b) := h [] [] χ b .slnil (congrArg Prod.fst found)
    exact ⟨_, .had (Prod.ext early rfl) decoded, h.next χ⟩

/-- A store that answers as a function gives the same at any time. -/
theorem Answers.lasting {f : BlockReader Id} (h : read.Answers s f) : read.Lasting s := by
  intro past past' χ b _ hb
  rw [h past' χ] at hb
  rw [h past χ, hb]

end BlockReader

/-! ## Errands with more instructions -/

section

variable (more : List Selector)

/-- The same plan, with more instructions at the end of the document. -/
inductive Plan.Longer : Plan → Plan → Prop
  /-- in the document's program -/
  | top {program program' : List Selector} (h : program' = program ++ more) :
      Longer (.top program) (.top program')
  /-- in a pass -/
  | pass {picks : List Pick} {r : Recursion} {passes : Option Nat} {after after' : List Selector}
      {start : Option Node} (h : after' = after ++ more) :
      Longer (.pass picks r passes after start) (.pass picks r passes after' start)

/-- The same children, with more to do at each. -/
def LongerEach (children children' : List (Node × Plan)) : Prop :=
  List.Forall₂ (fun c c' => c.1 = c'.1 ∧ c.2.Longer more c'.2) children children'

/-- The same errand, with more instructions at the end of the document. -/
inductive Errand.Longer : Errand → Errand → Prop
  /-- at a node -/
  | node {v : Node} {plan plan' : Plan} (h : plan.Longer more plan') :
      Longer (.node v plan) (.node v plan')
  /-- at a child -/
  | child {v : Node} {plan plan' : Plan} (h : plan.Longer more plan') :
      Longer (.child v plan) (.child v plan')
  /-- at children in turn, whatever was left over before them -/
  | inTurn {left left' : List Selector} {children children' : List (Node × Plan)}
      (h : LongerEach more children children') :
      Longer (.inTurn left children) (.inTurn left' children')

end

variable {more : List Selector}

/-- Of a program with more instructions either nothing is left in the shorter one, or the same
instruction comes next in both. -/
theorem Errand.Longer.of_top {e : Errand} {v : Node} {i : Selector} {after' : List Selector}
    (h : e.Longer more (.node v (.top (i :: after')))) :
    e = .node v (.top []) ∨ ∃ after, e = .node v (.top (i :: after)) ∧ after' = after ++ more := by
  cases h with
  | node h =>
    cases h with
    | top h =>
      rcases List.cons_eq_append_iff.1 h with ⟨rfl, -⟩ | ⟨after, rfl, h⟩
      · exact .inl rfl
      · exact .inr ⟨after, rfl, (List.cons.inj h).2⟩

theorem Plan.Longer.forSiblings {plan plan' : Plan} (h : plan.Longer more plan') :
    plan.forSiblings.Longer more plan'.forSiblings := by
  cases h with
  | top h => exact .top h
  | pass h => exact .pass h

/-- The children of a match have more to do if the plan has. -/
theorem Plan.Longer.family {plan plan' : Plan} (h : plan.Longer more plan') (c : Node)
    (cs : List Node) : LongerEach more (plan.family c cs) (plan'.family c cs) :=
  Plan.family_forall₂ h h.forSiblings c cs

/-! ## Evaluations -/

section

variable {S : Type} {read : BlockReader (StateM S)} {codecs : Registry}

/-- What a state covers it covers after an evaluation as well. -/
theorem Evaluates.covers {e : Errand} {s s₁ s₂ : S} {B : List Block}
    {o : Except TraversalError (List Selector)} (h : Evaluates read codecs e s₁ B o s₂)
    (hs : read.Covers s s₁) : read.Covers s s₂ := by
  induction h with
  | finished | noPass | mismatch | noStart | noChild => exact hs
  | firstPass _ _ ih | matching _ _ ih | lastPass _ ih | nextPass _ _ ih | fallBack _ _ ih
  | matchingInPass _ _ ih | inside _ _ ih | noMoreChildren _ ih => exact ih hs
  | opened fetch _ ih => exact ih (fetch.state_eq ▸ hs.skip _)
  | notOpened fetch => exact fetch.state_eq ▸ hs.skip _
  | nextChild _ _ ih ih' => exact ih' (ih hs)

variable (read codecs) in
/-- From the state `s` on an errand gives some of the blocks `B`, in order, and ends in a state that
covers `s'`. -/
def GivesSome (e : Errand) (s : S) (B : List Block) (s' : S) : Prop :=
  ∃ B₀ left t, Evaluates read codecs e s B₀ (.ok left) t ∧ B₀.Sublist B ∧ read.Covers t s'

/-- An errand that ends at once gives some of any blocks. -/
theorem GivesSome.at_once {e : Errand} {left : List Selector} {s s' : S} {B : List Block}
    (done : Evaluates read codecs e s [] (.ok left) s) (cover : read.Covers s s') :
    GivesSome read codecs e s B s' :=
  ⟨[], left, s, done, B.nil_sublist, cover⟩

/-- An errand that leads to another gives some of the blocks if that one does. -/
theorem GivesSome.of_imp {e e' : Errand} {s s' : S} {B : List Block}
    (h : GivesSome read codecs e s B s')
    (leads : ∀ {B left t}, Evaluates read codecs e s B (.ok left) t →
      Evaluates read codecs e' s B (.ok left) t) : GivesSome read codecs e' s B s' := by
  obtain ⟨B₀, left, t, he, sub, cover⟩ := h
  exact ⟨B₀, left, t, leads he, sub, cover⟩

/-- **The evaluation of a longer errand holds one of the shorter errand**, which gives some of its
blocks and fails only if the longer one does. -/
theorem Evaluates.shorter {e e' : Errand} {s s₁ s₂ : S} {B : List Block} {left' : List Selector}
    (h : Evaluates read codecs e' s₁ B (.ok left') s₂) (longer : e.Longer more e')
    (hs : read.Covers s s₁) : GivesSome read codecs e s B s₂ := by
  generalize ho : Except.ok left' = o at h
  -- the shorter program ends a branch at once where it has no instructions left; in all other cases
  -- both take the same instruction
  induction h generalizing e s left' with
  | finished =>
    rcases longer with ⟨⟨h⟩⟩
    obtain ⟨rfl, -⟩ := List.append_eq_nil_iff.1 h.symm
    exact .at_once .finished hs
  | noPass limit =>
    rcases longer.of_top with rfl | ⟨after, rfl, rfl⟩
    · exact .at_once .finished hs
    · exact .at_once (.noPass limit) hs
  | firstPass limit pass ih =>
    rcases longer.of_top with rfl | ⟨after, rfl, rfl⟩
    · exact .at_once .finished (pass.covers hs)
    · exact (ih (.node (.pass rfl)) hs ho).of_imp (.firstPass limit)
  | mismatch children =>
    rcases longer.of_top with rfl | ⟨after, rfl, rfl⟩
    · exact .at_once .finished hs
    · exact .at_once (.mismatch children) hs
  | matching children family ih =>
    rcases longer.of_top with rfl | ⟨after, rfl, rfl⟩
    · exact .at_once .finished (family.covers hs)
    · exact (ih (.inTurn ((Plan.Longer.top rfl).family _ _)) hs ho).of_imp (.matching children)
  | lastPass _ ih =>
    rcases longer with ⟨⟨⟩ | ⟨rfl⟩⟩
    exact (ih (.node (.top rfl)) hs ho).of_imp .lastPass
  | nextPass notLast _ ih =>
    rcases longer with ⟨⟨⟩ | ⟨rfl⟩⟩
    exact (ih (.node (.pass rfl)) hs ho).of_imp (.nextPass notLast)
  | fallBack children _ ih =>
    rcases longer with ⟨⟨⟩ | ⟨rfl⟩⟩
    exact (ih (.node (.top rfl)) hs ho).of_imp (.fallBack children)
  | noStart children =>
    rcases longer with ⟨⟨⟩ | ⟨rfl⟩⟩
    exact .at_once (.noStart children) hs
  | matchingInPass children _ ih =>
    rcases longer with ⟨⟨⟩ | ⟨rfl⟩⟩
    exact (ih (.inTurn ((Plan.Longer.pass rfl).family _ _)) hs ho).of_imp
      (.matchingInPass children)
  | inside plain _ ih =>
    rcases longer with _ | ⟨h⟩
    exact (ih (.node h) hs ho).of_imp (.inside plain)
  | opened fetch _ ih =>
    rcases longer with _ | ⟨h⟩
    obtain ⟨t, early, hs⟩ := hs.fetch fetch
    obtain ⟨B₀, left, t, he, sub, cover⟩ := ih (.node h) hs ho
    exact ⟨_, left, t, .opened early he, sub.cons_cons _, cover⟩
  | notOpened => cases ho
  | noChild =>
    rcases longer with _ | _ | ⟨⟨⟩⟩
    exact .at_once .noChild hs
  | nextChild _ _ ih ih' =>
    rcases longer with _ | _ | ⟨_ | ⟨⟨rfl, h⟩, hcs⟩⟩
    obtain ⟨B₁, left₁, t₁, child, sub₁, cover⟩ := ih (.child h) hs rfl
    obtain ⟨B₂, left₂, t₂, others, sub₂, cover⟩ := ih' (.inTurn hcs) cover ho
    exact ⟨B₁ ++ B₂, left₂, t₂, .nextChild child others, sub₁.append sub₂, cover⟩
  | noMoreChildren => cases ho

end

/-! ## Documents -/

namespace Traversal

/-- **Instructions behind a program only insert blocks.** If draining the longer program ends
without an error, so does draining the shorter one, and the blocks of the shorter one are among
those of the longer one, in the same order. What the store gives after some reads it has to give
after fewer. -/
theorem appended_inserts {S : Type} {read : BlockReader (StateM S)} {s : S}
    (lasting : read.Lasting s) (codecs : Registry) (root : Cid) (program more : List Selector)
    {B : List Block} {ρ : Resolution}
    (h : DrainsTo read codecs ⟨root, program ++ more⟩ s ⟨B, .ok ρ⟩) :
    ∃ B₀ ρ₀, DrainsTo read codecs ⟨root, program⟩ s ⟨B₀, .ok ρ₀⟩ ∧ B₀.Sublist B := by
  obtain ⟨o, s', he, ho⟩ := evaluates_of_drainsTo h
  cases o with
  | error ε => cases ho
  | ok left' =>
    obtain ⟨B₀, left, t, he, sub, -⟩ := he.shorter (.child (.top rfl)) lasting
    exact ⟨B₀, .ofRest left, drainsTo_of_evaluates he rfl, sub⟩

end Traversal

/-! ## Four blocks -/

namespace FourBlocks

/-- A block of the given number that links to the blocks of other numbers. -/
def block (n : UInt8) (links : Bytes) : Block := ⟨OneLink.cid n, links⟩

/-- The codec that takes bytes as numbers of blocks. -/
def codecs : Registry :=
  ⟨[⟨⟨0⟩, fun β => .ok (.list (β.map fun b => .link (OneLink.cid b))), fun _ => .ok []⟩]⟩

/-- The first block links to two others, and the first of these to the last block. -/
def memory : Memory := ⟨[block 0 [1, 2], block 1 [3], block 2 [], block 3 []]⟩

/-- A store that counts what is asked of it, and has the third block only after three questions. -/
def late : BlockReader (StateM Nat) := fun χ => do
  let n ← get
  set (n + 1)
  return .ok (if χ = OneLink.cid 2 ∧ n < 3 then none else memory.get? χ)

/-- All items, in one pass. -/
def onePass : List Selector := (OneLink.repeated (some 1)).program

end FourBlocks

open FourBlocks in
/-- All items, and then all items of each: the last block comes in between. -/
theorem Traversal.appended_inserts_fourBlocks :
    Store.memory.get.Lasting memory
      ∧ DrainsTo Store.memory.get codecs ⟨OneLink.cid 0, onePass ++ [.pick .all]⟩ memory
        ⟨[block 0 [1, 2], block 1 [3], block 3 [], block 2 []], .ok (.unresolved [.pick .all])⟩
      ∧ ∃ B₀ ρ₀, DrainsTo Store.memory.get codecs ⟨OneLink.cid 0, onePass⟩ memory ⟨B₀, .ok ρ₀⟩
        ∧ B₀.Sublist [block 0 [1, 2], block 1 [3], block 3 [], block 2 []] := by
  have lasting := (BlockReader.answers_memory memory).lasting
  have longer : DrainsTo Store.memory.get codecs ⟨OneLink.cid 0, onePass ++ [.pick .all]⟩ memory
      ⟨[block 0 [1, 2], block 1 [3], block 3 [], block 2 []], .ok (.unresolved [.pick .all])⟩ :=
    ⟨5, memory, by cbv⟩
  exact ⟨lasting, longer,
    appended_inserts lasting codecs (OneLink.cid 0) onePass [.pick .all] longer⟩

open FourBlocks in
/-- Over a store that gives late what it does not give early, the longer program can end where the
shorter one fails: what it reads in between is the time that the third block needs. -/
theorem Traversal.shorter_not_found_late :
    DrainsTo late codecs ⟨OneLink.cid 0, onePass ++ [.pick .all]⟩ 0
        ⟨[block 0 [1, 2], block 1 [3], block 3 [], block 2 []], .ok (.unresolved [.pick .all])⟩
      ∧ ¬ ∃ B₀ ρ₀, DrainsTo late codecs ⟨OneLink.cid 0, onePass⟩ 0 ⟨B₀, .ok ρ₀⟩ := by
  have notFound : DrainsTo late codecs ⟨OneLink.cid 0, onePass⟩ 0
      ⟨[block 0 [1, 2], block 1 [3]], .error (.notFound (OneLink.cid 2))⟩ := ⟨3, 3, by cbv⟩
  refine ⟨⟨5, 4, by cbv⟩, ?_⟩
  rintro ⟨B₀, ρ₀, h⟩
  cases h.unique notFound

end BlockWalk
