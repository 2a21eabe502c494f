import BlockWalk.Proofs.Correspondence
import BlockWalk.Proofs.Stores
import Mathlib.Order.WellFounded

/-!
# Draining ends

An evaluation leads from a plan at a node to plans at other nodes: `Follows` says to which, and
`ends_of_acc` that an evaluation ends where this cannot go on for ever. There are two reasons why it
cannot.

* If all recursions are limited, every step leaves fewer instructions to take, all passes counted
  (`Plan.cost`). Links may then lead in a circle.
* If links always lead to blocks of a lower rank, a step leaves fewer instructions of the document,
  or leads to a block of a lower rank, or to a smaller node of the same block, or a pass that has
  ended begins anew (`follows_wf`). Recursions may then be without a limit.

In both cases draining the traversal of a document ends (`Traversal.drain_ends`).
-/

namespace BlockWalk

/-! ## Links and their ranks -/

namespace Node

/-- The links inside a node. -/
def links : Node → List Cid
  | link χ => [χ]
  | list items => (items.map links).flatten
  | map entries => (entries.map fun e => links e.2).flatten
  | _ => []
decreasing_by
  · decreasing_tactic
  · have := Fields.sizeOf_value_lt ‹_›
    simp only [Node.map.sizeOf_spec]
    omega

/-- The links of a child are links of the node. -/
theorem links_subset_of_apply {σ : Step} {v w : Node} (h : σ.apply v = some w) :
    w.links ⊆ v.links := by
  intro χ hχ
  cases σ with
  | field key =>
    obtain ⟨entries, he, hf⟩ := Option.bind_eq_some_iff.1 h
    obtain ⟨e, hm, rfl⟩ := Option.map_eq_some_iff.1 hf
    cases v <;> cases he
    rw [links]
    exact List.mem_flatten.2
      ⟨_, List.mem_map_of_mem (List.mem_of_find?_eq_some hm), hχ⟩
  | index place =>
    obtain ⟨items, hi, hw⟩ := Option.bind_eq_some_iff.1 h
    cases v <;> cases hi
    rw [links]
    exact List.mem_flatten.2 ⟨_, List.mem_map_of_mem (List.mem_of_getElem? hw), hχ⟩

/-- A number above the ranks of all links inside a node, and the least such number. -/
def linkRank (rank : Cid → Nat) (v : Node) : Nat :=
  (v.links.map fun χ => rank χ + 1).max?.getD 0

theorem rank_lt_linkRank {rank : Cid → Nat} {v : Node} {χ : Cid} (h : χ ∈ v.links) :
    rank χ < v.linkRank rank :=
  List.le_max?_getD_of_mem (List.mem_map_of_mem (f := fun χ => rank χ + 1) h)

theorem linkRank_le {rank : Cid → Nat} {v : Node} {n : Nat} (h : ∀ χ ∈ v.links, rank χ < n) :
    v.linkRank rank ≤ n := by
  rw [linkRank]
  cases hm : (v.links.map fun χ => rank χ + 1).max? with
  | none => exact Nat.zero_le n
  | some k =>
    obtain ⟨χ, hχ, rfl⟩ := List.mem_map.1 (List.max?_mem hm)
    exact h χ hχ

theorem linkRank_le_of_apply (rank : Cid → Nat) {σ : Step} {v w : Node}
    (h : σ.apply v = some w) : w.linkRank rank ≤ v.linkRank rank :=
  linkRank_le fun _ hχ => rank_lt_linkRank (links_subset_of_apply h hχ)

end Node

/-! ## What follows -/

/-- Coming to a child `c`, an evaluation goes on at `w`: the child itself, or the root of a block
that the store may give for it, which is what `D` says. -/
inductive Arrives (D : Cid → Node → Prop) : (c w : Node) → Prop
  /-- in the same block -/
  | inside {c : Node} (plain : c.asLink? = none) : Arrives D c c
  /-- in another block -/
  | opened {χ : Cid} {w : Node} (given : D χ w) : Arrives D (.link χ) w

/-- The evaluation of a plan at a node needs that of another plan at another node, which is named
first. -/
inductive Follows (D : Cid → Node → Prop) : Node × Plan → Node × Plan → Prop
  /-- the first pass of a recursion -/
  | firstPass {v : Node} {r : Recursion} {after : List Selector} (limit : r.limit ≠ some 0) :
      Follows D (v, .pass r.follow r (r.limit.map UInt64.toNat) after (some v))
        (v, .top (.recursive r :: after))
  /-- what follows a recursion after its last pass -/
  | lastPass {v : Node} {r : Recursion} {after : List Selector} {start : Option Node} :
      Follows D (v, .top after) (v, .pass [] r (some 1) after start)
  /-- the next pass of a recursion -/
  | nextPass {v : Node} {r : Recursion} {passes : Option Nat} {after : List Selector}
      {start : Option Node} (notLast : passes ≠ some 1) :
      Follows D (v, .pass r.follow r (passes.map (· - 1)) after (some v))
        (v, .pass [] r passes after start)
  /-- what follows a recursion, where the pass began -/
  | fallBack {v start : Node} {p : Pick} {picks : List Pick} {r : Recursion} {passes : Option Nat}
      {after : List Selector} :
      Follows D (start, .top after) (v, .pass (p :: picks) r passes after (some start))
  /-- a child, by an instruction of the document -/
  | child {v c w : Node} {p : Pick} {after : List Selector} (mem : c ∈ p.children v)
      (arrives : Arrives D c w) : Follows D (w, .top after) (v, .top (.pick p :: after))
  /-- a child, by a pick of a pass -/
  | childInPass {v c w : Node} {p : Pick} {picks : List Pick} {r : Recursion}
      {passes : Option Nat} {after : List Selector} {start start' : Option Node}
      (mem : c ∈ p.children v) (arrives : Arrives D c w) :
      Follows D (w, .pass picks r passes after start') (v, .pass (p :: picks) r passes after start)

/-! ## Evaluations that end -/

section

variable {S : Type} (read : BlockReader (StateM S)) (codecs : Registry)

/-- From the state `s` on, the roots of the blocks that a store gives are among those that `D`
says. -/
def BlockReader.Serves (D : Cid → Node → Prop) (s : S) : Prop :=
  ∀ past χ b v, ((Traversal.load read codecs χ).run (read.after s past)).1 = .ok (b, v) → D χ v

/-- An evaluation ends whenever the store serves what `D` says. -/
def Ends (D : Cid → Node → Prop) (e : Errand) : Prop :=
  ∀ s, read.Serves codecs D s →
    ∃ B o s', Evaluates read codecs e s B o s' ∧ read.Serves codecs D s'

variable {read codecs} {D : Cid → Node → Prop}

/-- Having read a block, a store serves what it served before. -/
theorem BlockReader.Serves.next {χ : Cid} {s s₁ : S} {a : Except TraversalError (Block × Node)}
    (h : read.Serves codecs D s) (fetch : Fetches read codecs χ s s₁ a) :
    read.Serves codecs D s₁ := by
  obtain rfl := fetch.state_eq
  exact fun past => h (χ :: past)

/-- What is fetched is among what a store serves. -/
theorem BlockReader.Serves.root {χ : Cid} {s s₁ : S} {b : Block} {v : Node}
    (h : read.Serves codecs D s) (fetch : Fetches read codecs χ s s₁ (.ok (b, v))) : D χ v :=
  h [] χ b v (congrArg Prod.fst (fetches_iff.1 fetch))

/-- A child is evaluated to an end if what is there is. -/
theorem ends_child {c : Node} {plan : Plan}
    (h : ∀ w, Arrives D c w → Ends read codecs D (.node w plan)) :
    Ends read codecs D (.child c plan) := by
  intro s hs
  cases hc : c.asLink? with
  | none =>
    obtain ⟨B, o, s', he, hs'⟩ := h c (.inside hc) s hs
    exact ⟨B, o, s', .inside hc he, hs'⟩
  | some χ =>
    obtain rfl := Node.eq_link_of_asLink? hc
    obtain ⟨s₁, a, fetch⟩ : ∃ s₁ a, Fetches read codecs χ s s₁ a := ⟨_, _, fetches_iff.2 rfl⟩
    rcases a with ε | ⟨b, v⟩
    · exact ⟨[], .error ε, s₁, .notOpened fetch, hs.next fetch⟩
    · obtain ⟨B, o, s', he, hs'⟩ := h v (.opened (hs.root fetch)) s₁ (hs.next fetch)
      exact ⟨b :: B, o, s', .opened fetch he, hs'⟩

/-- Children in turn are evaluated to an end if each of them is. -/
theorem ends_inTurn {cs : List (Node × Plan)}
    (h : ∀ c ∈ cs, Ends read codecs D (.child c.1 c.2)) (left : List Selector) :
    Ends read codecs D (.inTurn left cs) := by
  induction cs generalizing left with
  | nil => exact fun s hs => ⟨[], .ok left, s, .noChild, hs⟩
  | cons c cs ih =>
    intro s hs
    obtain ⟨B, o, s₁, hc, hs₁⟩ := h c List.mem_cons_self s hs
    cases o with
    | error ε => exact ⟨B, .error ε, s₁, .noMoreChildren hc, hs₁⟩
    | ok left' =>
      obtain ⟨B', o', s', hcs, hs'⟩ := ih (fun d hd => h d (List.mem_cons_of_mem c hd)) left' s₁ hs₁
      exact ⟨B ++ B', o', s', .nextChild hc hcs, hs'⟩

/-- The children of a match are evaluated to an end if what is there is, as the first child and as
a later one. -/
theorem ends_family {plan : Plan} {c : Node} {cs : List Node}
    (h : ∀ d ∈ c :: cs, ∀ w, Arrives D d w →
      Ends read codecs D (.node w plan) ∧ Ends read codecs D (.node w plan.forSiblings)) :
    Ends read codecs D (.inTurn [] (plan.family c cs)) := by
  refine ends_inTurn (fun x hx => ?_) []
  rcases List.mem_cons.1 hx with rfl | hx
  · exact ends_child fun w hw => (h c List.mem_cons_self w hw).1
  · obtain ⟨d, hd, rfl⟩ := List.mem_map.1 hx
    exact ends_child fun w hw => (h d (List.mem_cons_of_mem c hd) w hw).2

/-- An evaluation ends if one does that it is the same as. -/
theorem Ends.of_eq {e e' : Errand} (h : Ends read codecs D e)
    (he : Evaluates read codecs e' = Evaluates read codecs e) : Ends read codecs D e' := by
  intro s hs
  rw [he]
  exact h s hs

/-- An evaluation ends that does nothing. -/
theorem Ends.of_done {e : Errand} {left : List Selector}
    (he : Evaluates read codecs e = Behaviour.done left) : Ends read codecs D e := by
  intro s hs
  rw [he]
  exact ⟨[], .ok left, s, Behaviour.done_self left s, hs⟩

/-- **An evaluation ends where no plan can follow another for ever.** -/
theorem ends_of_acc {x : Node × Plan} (h : Acc (Follows D) x) :
    Ends read codecs D (.node x.1 x.2) := by
  induction h with
  | intro x _ ih =>
    -- the rules, one by one: each is about plans that follow, or does nothing
    obtain ⟨v, plan⟩ := x
    match plan with
    | .top [] => exact .of_done evaluates_top_nil
    | .top (.recursive r :: after) =>
      by_cases hl : r.limit = some 0
      · exact .of_done (evaluates_noPass hl)
      · exact (ih _ (.firstPass hl)).of_eq (evaluates_firstPass hl)
    | .top (.pick p :: after) =>
      cases hc : p.children v with
      | nil => exact .of_done (evaluates_mismatch hc)
      | cons c cs =>
        refine (ends_family fun d hd w hw => ?_).of_eq (evaluates_matching hc)
        have := ih _ (.child (hc ▸ hd) hw)
        exact ⟨this, this⟩
    | .pass [] r passes after start =>
      by_cases hp : passes = some 1
      · subst hp
        exact (ih _ .lastPass).of_eq evaluates_lastPass
      · exact (ih _ (.nextPass hp)).of_eq (evaluates_nextPass hp)
    | .pass (p :: picks) r passes after start =>
      cases hc : p.children v with
      | nil =>
        cases start with
        | none => exact .of_done (evaluates_noStart hc)
        | some u => exact (ih _ .fallBack).of_eq (evaluates_fallBack hc)
      | cons c cs =>
        refine (ends_family fun d hd w hw => ?_).of_eq (evaluates_matchingInPass hc)
        exact ⟨ih _ (.childInPass (hc ▸ hd) hw), ih _ (.childInPass (hc ▸ hd) hw)⟩

end

/-! ## Limited recursions -/

/-- The most instructions that one instruction takes, all passes counted, if it is limited. -/
def Selector.cost : Selector → Nat
  | pick _ => 1
  | recursive r => (r.limit.map UInt64.toNat).getD 0 * (r.follow.length + 1) + 1

/-- The same for a program. -/
def programCost (program : List Selector) : Nat := total (program.map Selector.cost)

/-- The most instructions that are taken for a plan, if all recursions are limited. -/
def Plan.cost : Plan → Nat
  | top program => programCost program
  | pass picks r passes after _ =>
    picks.length + (passes.getD 0 - 1) * (r.follow.length + 1) + 1 + programCost after

/-- All recursions of a program are limited. -/
def Limited (program : List Selector) : Prop := ∀ r, .recursive r ∈ program → r.limit ≠ none

/-- All recursions of a plan are limited, and the running pass is counted. -/
def Plan.Limited : Plan → Prop
  | top program => BlockWalk.Limited program
  | pass _ _ passes after _ => (∃ n, passes = some (n + 1)) ∧ BlockWalk.Limited after

@[simp] theorem programCost_cons (i : Selector) (program : List Selector) :
    programCost (i :: program) = i.cost + programCost program := rfl

theorem Limited.tail {i : Selector} {program : List Selector} (h : Limited (i :: program)) :
    Limited program :=
  fun r hr => h r (List.mem_cons_of_mem i hr)

/-- A new pass with one more to come costs less than all that are left. -/
theorem Plan.cost_newPass (r : Recursion) (n : Nat) (after : List Selector)
    (start : Option Node) :
    (Plan.pass r.follow r (some (n + 1)) after start).cost
      = (n + 1) * (r.follow.length + 1) + programCost after := by
  simp only [cost, Option.getD_some, Nat.add_sub_cancel, Nat.succ_mul]
  omega

/-- What follows a limited plan is limited and costs less. -/
theorem Follows.cost_lt {D : Cid → Node → Prop} {x y : Node × Plan} (h : Follows D y x)
    (hl : x.2.Limited) : y.2.Limited ∧ y.2.cost < x.2.cost := by
  cases h with
  | @firstPass v r after limit =>
    have hl : BlockWalk.Limited (.recursive r :: after) := hl
    cases hr : r.limit with
    | none => exact absurd hr (hl r List.mem_cons_self)
    | some n =>
      have h₀ : n.toNat ≠ 0 := fun h₀ => limit (hr.trans (congrArg some (UInt64.toNat_inj.1 h₀)))
      obtain ⟨k, hk⟩ : ∃ k, n.toNat = k + 1 := ⟨n.toNat - 1, by omega⟩
      rw [Option.map_some, hk]
      refine ⟨⟨⟨k, rfl⟩, hl.tail⟩, ?_⟩
      rw [Plan.cost_newPass, Plan.cost, programCost_cons, Selector.cost, hr, Option.map_some, hk,
        Option.getD_some]
      omega
  | lastPass =>
    refine ⟨hl.2, ?_⟩
    simp only [Plan.cost]
    omega
  | nextPass notLast =>
    obtain ⟨⟨n, rfl⟩, hafter⟩ := hl
    cases n with
    | zero => exact absurd rfl notLast
    | succ n =>
      rw [Option.map_some, Nat.add_sub_cancel]
      refine ⟨⟨⟨n, rfl⟩, hafter⟩, ?_⟩
      rw [Plan.cost_newPass]
      simp only [Plan.cost, Option.getD_some, Nat.add_sub_cancel]
      omega
  | fallBack =>
    refine ⟨hl.2, ?_⟩
    simp only [Plan.cost]
    omega
  | child =>
    refine ⟨Limited.tail hl, ?_⟩
    simp only [Plan.cost, programCost_cons, Selector.cost]
    omega
  | childInPass =>
    refine ⟨hl, ?_⟩
    simp only [Plan.cost, List.length_cons]
    omega

/-- No plan follows another for ever if all recursions are limited. -/
theorem acc_of_limited {D : Cid → Node → Prop} {x : Node × Plan} (h : x.2.Limited) :
    Acc (Follows D) x := by
  induction hn : x.2.cost using Nat.strongRecOn generalizing x with
  | ind n ih =>
    refine ⟨x, fun y hy => ?_⟩
    obtain ⟨hl, hlt⟩ := hy.cost_lt h
    exact ih y.2.cost (hn ▸ hlt) hl rfl

/-! ## Ranked links -/

/-- How much of the document's program is left, in half instructions. -/
def Plan.level : Plan → Nat
  | top program => 2 * program.length
  | pass _ _ _ after _ => 2 * after.length + 1

/-- Whether a pass has ended. -/
def Plan.phase : Plan → Nat
  | top _ => 0
  | pass picks _ _ _ _ => if picks.isEmpty then 1 else 0

/-- What falls with everything that follows, if links lead to blocks of a lower rank: what is left
of the document, the rank of the block, the node, and whether its pass has ended. -/
noncomputable def descent (rank : Cid → Nat) (x : Node × Plan) : Nat × Nat × Nat × Nat :=
  (x.2.level, x.1.linkRank rank, sizeOf x.1, x.2.phase)

/-- The order of descents: the first difference counts. -/
def descentOrder : Nat × Nat × Nat × Nat → Nat × Nat × Nat × Nat → Prop :=
  Prod.Lex (· < ·) (Prod.Lex (· < ·) (Prod.Lex (· < ·) (· < ·)))

theorem descentOrder_wf : WellFounded descentOrder :=
  .prod_lex Nat.lt_wfRel.wf (.prod_lex Nat.lt_wfRel.wf (.prod_lex Nat.lt_wfRel.wf Nat.lt_wfRel.wf))

/-- Where an evaluation arrives there are only links of a lower rank, or the node is smaller and has
no links of a higher one. -/
theorem Arrives.falls {D : Cid → Node → Prop} {rank : Cid → Nat}
    (hD : ∀ χ w, D χ w → ∀ ψ ∈ w.links, rank ψ < rank χ) {p : Pick} {v c w : Node}
    (mem : c ∈ p.children v) (h : Arrives D c w) :
    w.linkRank rank < v.linkRank rank
      ∨ w.linkRank rank = v.linkRank rank ∧ sizeOf w < sizeOf v := by
  obtain ⟨σ, hσ⟩ := p.exists_apply_of_mem_children mem
  cases h with
  | inside =>
    have hle : c.linkRank rank ≤ v.linkRank rank := Node.linkRank_le_of_apply rank hσ
    rcases Nat.lt_or_eq_of_le hle with hlt | heq
    · exact .inl hlt
    · exact .inr ⟨heq, Step.sizeOf_lt_of_apply hσ⟩
  | @opened χ w given =>
    -- the link is one of the node, and all links behind it are of a lower rank
    have hχ : χ ∈ v.links := Node.links_subset_of_apply hσ (by simp [Node.links])
    have hw : w.linkRank rank ≤ rank χ := Node.linkRank_le (hD χ w given)
    exact .inl (Nat.lt_of_le_of_lt hw (Node.rank_lt_linkRank hχ))

/-- What follows is lower in the order of descents. -/
theorem Follows.descent_lt {D : Cid → Node → Prop} {rank : Cid → Nat}
    (hD : ∀ χ w, D χ w → ∀ ψ ∈ w.links, rank ψ < rank χ) {x y : Node × Plan}
    (h : Follows D y x) : descentOrder (descent rank y) (descent rank x) := by
  cases h with
  | firstPass | lastPass | fallBack | child =>
    refine .left _ _ ?_
    simp only [Plan.level, List.length_cons]
    omega
  | @nextPass v r passes after start notLast =>
    -- the same node, but with picks to take again
    refine .right _ (.right _ (.right _ ?_))
    simp [Plan.phase, r.follow_ne_nil]
  | childInPass mem arrives =>
    rcases arrives.falls hD mem with hlt | ⟨heq, hlt⟩
    · exact .right _ (.left _ _ hlt)
    · rw [descent, heq]
      exact .right _ (.right _ (.left _ _ hlt))

/-- No plan follows another for ever if links lead to blocks of a lower rank. -/
theorem follows_wf {D : Cid → Node → Prop} {rank : Cid → Nat}
    (hD : ∀ χ w, D χ w → ∀ ψ ∈ w.links, rank ψ < rank χ) : WellFounded (Follows D) :=
  Subrelation.wf (fun h => h.descent_lt hD) (InvImage.wf (descent rank) descentOrder_wf)

/-! ## Draining -/

namespace Traversal

/-- Draining the traversal of a document over a store in the state `s` ends, by some number of
pulls. -/
def DrainEnds {S : Type} (read : BlockReader (StateM S)) (codecs : Registry) (d : Document)
    (s : S) : Prop :=
  ∃ pulls sel s', ((ofDocument d).drain read codecs pulls).run s = (some sel, s')

/-- A store has a block of this identifier and can decode it to this root. -/
def RootOf (codecs : Registry) (f : BlockReader Id) (χ : Cid) (v : Node) : Prop :=
  ∃ b, f χ = .ok (some b) ∧ codecs.decode b = .ok v

/-- Every link inside a block that a store has leads to an identifier of a lower rank. -/
def Ranked (codecs : Registry) (f : BlockReader Id) (rank : Cid → Nat) : Prop :=
  ∀ χ v, RootOf codecs f χ v → ∀ ψ ∈ v.links, rank ψ < rank χ

section

variable {S : Type} {read : BlockReader (StateM S)} {codecs : Registry} {d : Document} {s : S}

/-- Draining ends if no plan can follow another for ever at the root of the document. -/
theorem drainEnds_of_acc {D : Cid → Node → Prop} (hs : read.Serves codecs D s)
    (h : ∀ w, Arrives D (.link d.root) w → Acc (Follows D) (w, .top d.program)) :
    DrainEnds read codecs d s := by
  obtain ⟨B, o, s', he, -⟩ := ends_child (fun w hw => ends_of_acc (h w hw)) s hs
  have hg : (ofDocument d).Gives read codecs s B (o.map Resolution.ofRest) s' :=
    gives_ofDocument_iff.2 (selects_iff.2 ⟨o, he, rfl⟩)
  obtain ⟨pulls, drained⟩ := drain_iff_gives.2 hg
  exact ⟨pulls, _, s', drained⟩

/-- A store that answers as a function serves the roots of the blocks of the function. -/
theorem serves_of_answers {f : BlockReader Id} (h : read.Answers s f) :
    read.Serves codecs (RootOf codecs f) s := by
  intro past χ b v hl
  rw [run_load, h past χ] at hl
  exact ⟨b, opened_eq_ok_iff.1 hl⟩

end

/-- **Draining ends** if all recursions of the document are limited, whatever the store answers, and
also without limits if the store answers as a function and its links lead to lower ranks. -/
theorem drain_ends {S : Type} (read : BlockReader (StateM S)) (codecs : Registry) (d : Document)
    (s : S) :
    (Limited d.program → DrainEnds read codecs d s)
      ∧ ∀ f rank, read.Answers s f → Ranked codecs f rank → DrainEnds read codecs d s := by
  refine ⟨fun limited => ?_, fun f rank answers ranked => ?_⟩
  · have hs : read.Serves codecs (fun _ _ => True) s := fun _ _ _ _ _ => trivial
    exact drainEnds_of_acc hs fun w _ => acc_of_limited limited
  · have hwf : WellFounded (Follows (RootOf codecs f)) := follows_wf ranked
    exact drainEnds_of_acc (serves_of_answers answers) fun w _ => hwf.apply _

end Traversal

namespace OneLink

/-- A document that takes all items, over and over. -/
def repeated (limit : Option UInt64) : Document :=
  ⟨outer.cid, [.recursive ⟨[.all], List.cons_ne_nil _ _, limit⟩]⟩

/-- The same list twice, so that the second links to itself. -/
def circle : Memory := ⟨[outer, ⟨inner.cid, outer.data⟩]⟩

/-- The list is above what it links to. -/
def rank (χ : Cid) : Nat := if χ = outer.cid then 1 else 0

theorem ranked_memory : Traversal.Ranked codecs (fun χ => .ok (memory.get? χ)) rank := by
  rintro χ v ⟨b, hb, hv⟩ ψ hψ
  obtain rfl := BlockReader.labelled_memory memory χ b hb
  have hm : b ∈ memory.blocks := List.mem_of_find?_eq_some (Except.ok.inj hb)
  have hcases : b = outer ∨ b = inner ∨ b = ⟨cid 2, []⟩ := by simpa [memory] using hm
  rcases hcases with rfl | rfl | rfl
  · obtain rfl : Node.list [.link inner.cid] = v := Except.ok.inj hv
    obtain rfl : ψ = inner.cid := by simpa [Node.links] using hψ
    decide
  · obtain rfl : Node.null = v := Except.ok.inj hv
    simp [Node.links] at hψ
  · obtain rfl : Node.null = v := Except.ok.inj hv
    simp [Node.links] at hψ

end OneLink

open OneLink in
/-- Limited passes end on a list that links to itself, and unlimited ones on a list with one
link. -/
theorem Traversal.drain_ends_oneLink :
    Limited (repeated (some 2)).program
      ∧ DrainEnds Store.memory.get codecs (repeated (some 2)) circle
      ∧ Store.memory.get.Answers memory (fun χ => .ok (memory.get? χ))
      ∧ Ranked codecs (fun χ => .ok (memory.get? χ)) rank
      ∧ DrainEnds Store.memory.get codecs (repeated none) memory := by
  have limited : Limited (repeated (some 2)).program := by
    intro r hr
    obtain rfl : r = ⟨[.all], List.cons_ne_nil _ _, some 2⟩ := by simpa [repeated] using hr
    exact Option.some_ne_none 2
  have answers := BlockReader.answers_memory memory
  exact ⟨limited, (drain_ends _ _ _ circle).1 limited, answers, ranked_memory,
    (drain_ends _ _ _ memory).2 _ rank answers ranked_memory⟩

end BlockWalk
