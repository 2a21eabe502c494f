import BlockWalk.Proofs.InStep
import BlockWalk.Proofs.Stores
import Mathlib

/-!
# Limited recursions, unrolled

A recursion of `n` passes at the end of a program leads to the same blocks as its picks written out
`n` times. The one runs in passes, with a number of them left and a node to fall back to; the other
takes one instruction of the document after the other. `Unrolls` relates what is left to do in both,
for the cursor and for every sibling that waits: in a pass with `n` more to come, the picks of the
pass and `n` copies are left.

* `unrolls_simulates` — every instruction keeps the relation.
* `Traversal.limited_eq_unrolled` — so both documents give the same blocks and the same error.

What is left over differs: a pass that does not match leaves nothing over, an instruction does.
-/

namespace BlockWalk

/-! ## Copies -/

namespace Recursion

/-- The same recursion with a limit of `d` passes. -/
def limitedTo (r : Recursion) (d : UInt64) : Recursion := { r with limit := some d }

/-- The picks of `n` passes, as instructions of a document. -/
def copies (r : Recursion) (n : Nat) : List Selector :=
  (List.replicate n (r.follow.map Selector.pick)).flatten

theorem copies_succ (r : Recursion) (n : Nat) :
    r.copies (n + 1) = r.follow.map .pick ++ r.copies n := by
  rw [copies, List.replicate_succ, List.flatten_cons, copies]

end Recursion

/-! ## What is left to do -/

section

variable (r : Recursion) (d : UInt64)

/-- The recursion is the last instruction of the one program, and the copies are those of the other
after the same instructions. -/
def Ahead (program program' : Program Selector) : Prop :=
  ∃ before, program.remaining = before ++ [.recursive (r.limitedTo d)]
    ∧ program'.remaining = before ++ r.copies d.toNat

/-- What is left to do with the recursion, and what is left with the copies. -/
inductive Unrolls : Task → Task → Prop
  /-- neither has begun -/
  | before {program program' : Program Selector} (ahead : Ahead r d program program') :
      Unrolls (.top program) (.top program')
  /-- neither has begun, and both are in a recursion before it -/
  | outer {picks : Program Pick} {recursion : Recursion} {passes : Option Nat}
      {after after' : Program Selector} {start : Option Focus} (ahead : Ahead r d after after') :
      Unrolls (.pass picks ⟨recursion, passes, after, start⟩)
        (.pass picks ⟨recursion, passes, after', start⟩)
  /-- in a pass, with `n` more to come -/
  | inside {picks : Program Pick} {s : Scope} {program' : Program Selector} (n : Nat)
      (follow : s.recursion.follow = r.follow) (passes : s.passes = some (n + 1))
      (after : s.after.remaining = [])
      (left : program'.remaining = picks.remaining.map .pick ++ r.copies n) :
      Unrolls (.pass picks s) (.top program')
  /-- both are done -/
  | done {program program' : Program Selector} (nil : program.remaining = [])
      (nil' : program'.remaining = []) : Unrolls (.top program) (.top program')

end

variable {r : Recursion} {d : UInt64}

/-! ## Instructions -/

/-- A new pass, with `n` more to come, is what the copies begin with, so they wait. -/
theorem Unrolls.inStep_newPass {f : Focus} {s : Scope} {program' : Program Selector} {n : Nat}
    (follow : s.recursion.follow = r.follow) (passes : s.passes = some (n + 1))
    (after : s.after.remaining = []) (left : program'.remaining = r.copies (n + 1)) :
    InStep (Unrolls r d) ⟨f, .top program'⟩ (.stay (s.newPass f)) := by
  refine .wait (.inside n follow passes after ?_)
  rw [left, r.copies_succ, ← follow]
  rfl

/-- The recursion begins, or is left at once if there are no copies. -/
theorem Unrolls.inStep_enter {f : Focus} {after program' : Program Selector}
    (nil : after.remaining = []) (left : program'.remaining = r.copies d.toNat) :
    InStep (Unrolls r d) ⟨f, .top program'⟩ ((r.limitedTo d).enter f after) := by
  rw [Recursion.enter]
  split
  · next h =>
    have h₀ : d.toNat = 0 := congrArg UInt64.toNat (Option.some.inj h)
    rw [nil]
    exact .exhausted (Cursor.advance_of_nil (left.trans (congrArg r.copies h₀)))
  · next h =>
    have h₀ : d.toNat ≠ 0 := fun h₀ => h (congrArg some (UInt64.toNat_inj.1 h₀))
    obtain ⟨n, hn⟩ := Nat.exists_eq_succ_of_ne_zero h₀
    exact inStep_newPass rfl (congrArg some hn) nil (left.trans (congrArg r.copies hn))

/-- Before the recursion both take the same instruction. -/
theorem Unrolls.inStep_before {f : Focus} {program program' : Program Selector}
    (ahead : Ahead r d program program') :
    InStep (Unrolls r d) ⟨f, .top program'⟩ (Cursor.advance ⟨f, .top program⟩) := by
  obtain ⟨before, h, h'⟩ := ahead
  cases before with
  | nil =>
    obtain ⟨after, hn, nil⟩ := Program.next?_of_cons h
    rw [Cursor.advance_recursive hn]
    exact inStep_enter nil h'
  | cons i before =>
    obtain ⟨after, hn, hr⟩ := Program.next?_of_cons h
    obtain ⟨after', hn', hr'⟩ := Program.next?_of_cons h'
    have ahead : Ahead r d after after' := ⟨before, hr, hr'⟩
    cases i with
    | recursive q =>
      have hc' := Cursor.advance_recursive (f := f) hn'
      rw [Cursor.advance_recursive hn]
      by_cases hq : q.limit = some 0
      · rw [Recursion.enter, if_pos hq] at hc' ⊢
        exact .exhausted hc'
      · rw [Recursion.enter, if_neg hq] at hc' ⊢
        exact .stay hc' (.outer ahead)
    | pick p =>
      have hc' := Cursor.advance_pick (f := f) hn'
      rw [Cursor.advance_pick hn]
      cases hv : p.visit f.node with
      | some m =>
        rw [hv] at hc'
        exact .children hc' (.before ahead) (.before ahead)
      | none =>
        rw [hv] at hc'
        exact .exhausted hc'

/-- In a recursion before it both take the same pick, or leave that recursion. -/
theorem Unrolls.inStep_outer {f : Focus} {picks : Program Pick} {recursion : Recursion}
    {passes : Option Nat} {after after' : Program Selector} {start : Option Focus}
    (ahead : Ahead r d after after') :
    InStep (Unrolls r d) ⟨f, .pass picks ⟨recursion, passes, after', start⟩⟩
      (Cursor.advance ⟨f, .pass picks ⟨recursion, passes, after, start⟩⟩) := by
  cases hn : picks.next? with
  | none =>
    have nil := Program.remaining_eq_nil hn
    have hc' := Cursor.advance_endOfPass (f := f) (s := ⟨recursion, passes, after', start⟩) nil
    rw [Cursor.advance_endOfPass nil]
    rw [Scope.endOfPass] at hc' ⊢
    dsimp only at hc' ⊢
    generalize passes.map (· - 1) = later at hc' ⊢
    rcases later with _ | _ | n
    · exact .stay hc' (.outer ahead)
    · exact .stay hc' (.before ahead)
    · exact .stay hc' (.outer ahead)
  | some next =>
    obtain ⟨p, rest⟩ := next
    have hc' := Cursor.advance_pass (f := f) (s := ⟨recursion, passes, after', start⟩) hn
    rw [Cursor.advance_pass hn]
    cases hv : p.visit f.node with
    | some m =>
      rw [hv] at hc'
      exact .children hc' (.outer ahead) (.outer ahead)
    | none =>
      rw [hv] at hc'
      cases start with
      | some u => exact .stay hc' (.before ahead)
      | none => exact .exhausted hc'

/-- In a pass of the recursion the copies take the same pick; at its end they wait. -/
theorem Unrolls.inStep_inside {f : Focus} {picks : Program Pick} {s : Scope}
    {program' : Program Selector} {n : Nat} (follow : s.recursion.follow = r.follow)
    (passes : s.passes = some (n + 1)) (after : s.after.remaining = [])
    (left : program'.remaining = picks.remaining.map .pick ++ r.copies n) :
    InStep (Unrolls r d) ⟨f, .top program'⟩ (Cursor.advance ⟨f, .pass picks s⟩) := by
  cases hn : picks.next? with
  | none =>
    have nil := Program.remaining_eq_nil hn
    rw [nil, List.map_nil, List.nil_append] at left
    rw [Cursor.advance_endOfPass nil, Scope.endOfPass, passes]
    cases n with
    | zero => exact .wait (.done after left)
    | succ n => exact inStep_newPass (s := { s with passes := some (n + 1) }) follow rfl after left
  | some next =>
    obtain ⟨p, rest⟩ := next
    rw [Program.remaining_of_next? hn, List.map_cons, List.cons_append] at left
    obtain ⟨after', hn', hr'⟩ := Program.next?_of_cons left
    have hc' := Cursor.advance_pick (f := f) hn'
    rw [Cursor.advance_pass hn]
    cases hv : p.visit f.node with
    | some m =>
      rw [hv] at hc'
      exact .children hc' (.inside n follow passes after hr') (.inside n follow passes after hr')
    | none =>
      rw [hv] at hc'
      dsimp only
      rw [Scope.halt]
      -- without instructions to follow, it makes no difference where the pass began
      cases s.start with
      | some u => exact .fallen hc' after
      | none => exact .exhausted hc'

/-- **Every instruction keeps the recursion and its copies in step.** -/
theorem unrolls_simulates (r : Recursion) (d : UInt64) : Simulates (Unrolls r d) := by
  intro f task task' h
  cases h with
  | before ahead => exact Unrolls.inStep_before ahead
  | outer ahead => exact Unrolls.inStep_outer ahead
  | inside n follow passes after left => exact Unrolls.inStep_inside follow passes after left
  | done nil nil' =>
    rw [Cursor.advance_of_nil nil]
    exact .exhausted (Cursor.advance_of_nil nil')

/-! ## Documents -/

namespace Traversal

/-- **A limited recursion at the end of a program gives the same blocks as its picks written out
once for every pass**, and the same error if there is one: as they come, by any number of pulls, and
when all are drained. -/
theorem limited_eq_unrolled {m : Type → Type} [Monad m] [LawfulMonad m] (read : BlockReader m)
    (codecs : Registry) (root : Cid) (before : List Selector) (r : Recursion) (d : UInt64)
    (pulls : Nat) :
    stream read codecs pulls (ofDocument ⟨root, before ++ [.recursive (r.limitedTo d)]⟩)
        = stream read codecs pulls (ofDocument ⟨root, before ++ r.copies d.toNat⟩)
      ∧ Option.map Selection.seen <$>
          drain read codecs pulls (ofDocument ⟨root, before ++ [.recursive (r.limitedTo d)]⟩)
        = Option.map Selection.seen <$>
          drain read codecs pulls (ofDocument ⟨root, before ++ r.copies d.toNat⟩) := by
  have alike : Alike (Unrolls r d)
      (ofDocument ⟨root, before ++ [.recursive (r.limitedTo d)]⟩)
      (ofDocument ⟨root, before ++ r.copies d.toNat⟩) :=
    .block (.before ⟨before, rfl, rfl⟩) .nil
  exact ⟨stream_eq_of_alike read codecs (unrolls_simulates r d) pulls alike,
    seen_drain_eq_of_alike read codecs (unrolls_simulates r d) pulls alike⟩

open OneLink in
/-- Two passes over a list with one link: the second does not match, which ends the recursion and
leaves the second of the copies over. Both give the list and what it links to. -/
theorem limited_eq_unrolled_oneLink :
    LawfulMonad (StateM Memory)
      ∧ (⟨[.all], List.cons_ne_nil _ _, none⟩ : Recursion).copies (UInt64.toNat 2)
        = [.pick .all, .pick .all]
      ∧ ((stream Store.memory.get codecs 3
          (ofDocument ⟨outer.cid, [.pick .all, .pick .all]⟩)).run memory).1.map Except.toOption
        = [some outer, some inner]
      ∧ stream Store.memory.get codecs 3
          (ofDocument ⟨outer.cid, [.recursive ⟨[.all], List.cons_ne_nil _ _, some 2⟩]⟩)
        = stream Store.memory.get codecs 3 (ofDocument ⟨outer.cid, [.pick .all, .pick .all]⟩) :=
  ⟨inferInstance, rfl, by cbv,
    (limited_eq_unrolled Store.memory.get codecs outer.cid [] ⟨[.all], List.cons_ne_nil _ _, none⟩
      2 3).1⟩

end Traversal

end BlockWalk
