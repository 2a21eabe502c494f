import BlockWalk.Proofs.Runs

/-!
# What walks keep

A property of all states that a traversal comes to, whatever the store does, is shown in two parts.

* `Kept` — what a property of cursors, of frames and of what is left over has to satisfy: it is kept
  by what instructions do, and by the siblings that are resumed. Then it is kept by every move of a
  walk (`Walk.Holds.step`), and so on all ways and up to the landing.
* `Traversal.Meets` — the walks that the next pull leads through. What is kept by moves and holds at
  the root of every block that is read holds of all of them, after any number of pulls, and of what
  is left over at the end (`Traversal.holds_record`).
-/

namespace BlockWalk

/-! ## What moves keep -/

section

variable (known : Node → Prop) (C : Cursor → Prop) (F : Frame → Prop) (L : List Selector → Prop)

/-- A cursor that comes to `f` has the property, in the same block or at the root of another one
that is known. -/
structure Arrival (f : Focus) (task : Task) : Prop where
  /-- where the walk goes on in the same block -/
  inside : f.node.asLink? = none → C ⟨f, task⟩
  /-- where it goes on in another block -/
  opened : ∀ v, known v → C ⟨.block v, task⟩

/-- A property `C` of cursors, `F` of frames and `L` of what is left over that moves keep. -/
structure Kept : Prop where
  /-- a cursor goes on at a node that was reached before -/
  stay : ∀ c d, C c → c.Does (.stay d) → C d
  /-- a branch ends -/
  ended : ∀ c rest, C c → c.Does (.exhausted rest) → L rest
  /-- a cursor goes on at a child, and the siblings wait if there are any -/
  child : ∀ c m task, C c → c.Does (.children m task) →
    Arrival known C (c.focus.child m.next) task
      ∧ (m.siblings ≠ [] → F ⟨c.focus, m.siblings, task.forSiblings⟩)
  /-- the first sibling is resumed, and the others wait if there are any -/
  sibling : ∀ f σ later task, F ⟨f, σ :: later, task⟩ →
    Arrival known C (f.child σ) task ∧ (later ≠ [] → F ⟨f, later, task⟩)

/-- Where the running pass began, if it has a beginning. -/
def Task.start? : Task → Option Focus
  | top _ => none
  | pass _ scope => scope.start

theorem Task.start?_forSiblings (task : Task) : task.forSiblings.start? = none := by
  cases task <;> rfl

/-- Where the walk is, unless a branch has just ended. -/
def Walk.cursor? : Walk → Option Cursor
  | running c _ => some c
  | exhausted _ _ => none

/-- The siblings that wait. -/
def Walk.stack : Walk → List Frame
  | running _ stack => stack
  | exhausted _ stack => stack

/-- What was left over on a branch that has just ended. -/
def Walk.leftover? : Walk → Option (List Selector)
  | running _ _ => none
  | exhausted rest _ => some rest

/-- The cursor, the frames and what is left over have the property. -/
def Walk.Holds : Walk → Prop
  | running c stack => C c ∧ ∀ φ ∈ stack, F φ
  | exhausted rest stack => L rest ∧ ∀ φ ∈ stack, F φ

/-- The frames have the property, and what is left over or a cursor at the root of the block. -/
def Landing.Holds : Landing → Prop
  | block _ task stack => (∀ v, known v → C ⟨.block v, task⟩) ∧ ∀ φ ∈ stack, F φ
  | ended rest => L rest

end

/-- One move leads from the first walk to the second. -/
def Walk.MovesTo (w v : Walk) : Prop := w.step = .inl v

section

variable {known : Node → Prop} {C : Cursor → Prop} {F : Frame → Prop} {L : List Selector → Prop}

namespace Walk

theorem Holds.cursor {w : Walk} (h : w.Holds C F L) : ∀ c ∈ w.cursor?, C c := by
  cases w with
  | running c stack =>
    rintro _ ⟨⟩
    exact h.1
  | exhausted rest stack => exact nofun

theorem Holds.stack {w : Walk} (h : w.Holds C F L) : ∀ φ ∈ w.stack, F φ := by
  cases w <;> exact h.2

theorem Holds.leftover {w : Walk} (h : w.Holds C F L) : ∀ rest ∈ w.leftover?, L rest := by
  cases w with
  | running c stack => exact nofun
  | exhausted rest stack =>
    rintro _ ⟨⟩
    exact h.1

theorem forall_mem_defer {parent : Focus} {siblings : List Step} {task : Task}
    {stack : List Frame} (waiting : ∀ φ ∈ stack, F φ)
    (h : siblings ≠ [] → F ⟨parent, siblings, task⟩) :
    ∀ φ ∈ defer parent siblings task stack, F φ := by
  unfold defer
  split
  · exact waiting
  · next hs =>
    have some : siblings ≠ [] := by simpa using hs
    exact List.forall_mem_cons.2 ⟨h some, waiting⟩

/-- What is reached by a move. -/
def Reaches (P : Walk → Prop) (Q : Landing → Prop) : Walk ⊕ Landing → Prop
  | .inl v => P v
  | .inr landing => Q landing

theorem reaches_arrive {f : Focus} {task : Task} {stack : List Frame}
    (arrival : Arrival known C f task) (waiting : ∀ φ ∈ stack, F φ) :
    Reaches (Holds C F L) (Landing.Holds known C F L) (arrive f task stack) := by
  unfold arrive
  split
  · exact ⟨arrival.opened, waiting⟩
  · next hlink => exact ⟨arrival.inside hlink, waiting⟩

/-- **What is kept is kept by every move.** -/
theorem Holds.step (kept : Kept known C F L) {w : Walk} (h : w.Holds C F L) :
    Reaches (Holds C F L) (Landing.Holds known C F L) w.step := by
  cases w with
  | running c stack =>
    obtain ⟨hc, waiting⟩ := h
    simp only [Walk.step]
    split
    · next rest ha => exact ⟨kept.ended c rest hc (Cursor.does_of_advance ha), waiting⟩
    · next d ha => exact ⟨kept.stay c d hc (Cursor.does_of_advance ha), waiting⟩
    · next m task ha =>
      obtain ⟨arrival, siblings⟩ := kept.child c m task hc (Cursor.does_of_advance ha)
      exact reaches_arrive arrival (forall_mem_defer waiting siblings)
  | exhausted rest stack =>
    cases stack with
    | nil => exact h.1
    | cons φ stack =>
      obtain ⟨hrest, hφ, waiting⟩ := And.imp_right List.forall_mem_cons.1 h
      obtain ⟨parent, siblings, task⟩ := φ
      cases siblings with
      | nil => exact ⟨hrest, waiting⟩
      | cons σ later =>
        obtain ⟨arrival, others⟩ := kept.sibling parent σ later task hφ
        exact reaches_arrive arrival (forall_mem_defer waiting others)

/-- What is kept is kept on the way. -/
theorem Holds.moves (kept : Kept known C F L) {w v : Walk} (h : w.Holds C F L)
    (way : Relation.ReflTransGen MovesTo w v) : v.Holds C F L := by
  induction way with
  | refl => exact h
  | tail _ move ih =>
    have next := ih.step kept
    rw [move] at next
    exact next

/-- What is kept is kept up to the landing. -/
theorem Holds.seek (kept : Kept known C F L) {w : Walk} (h : w.Holds C F L) :
    w.seek.Holds known C F L := by
  fun_induction Walk.seek w with
  | case1 w v hs ih =>
    have next := h.step kept
    rw [hs] at next
    exact ih next
  | case2 w landing hs =>
    have next := h.step kept
    rw [hs] at next
    exact next

end Walk

end

/-! ## States of a traversal -/

namespace Traversal

/-- The next pull of the traversal leads through the walk. -/
def Meets (t : Traversal) (w : Walk) : Prop :=
  ∃ c stack, t.phase = .underway c stack ∧ Relation.ReflTransGen Walk.MovesTo (.running c stack) w

section

variable (known : Node → Prop) (C : Cursor → Prop) (F : Frame → Prop) (L : List Selector → Prop)

/-- The walk of a traversal has the property, where it starts, where it goes on or where it
ended. -/
def Holds (t : Traversal) : Prop :=
  match t.phase with
  | .fresh program => ∀ v, known v → C ⟨.block v, .top (.start program)⟩
  | .underway c stack => (Walk.running c stack).Holds C F L
  | .done ρ => ∃ rest, L rest ∧ ρ = .ofRest rest
  | .failed => True

end

section

variable {known : Node → Prop} {C : Cursor → Prop} {F : Frame → Prop} {L : List Selector → Prop}
  {t u : Traversal}

/-- What is kept is kept by a pull that needs no block. -/
theorem Holds.nothing (kept : Kept known C F L) (h : t.Holds known C F L)
    (hd : t.demand = .nothing u) : u.Holds known C F L := by
  obtain ⟨rest, ⟨c, stack, hp, hs⟩, rfl⟩ | ⟨-, rfl⟩ := endsWith_or_stopped hd
  · rw [Holds, hp] at h
    have landing := h.seek kept
    rw [hs] at landing
    exact ⟨rest, landing, rfl⟩
  · exact h

/-- What is kept is kept by a pull that goes on at the root of a block that is known. -/
theorem Holds.entered (kept : Kept known C F L) (h : t.Holds known C F L) {χ : Cid} {task : Task}
    {stack : List Frame} (hd : t.demand = .block χ task stack) {v : Node} (hv : known v) :
    (t.entered v task stack).Holds known C F L := by
  obtain ⟨root, phase, emitted⟩ := t
  cases phase with
  | fresh program =>
    obtain ⟨-, rfl, rfl⟩ := Demand.block.inj hd
    exact ⟨h v hv, fun φ hφ => nomatch hφ⟩
  | underway c stack' =>
    rw [Holds] at h
    have landing := h.seek kept
    simp only [demand] at hd
    split at hd
    · next hs =>
      obtain ⟨-, rfl, rfl⟩ := Demand.block.inj hd
      rw [hs] at landing
      exact ⟨landing.1 v hv, landing.2⟩
    · cases hd
  | done ρ => cases hd
  | failed => cases hd

/-- What is kept holds of every walk that the next pull leads through. -/
theorem Holds.meets (kept : Kept known C F L) (h : t.Holds known C F L) {w : Walk}
    (hw : t.Meets w) : w.Holds C F L := by
  obtain ⟨c, stack, hp, way⟩ := hw
  rw [Holds, hp] at h
  exact h.moves kept way

end

section

variable {S : Type} (read : BlockReader (StateM S)) (codecs : Registry) (d : Document) (s : S)

/-- The node is the root of a block that was given out by the first `n` pulls of a document. -/
def Opened (n : Nat) (v : Node) : Prop :=
  ∃ b ∈ given (record read codecs d s n).answers, codecs.decode b = .ok v

variable {read codecs d s}

theorem Opened.succ {n : Nat} {v : Node} (h : Opened read codecs d s n v) :
    Opened read codecs d s (n + 1) v := by
  obtain ⟨b, hb, hv⟩ := h
  obtain ⟨χs, a, u, -, hr⟩ := record_succ read codecs d s n
  refine ⟨b, ?_, hv⟩
  rw [hr, given_append]
  exact List.mem_append_left _ hb

theorem record_succ_of_nothing {n : Nat} {u : Traversal}
    (hd : (record read codecs d s n).traversal.demand = .nothing u) :
    (record read codecs d s (n + 1)).traversal = u := by
  rw [record, run_answers_snoc, run_logged]
  dsimp only
  rw [run_pull_of_nothing _ _ hd]

/-- A pull that needs a block fails, or goes on at the root of a block that it gives out. -/
theorem record_succ_of_block {n : Nat} {χ : Cid} {task : Task} {stack : List Frame}
    (hd : (record read codecs d s n).traversal.demand = .block χ task stack) :
    (record read codecs d s (n + 1)).traversal = (record read codecs d s n).traversal.broken ∨
      ∃ v, Opened read codecs d s (n + 1) v ∧ (record read codecs d s (n + 1)).traversal
        = (record read codecs d s n).traversal.entered v task stack := by
  simp only [Opened]
  rw [record, run_answers_snoc, run_logged]
  dsimp only
  rw [run_pull_of_block _ _ hd, run_load]
  rcases ho : opened codecs χ _ with ε | ⟨b, v⟩
  · exact .inl rfl
  · refine .inr ⟨v, ⟨b, ?_, (opened_eq_ok_iff.1 ho).2⟩, rfl⟩
    rw [given_append]
    exact List.mem_append_right _ List.mem_cons_self

variable {known : Node → Prop} {C : Cursor → Prop} {F : Frame → Prop} {L : List Selector → Prop}

/-- **What is kept holds after any number of pulls**, if it holds of the document's program at the
root of every block that is known, and all blocks given out are known. -/
theorem holds_record (kept : Kept known C F L)
    (start : ∀ v, known v → C ⟨.block v, .top (.start d.program)⟩) (n : Nat)
    (all : ∀ v, Opened read codecs d s n v → known v) :
    (record read codecs d s n).traversal.Holds known C F L := by
  induction n with
  | zero => exact start
  | succ n ih =>
    have before := ih fun v hv => all v hv.succ
    cases hd : (record read codecs d s n).traversal.demand with
    | nothing u =>
      rw [record_succ_of_nothing hd]
      exact before.nothing kept hd
    | block χ task stack =>
      obtain hb | ⟨v, hv, he⟩ := record_succ_of_block hd
      · rw [hb]
        exact trivial
      · rw [he]
        exact before.entered kept hd (all v hv)

end

end Traversal

/-! ## A list in a list -/

namespace ListOfLists

/-- A list whose first item is a list. -/
def root : Node := .list [.list [.null], .null]

/-- The codec that takes all bytes as that list. -/
def codecs : Registry := ⟨[⟨⟨0⟩, fun _ => .ok root, fun _ => .ok []⟩]⟩

/-- The block of the list. -/
def memory : Memory := ⟨[OneLink.outer]⟩

/-- The items of items, in two passes. -/
def twice : Recursion := ⟨[.slice 0 none], List.cons_ne_nil _ _, some 2⟩

/-- Two passes over the list. -/
def document : Document := ⟨OneLink.outer.cid, [.recursive twice]⟩

/-- The recursion of both passes, and the first of them. -/
def scope : Scope := ⟨twice, some 2, ⟨[.recursive twice], []⟩, some (.block root)⟩

/-- The first pass has come to the first item, and the other one waits. -/
def walk : Walk :=
  .running ⟨⟨root, [.index 0]⟩, .pass ⟨[.slice 0 none], []⟩ scope⟩
    [⟨.block root, [.index 1], .pass ⟨[.slice 0 none], []⟩ { scope with start := none }⟩]

open Traversal in
/-- The second pull comes there. -/
theorem meets : (record Store.memory.get codecs document memory 1).traversal.Meets walk := by
  let start : Cursor := ⟨.block root, .top (.start document.program)⟩
  let pass : Cursor := scope.newPass (.block root)
  have first : Walk.MovesTo (.running start []) (.running pass []) := rfl
  have second : Walk.MovesTo (.running pass []) walk := rfl
  exact ⟨start, [], by cbv, .tail (.single first) second⟩

end ListOfLists

end BlockWalk
