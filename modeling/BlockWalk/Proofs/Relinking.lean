import BlockWalk.Proofs.InStep
import BlockWalk.Proofs.Replay

/-!
# Traversals of relinked blocks

Blocks may be written anew, with other identifiers in the links and so under other identifiers
themselves. A traversal cannot tell: it goes the same ways, and gives out blocks that correspond.

This is said of any relation `L` between identifiers. Two stores are relinked by it if related
identifiers lead, in the one and in the other, to nodes that are alike but for related links
(`BlockReader.Relinked`).

* `Node.Relinked` — nodes alike but for their links. The same parts of both are selected.
* `Walk.Relinked.step`, `Walk.Relinked.seek` — walks over such nodes move in step.
* `Traversal.Relinked.pull`, `Traversal.Relinked.answers` — pulls give blocks of related
  identifiers, none of them fails, and both traversals end at the same pull with the same
  instructions left over.
* `Traversal.Relinked.ends` — where draining ends, that pull comes.
-/

namespace BlockWalk

variable {L : Cid → Cid → Prop}

/-! ## Nodes -/

/-- Nodes that are alike, except that the links of the one are related to those of the other. -/
inductive Node.Relinked (L : Cid → Cid → Prop) : Node → Node → Prop
  /-- nodes that hold no others, and are no links -/
  | scalar {v : Node} (h : v.kind = .scalar) : Relinked L v v
  /-- lists of relinked items -/
  | list {items items' : List Node} (h : List.Forall₂ (Relinked L) items items') :
      Relinked L (.list items) (.list items')
  /-- maps of the same keys to relinked nodes -/
  | map {entries entries' : List (String × Node)}
      (keys : entries.map Prod.fst = entries'.map Prod.fst)
      (values : List.Forall₂ (Relinked L) (entries.map Prod.snd) (entries'.map Prod.snd)) :
      Relinked L (.map entries) (.map entries')
  /-- related links -/
  | link {χ χ' : Cid} (h : L χ χ') : Relinked L (.link χ) (.link χ')

/-- Of two related options both or neither have something. -/
theorem rel_cases {α β : Type} {R : α → β → Prop} {a : Option α} {b : Option β}
    (h : Option.Rel R a b) : a = none ∧ b = none ∨ ∃ x y, a = some x ∧ b = some y ∧ R x y := by
  cases h with
  | none => exact .inl ⟨rfl, rfl⟩
  | some h => exact .inr ⟨_, _, rfl, rfl, h⟩

/-- Entries of the same keys with related values are found alike. -/
theorem Fields.rel_find? {α β : Type} {R : α → β → Prop} {φ : Fields α} {ψ : Fields β}
    (keys : φ.map Prod.fst = ψ.map Prod.fst)
    (values : List.Forall₂ R (φ.map Prod.snd) (ψ.map Prod.snd)) (k : String) :
    Option.Rel R (φ.find? k) (ψ.find? k) := by
  induction φ generalizing ψ with
  | nil =>
    obtain rfl := List.map_eq_nil_iff.1 keys.symm
    exact .none
  | cons e φ ih =>
    cases ψ with
    | nil => cases keys
    | cons f ψ =>
      obtain ⟨key, keys⟩ := List.cons.inj keys
      obtain ⟨value, values⟩ := List.forall₂_cons.1 values
      rw [find?_cons, find?_cons, key]
      split
      · exact .some value
      · exact ih keys values

theorem rel_getElem? {α β : Type} {R : α → β → Prop} {l : List α} {l' : List β}
    (h : List.Forall₂ R l l') (i : Nat) : Option.Rel R l[i]? l'[i]? := by
  induction h generalizing i with
  | nil => exact .none
  | cons hab _ ih =>
    cases i with
    | zero => exact .some hab
    | succ i => exact ih i

/-- A node that holds no others has no children. -/
theorem Step.apply_of_scalar {v : Node} (h : v.kind = .scalar) (σ : Step) : σ.apply v = none := by
  cases v <;> cases σ <;> first | rfl | cases h

namespace Node.Relinked

variable {v v' : Node}

/-- The same steps lead to children of both. -/
theorem apply (h : v.Relinked L v') (σ : Step) :
    Option.Rel (Node.Relinked L) (σ.apply v) (σ.apply v') := by
  cases h with
  | scalar h =>
    rw [Step.apply_of_scalar h]
    exact .none
  | list h =>
    cases σ with
    | field key => exact .none
    | index place => exact rel_getElem? h place
  | map keys values =>
    cases σ with
    | field key => exact Fields.rel_find? keys values key
    | index place => exact .none
  | link h => cases σ <;> exact .none

/-- Both are lists of one length, or neither is a list. -/
theorem length_asItems? (h : v.Relinked L v') :
    v.asItems?.map List.length = v'.asItems?.map List.length := by
  cases h with
  | list h => exact congrArg some h.length_eq
  | _ => rfl

/-- Both are related links, or neither is a link. -/
theorem asLink? (h : v.Relinked L v') : Option.Rel L v.asLink? v'.asLink? := by
  cases h with
  | link h => exact .some h
  | list => exact .none
  | map => exact .none
  | scalar h =>
    cases v with
    | link χ => cases h
    | _ => exact .none

/-- A single step matches both or neither. -/
theorem single_eq (h : v.Relinked L v') (σ : Step) : Match.single σ v = Match.single σ v' := by
  rw [Match.single, Match.single]
  obtain ⟨hv, hv'⟩ | ⟨w, w', hv, hv', -⟩ := rel_cases (h.apply σ)
  · rw [hv, hv']
  · rw [hv, hv']
    rfl

/-- **The same children of both are selected.** -/
theorem visit_eq (h : v.Relinked L v') (p : Pick) : p.visit v = p.visit v' := by
  cases p with
  | field key => exact h.single_eq _
  | position place => exact h.single_eq _
  | all =>
    have length := h.length_asItems?
    simp only [Pick.visit]
    cases hv : v.asItems? <;> cases hv' : v'.asItems? <;> simp_all
  | slice start stop =>
    have length := h.length_asItems?
    simp only [Pick.visit, Node.sliceRange?]
    cases hv : v.asItems? <;> cases hv' : v'.asItems? <;> simp_all

end Node.Relinked

/-! ## Places and tasks -/

/-- The same place in relinked blocks. -/
structure Focus.Relinked (L : Cid → Cid → Prop) (f f' : Focus) : Prop where
  root : f.root.Relinked L f'.root
  path : f.path = f'.path

/-- The same scope, around relinked starts. -/
structure Scope.Relinked (L : Cid → Cid → Prop) (s s' : Scope) : Prop where
  recursion : s.recursion = s'.recursion
  passes : s.passes = s'.passes
  after : s.after = s'.after
  start : Option.Rel (Focus.Relinked L) s.start s'.start

/-- The same rest of a program, or of a pass. -/
inductive Task.Relinked (L : Cid → Cid → Prop) : Task → Task → Prop
  /-- the rest of the document's program -/
  | top (program : Program Selector) : Relinked L (.top program) (.top program)
  /-- the rest of a pass -/
  | pass (picks : Program Pick) {s s' : Scope} (h : s.Relinked L s') :
      Relinked L (.pass picks s) (.pass picks s')

/-- The same task at the same place. -/
structure Cursor.Relinked (L : Cid → Cid → Prop) (c c' : Cursor) : Prop where
  focus : c.focus.Relinked L c'.focus
  task : c.task.Relinked L c'.task

/-- What the same instruction does at the same place. -/
inductive Advance.Relinked (L : Cid → Cid → Prop) : Advance → Advance → Prop
  /-- both branches end -/
  | exhausted (rest : List Selector) : Relinked L (.exhausted rest) (.exhausted rest)
  /-- both go on at a node that was reached before -/
  | stay {c c' : Cursor} (h : c.Relinked L c') : Relinked L (.stay c) (.stay c')
  /-- both go to children -/
  | children (m : Match) {task task' : Task} (h : task.Relinked L task') :
      Relinked L (.children m task) (.children m task')

namespace Focus.Relinked

variable {f f' : Focus}

theorem node? (h : f.Relinked L f') : Option.Rel (Node.Relinked L) f.node? f'.node? := by
  obtain ⟨v, path⟩ := f
  obtain ⟨v', _⟩ := f'
  obtain ⟨root, rfl⟩ := h
  simp only [Focus.node?]
  induction path generalizing v v' with
  | nil => exact .some root
  | cons σ path ih =>
    rw [List.foldlM_cons, List.foldlM_cons]
    obtain ⟨hv, hv'⟩ | ⟨w, w', hv, hv', hw⟩ := rel_cases (root.apply σ)
    · rw [hv, hv']
      exact .none
    · rw [hv, hv']
      exact ih w w' hw

theorem node (h : f.Relinked L f') : f.node.Relinked L f'.node := by
  rw [Focus.node, Focus.node]
  obtain ⟨hv, hv'⟩ | ⟨v, v', hv, hv', hrel⟩ := rel_cases h.node?
  · rw [hv, hv']
    exact .scalar rfl
  · rw [hv, hv']
    exact hrel

theorem child (h : f.Relinked L f') (σ : Step) : (f.child σ).Relinked L (f'.child σ) :=
  ⟨h.root, congrArg (· ++ [σ]) h.path⟩

end Focus.Relinked

theorem Task.Relinked.forSiblings {t t' : Task} (h : t.Relinked L t') :
    t.forSiblings.Relinked L t'.forSiblings := by
  cases h with
  | top program => exact .top program
  | pass picks h => exact .pass picks ⟨h.recursion, h.passes, h.after, .none⟩

/-! ## Instructions -/

namespace Scope.Relinked

variable {s s' : Scope} {f f' : Focus}

theorem newPass (h : s.Relinked L s') (hf : f.Relinked L f') :
    (s.newPass f).Relinked L (s'.newPass f') := by
  obtain ⟨recursion, passes, after, start⟩ := s
  obtain ⟨_, _, _, start'⟩ := s'
  obtain ⟨rfl, rfl, rfl, -⟩ := h
  exact ⟨hf, .pass _ ⟨rfl, rfl, rfl, .some hf⟩⟩

theorem endOfPass (h : s.Relinked L s') (hf : f.Relinked L f') :
    (s.endOfPass f).Relinked L (s'.endOfPass f') := by
  rw [Scope.endOfPass, Scope.endOfPass, h.passes]
  split
  · exact ⟨hf, h.after ▸ .top _⟩
  · exact newPass ⟨h.recursion, rfl, h.after, h.start⟩ hf

theorem halt (h : s.Relinked L s') : s.halt.Relinked L s'.halt := by
  rw [Scope.halt, Scope.halt, h.after]
  obtain ⟨hs, hs'⟩ | ⟨f, f', hs, hs', hf⟩ := rel_cases h.start
  · rw [hs, hs']
    exact .exhausted _
  · rw [hs, hs']
    exact .stay ⟨hf, .top _⟩

end Scope.Relinked

/-- The first pass of a recursion starts at the same place. -/
theorem Recursion.relinked_enter (r : Recursion) {f f' : Focus} (hf : f.Relinked L f')
    (after : Program Selector) : (r.enter f after).Relinked L (r.enter f' after) := by
  rw [enter, enter]
  split
  · exact .exhausted _
  · exact .stay (Scope.Relinked.newPass ⟨rfl, rfl, rfl, .none⟩ hf)

/-- **The same instruction does the same.** -/
theorem Cursor.Relinked.advance {c c' : Cursor} (h : c.Relinked L c') :
    c.advance.Relinked L c'.advance := by
  obtain ⟨f, task⟩ := c
  obtain ⟨f', task'⟩ := c'
  obtain ⟨hf, ht⟩ := h
  cases ht with
  | top program =>
    cases hn : program.next? with
    | none =>
      simp only [Cursor.advance, hn]
      exact .exhausted _
    | some q =>
      obtain ⟨i, after⟩ := q
      cases i with
      | recursive r =>
        rw [advance_recursive hn, advance_recursive hn]
        exact r.relinked_enter hf after
      | pick p =>
        rw [advance_pick hn, advance_pick hn, hf.node.visit_eq]
        cases p.visit f'.node with
        | some m => exact .children m (.top after)
        | none => exact .exhausted _
  | pass picks hs =>
    cases hn : picks.next? with
    | none =>
      simp only [Cursor.advance, hn]
      exact .stay (hs.endOfPass hf)
    | some q =>
      obtain ⟨p, rest⟩ := q
      rw [advance_pass hn, advance_pass hn, hf.node.visit_eq]
      cases p.visit f'.node with
      | some m => exact .children m (.pass rest hs)
      | none => exact hs.halt

/-! ## Walks -/

/-- The same siblings, at the same place. -/
structure Frame.Relinked (L : Cid → Cid → Prop) (φ φ' : Frame) : Prop where
  parent : φ.parent.Relinked L φ'.parent
  siblings : φ.siblings = φ'.siblings
  task : φ.task.Relinked L φ'.task

/-- The same siblings wait. -/
abbrev Waiting (L : Cid → Cid → Prop) : List Frame → List Frame → Prop :=
  List.Forall₂ (Frame.Relinked L)

/-- Walks at the same place, with the same siblings waiting. -/
inductive Walk.Relinked (L : Cid → Cid → Prop) : Walk → Walk → Prop
  /-- at the same cursor -/
  | running {c c' : Cursor} {stack stack' : List Frame} (h : c.Relinked L c')
      (waiting : Waiting L stack stack') : Relinked L (.running c stack) (.running c' stack')
  /-- after a branch, with the same instructions left over -/
  | exhausted (rest : List Selector) {stack stack' : List Frame}
      (waiting : Waiting L stack stack') :
      Relinked L (.exhausted rest stack) (.exhausted rest stack')

/-- Landings at related blocks, or both at the end with the same instructions left over. -/
inductive Landing.Relinked (L : Cid → Cid → Prop) : Landing → Landing → Prop
  /-- at a block -/
  | block {χ χ' : Cid} {task task' : Task} {stack stack' : List Frame} (link : L χ χ')
      (h : task.Relinked L task') (waiting : Waiting L stack stack') :
      Relinked L (.block χ task stack) (.block χ' task' stack')
  /-- at the end -/
  | ended (rest : List Selector) : Relinked L (.ended rest) (.ended rest)

namespace Walk

theorem relinked_defer {f f' : Focus} (hf : f.Relinked L f') (siblings : List Step)
    {task task' : Task} (ht : task.Relinked L task') {stack stack' : List Frame}
    (waiting : Waiting L stack stack') :
    Waiting L (defer f siblings task stack) (defer f' siblings task' stack') := by
  rw [defer, defer]
  split
  · exact waiting
  · exact .cons ⟨hf, rfl, ht⟩ waiting

theorem relinked_arrive {f f' : Focus} (hf : f.Relinked L f') {task task' : Task}
    (ht : task.Relinked L task') {stack stack' : List Frame} (waiting : Waiting L stack stack') :
    Sum.LiftRel (Walk.Relinked L) (Landing.Relinked L) (arrive f task stack)
      (arrive f' task' stack') := by
  rw [arrive, arrive]
  obtain ⟨hl, hl'⟩ | ⟨χ, χ', hl, hl', link⟩ := rel_cases hf.node.asLink?
  · rw [hl, hl']
    exact .inl (.running ⟨hf, ht⟩ waiting)
  · rw [hl, hl']
    exact .inr (.block link ht waiting)

/-- **Relinked walks move in step.** -/
theorem Relinked.step {w w' : Walk} (h : w.Relinked L w') :
    Sum.LiftRel (Walk.Relinked L) (Landing.Relinked L) w.step w'.step := by
  cases h with
  | @running c c' stack stack' hc waiting =>
    have related := hc.advance
    generalize ha : c.advance = a at related
    generalize ha' : c'.advance = a' at related
    rw [step_running ha, step_running ha']
    cases related with
    | exhausted rest => exact .inl (.exhausted rest waiting)
    | stay h => exact .inl (.running h waiting)
    | children m ht =>
      exact relinked_arrive (hc.focus.child m.next) ht
        (relinked_defer hc.focus m.siblings ht.forSiblings waiting)
  | exhausted rest waiting =>
    cases waiting with
    | nil => exact .inr (.ended rest)
    | @cons φ φ' stack stack' hφ waiting =>
      obtain ⟨parent, siblings, task⟩ := φ
      obtain ⟨parent', _, task'⟩ := φ'
      obtain ⟨hf, rfl, ht⟩ := hφ
      cases siblings with
      | nil => exact .inl (.exhausted rest waiting)
      | cons σ later =>
        exact relinked_arrive (hf.child σ) ht (relinked_defer hf later ht waiting)

/-- **The searches of relinked walks come to related landings.** -/
theorem Relinked.seek {w w' : Walk} (h : w.Relinked L w') : w.seek.Relinked L w'.seek := by
  fun_induction Walk.seek w generalizing w' with
  | case1 w v hs ih =>
    have moved := h.step
    rw [hs] at moved
    generalize hs' : w'.step = m at moved
    cases moved with
    | inl hv =>
      rw [seek_of_inl hs']
      exact ih hv
  | case2 w landing hs =>
    have moved := h.step
    rw [hs] at moved
    generalize hs' : w'.step = m at moved
    cases moved with
    | inr hl =>
      rw [seek_of_inr hs']
      exact hl

end Walk

/-! ## Traversals -/

/-- Two stores lead from related identifiers to blocks of these identifiers, and to relinked nodes
in them. -/
def BlockReader.Relinked (L : Cid → Cid → Prop) (codecs : Registry) (f f' : BlockReader Id) :
    Prop :=
  ∀ χ χ', L χ χ' → ∃ b b' v v', f χ = .ok (some b) ∧ f' χ' = .ok (some b')
    ∧ b.cid = χ ∧ b'.cid = χ' ∧ codecs.decode b = .ok v ∧ codecs.decode b' = .ok v'
    ∧ v.Relinked L v'

namespace Traversal

/-- Traversals of the same program, as far over relinked blocks. -/
inductive Relinked (L : Cid → Cid → Prop) : Traversal → Traversal → Prop
  /-- before the first block -/
  | fresh {root root' : Cid} (link : L root root') (program : List Selector) {n n' : Nat} :
      Relinked L ⟨root, .fresh program, n⟩ ⟨root', .fresh program, n'⟩
  /-- on the way -/
  | underway {root root' : Cid} {c c' : Cursor} {stack stack' : List Frame} (h : c.Relinked L c')
      (waiting : Waiting L stack stack') {n n' : Nat} :
      Relinked L ⟨root, .underway c stack, n⟩ ⟨root', .underway c' stack', n'⟩
  /-- at the end -/
  | done {root root' : Cid} (ρ : Resolution) {n n' : Nat} :
      Relinked L ⟨root, .done ρ, n⟩ ⟨root', .done ρ, n'⟩

/-- A pull of both gave blocks of related identifiers, or both have ended alike. -/
inductive Pulled (L : Cid → Cid → Prop) : Except TraversalError (Option Block) × Traversal →
    Except TraversalError (Option Block) × Traversal → Prop
  /-- blocks, and the traversals go on -/
  | block {b b' : Block} {u u' : Traversal} (link : L b.cid b'.cid) (next : u.Relinked L u') :
      Pulled L (.ok (some b), u) (.ok (some b'), u')
  /-- the end -/
  | ended {root root' : Cid} (ρ : Resolution) {n n' : Nat} :
      Pulled L (.ok none, ⟨root, .done ρ, n⟩) (.ok none, ⟨root', .done ρ, n'⟩)

/-- Relinked traversals have ended alike, or neither has. -/
theorem Relinked.resolution?_eq {t t' : Traversal} (h : t.Relinked L t') :
    t.resolution? = t'.resolution? := by
  cases h <;> rfl

variable {codecs : Registry} {f f' : BlockReader Id}

/-- Where related blocks are needed, they are given. -/
theorem pulled_block (hf : BlockReader.Relinked L codecs f f') {t t' : Traversal} {χ χ' : Cid}
    {task task' : Task} {stack stack' : List Frame} (hd : t.demand = .block χ task stack)
    (hd' : t'.demand = .block χ' task' stack') (link : L χ χ') (ht : task.Relinked L task')
    (waiting : Waiting L stack stack') : Pulled L (t.pull f codecs) (t'.pull f' codecs) := by
  obtain ⟨b, b', v, v', hb, hb', rfl, rfl, hv, hv', related⟩ := hf χ χ' link
  rw [pull_of_block codecs f hd, pull_of_block codecs f' hd', opened_eq_ok_iff.2 ⟨hb, hv⟩,
    opened_eq_ok_iff.2 ⟨hb', hv'⟩]
  have entered : Cursor.Relinked L ⟨.block v, task⟩ ⟨.block v', task'⟩ := ⟨⟨related, rfl⟩, ht⟩
  exact .block link (.underway entered waiting)

/-- **Pulls of relinked traversals** give related blocks or find the same end, and none fails. -/
theorem Relinked.pull (hf : BlockReader.Relinked L codecs f f') {t t' : Traversal}
    (h : t.Relinked L t') : Pulled L (t.pull f codecs) (t'.pull f' codecs) := by
  cases h with
  | fresh link program => exact pulled_block hf rfl rfl link (.top _) .nil
  | done ρ => exact .ended ρ
  | @underway root root' c c' stack stack' hc waiting n n' =>
    have landed := (Walk.Relinked.running hc waiting).seek
    generalize hl : (Walk.running c stack).seek = l at landed
    generalize hl' : (Walk.running c' stack').seek = l' at landed
    cases landed with
    | block link ht waiting =>
      exact pulled_block hf (by simp only [demand, hl]) (by simp only [demand, hl']) link ht waiting
    | ended rest =>
      rw [pull_eq_of_nothing f codecs (u := ⟨root, .done (.ofRest rest), n⟩)
          (by simp only [demand, hl]),
        pull_eq_of_nothing f' codecs (u := ⟨root', .done (.ofRest rest), n'⟩)
          (by simp only [demand, hl'])]
      exact .ended _

/-- Neither answer is an error, and blocks have related identifiers. -/
def AnswersRelinked (L : Cid → Cid → Prop) (a a' : Except TraversalError (Option Block)) : Prop :=
  ∃ b b', a = .ok b ∧ a' = .ok b' ∧ Option.Rel (fun b b' => L b.cid b'.cid) b b'

/-- **Any number of pulls of relinked traversals** give related blocks, none of them fails, and they
leave the traversals relinked. -/
theorem Relinked.answers (hf : BlockReader.Relinked L codecs f f') {t t' : Traversal}
    (h : t.Relinked L t') (n : Nat) :
    List.Forall₂ (AnswersRelinked L) (answers f codecs n t).1 (answers f' codecs n t').1
      ∧ Relinked L (answers f codecs n t).2 (answers f' codecs n t').2 := by
  induction n generalizing t t' with
  | zero => exact ⟨.nil, h⟩
  | succ n ih =>
    rw [answers_succ, answers_succ]
    have pulled := h.pull hf
    generalize t.pull f codecs = p at pulled
    generalize t'.pull f' codecs = p' at pulled
    cases pulled with
    | block link next =>
      obtain ⟨rest, later⟩ := ih next
      exact ⟨.cons ⟨_, _, rfl, rfl, .some link⟩ rest, later⟩
    | ended ρ =>
      obtain ⟨rest, later⟩ := ih (.done ρ)
      exact ⟨.cons ⟨_, _, rfl, rfl, .none⟩ rest, later⟩

/-- The blocks that were given have related identifiers. -/
theorem forall₂_given {as as' : List (Except TraversalError (Option Block))}
    (h : List.Forall₂ (AnswersRelinked L) as as') :
    List.Forall₂ (fun b b' => L b.cid b'.cid) (given as) (given as') := by
  induction h with
  | nil => exact .nil
  | cons first rest ih =>
    obtain ⟨b, b', rfl, rfl, related⟩ := first
    cases related with
    | none => exact ih
    | some link => exact .cons link ih

/-- Where draining ends, the pulls come to an end without an error. -/
theorem Relinked.ends (hf : BlockReader.Relinked L codecs f f') {S : Type}
    {read : BlockReader (StateM S)} {s s' : S} (hread : read.Answers s f) {t t' : Traversal}
    (h : t.Relinked L t') {pulls : Nat} {before : List Block} {sel : Selection}
    (hd : (drainFrom read codecs pulls before t).run s = (some sel, s')) :
    ∃ n ρ, (Traversal.answers f codecs n t).2.resolution? = some ρ := by
  induction pulls generalizing before t t' s with
  | zero => cases congrArg Prod.fst hd
  | succ pulls ih =>
    obtain ⟨hp, hs⟩ := pull_of_answers codecs hread t
    rw [run_drainFrom_succ] at hd
    have pulled := h.pull hf
    rw [← hp] at pulled
    rcases hq : (t.pull read codecs).run s with ⟨q, s₁⟩
    rw [hq] at hd hp hs pulled
    generalize t'.pull f' codecs = q' at pulled
    dsimp only at hp pulled
    cases pulled with
    | block link next =>
      obtain ⟨n, ρ, hn⟩ := ih hs next hd
      refine ⟨n + 1, ρ, ?_⟩
      rw [answers_succ, ← hp]
      exact hn
    | ended ρ =>
      refine ⟨1, ρ, ?_⟩
      rw [answers_succ, ← hp]
      rfl

end Traversal

end BlockWalk
