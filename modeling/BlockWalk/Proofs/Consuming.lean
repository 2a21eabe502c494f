import BlockWalk.Proofs.Runs

/-!
# Ways to consume a traversal

A traversal can be pulled by hand, and at any point what is left can be had as blocks that come one
by one, as a stream, or all at once. Whatever is chosen, the same blocks come in the same order, and
then the same error if there was one (`Traversal.consumers_agree`).

* `Traversal.Fused` — the shape of a list of answers: blocks, then at most one error, then nothing.
* `Traversal.items` — what answers look like to one who takes blocks and errors as they come.
* `Traversal.report` — what answers look like to one who drains.

What draining reports of the ending is a different matter. It looks at the traversal only when no
more blocks come, and a traversal that failed before it was drained looks there as if it were
resolved. So the report is right exactly if no pull by hand has failed
(`Traversal.drain_truthful_iff`).
-/

namespace BlockWalk.Traversal

/-! ## The shape of answers -/

/-- After the blocks there is nothing but at most one error. -/
inductive Fused : List Answer → Prop
  /-- no pull was made -/
  | going : Fused []
  /-- a block was given out, and the others came after it -/
  | block (b : Block) {as : List Answer} (rest : Fused as) : Fused (.ok (some b) :: as)
  /-- there was no block any more -/
  | ended (n : Nat) : Fused (.ok none :: .replicate n (.ok none))
  /-- a block could not be had -/
  | failed (ε : TraversalError) (n : Nat) : Fused (.error ε :: .replicate n (.ok none))

/-- An answer as an item: a block or an error. -/
def item : Answer → Option (Except TraversalError Block)
  | .ok none => none
  | .ok (some b) => some (.ok b)
  | .error ε => some (.error ε)

/-- The blocks and errors among answers, in order. -/
def items (as : List Answer) : List (Except TraversalError Block) := as.filterMap item

theorem items_append (as as' : List Answer) : items (as ++ as') = items as ++ items as' :=
  List.filterMap_append

theorem items_block (b : Block) (as : List Answer) :
    items (.ok (some b) :: as) = .ok b :: items as := rfl

theorem items_replicate (n : Nat) : items (.replicate n (.ok none)) = [] := by
  induction n with
  | zero => rfl
  | succ n ih => exact ih

theorem items_ended (n : Nat) : items (.ok none :: .replicate n (.ok none)) = [] :=
  items_replicate n

theorem items_failed (ε : TraversalError) (n : Nat) :
    items (.error ε :: .replicate n (.ok none)) = [.error ε] := by
  have error : item (.error ε) = some (.error ε) := rfl
  rw [items, List.filterMap_cons_some error]
  exact congrArg (_ :: ·) (items_replicate n)

/-- The items of a selection: its blocks, and the error if that is how it ended. -/
def Selection.items (sel : Selection) : List (Except TraversalError Block) :=
  sel.blocks.map .ok ++
    match sel.outcome with
    | .ok _ => []
    | .error ε => [.error ε]

/-- The selection that has some blocks before those of `sel`; they are given last first. -/
def Selection.after (before : List Block) (sel : Selection) : Selection :=
  ⟨before.reverse ++ sel.blocks, sel.outcome⟩

theorem Selection.after_after (before : List Block) (b : Block) :
    Selection.after before ∘ Selection.after [b] = Selection.after (b :: before) := by
  funext sel
  simp [after]

theorem Selection.after_nil : Selection.after [] = id := rfl

/-- The selection that answers amount to if the traversal is `t` after them. None if all of them are
blocks. -/
def report : List Answer → Traversal → Option Selection
  | [], _ => none
  | .ok (some b) :: as, t => (report as t).map (.after [b])
  | .ok none :: _, t => some ⟨[], .ok t.ending⟩
  | .error ε :: _, _ => some ⟨[], .error ε⟩

/-- An error is the last item. -/
theorem Fused.error_last {as : List Answer} (h : Fused as) {ε : TraversalError} {i : Nat}
    (hi : (items as)[i]? = some (.error ε)) : i + 1 = (items as).length := by
  induction h generalizing i with
  | going => cases hi
  | block b rest ih =>
    rw [items_block] at hi ⊢
    cases i with
    | zero => cases hi
    | succ i =>
      rw [List.getElem?_cons_succ] at hi
      rw [ih hi, List.length_cons]
  | ended n =>
    rw [items_ended] at hi
    cases hi
  | failed ε' n =>
    rw [items_failed] at hi ⊢
    cases i with
    | zero => rfl
    | succ i => cases hi

/-- A selection has the items of the answers. -/
theorem Fused.items_report {as : List Answer} (h : Fused as) {t : Traversal} {sel : Selection}
    (hr : report as t = some sel) : sel.items = items as := by
  induction h generalizing sel with
  | going => cases hr
  | block b rest ih =>
    obtain ⟨sel, hs, rfl⟩ := Option.map_eq_some_iff.1 hr
    rw [items_block, ← ih hs]
    rfl
  | ended n =>
    obtain rfl := Option.some.inj hr
    rw [items_ended]
    rfl
  | failed ε n =>
    obtain rfl := Option.some.inj hr
    rw [items_failed]
    rfl

/-- A selection that ended without an error ended as the traversal did, and there was no error. -/
theorem Fused.report_ok {as : List Answer} (h : Fused as) {t : Traversal} {sel : Selection}
    (hr : report as t = some sel) {ρ : Resolution} (hρ : sel.outcome = .ok ρ) :
    ρ = t.ending ∧ .ok none ∈ as ∧ ∀ ε, .error ε ∉ as := by
  induction h generalizing sel with
  | going => cases hr
  | block b rest ih =>
    obtain ⟨sel, hs, rfl⟩ := Option.map_eq_some_iff.1 hr
    obtain ⟨hend, hnone, herror⟩ := ih hs hρ
    refine ⟨hend, List.mem_cons_of_mem _ hnone, fun ε hε => ?_⟩
    rcases List.mem_cons.1 hε with hε | hε
    · cases hε
    · exact herror ε hε
  | ended n =>
    obtain rfl := Option.some.inj hr
    refine ⟨(Except.ok.inj hρ).symm, List.mem_cons_self, fun ε hε => ?_⟩
    rcases List.mem_cons.1 hε with hε | hε
    · cases hε
    · cases List.eq_of_mem_replicate hε
  | failed ε n =>
    obtain rfl := Option.some.inj hr
    cases hρ

/-- There is no selection as long as all answers are blocks. -/
theorem report_eq_none_iff (as : List Answer) (t : Traversal) :
    report as t = none ↔ ∀ a ∈ as, ∃ b, a = .ok (some b) := by
  induction as with
  | nil => simp [report]
  | cons a as ih =>
    rcases a with ε | b | b
    · simp [report]
    · simp [report]
    · simp [report, ih]

/-! ## Consumers -/

section

variable {S : Type} (read : BlockReader (StateM S)) (codecs : Registry)

/-- A pull gives a block, or the traversal has stopped. -/
theorem pull_cases (t : Traversal) (s : S) :
    ∃ a u s', (t.pull read codecs).run s = ((a, u), s') ∧
      ((∃ b, a = .ok (some b)) ∨ a = .ok none ∧ u.Stopped ∨ (∃ ε, a = .error ε) ∧ u.Stopped) := by
  obtain ⟨χs, a, u, pulled, hp, -⟩ := exists_onePull read codecs t s []
  refine ⟨a, u, _, hp, ?_⟩
  cases pulled with
  | block => exact .inl ⟨_, rfl⟩
  | error => exact .inr (.inr ⟨⟨_, rfl⟩, trivial⟩)
  | ending => exact .inr (.inl ⟨rfl, trivial⟩)
  | stopped stopped => exact .inr (.inl ⟨rfl, stopped⟩)

/-- The answers to one pull and then some that come when the traversal has stopped. -/
theorem run_answers_of_pull {t u : Traversal} {s s' : S} {a : Answer}
    (hp : (t.pull read codecs).run s = ((a, u), s')) (stopped : u.Stopped) (n : Nat) :
    (answers read codecs (n + 1) t).run s = ((a :: .replicate n (.ok none), u), s') := by
  rw [run_answers_succ, hp]
  dsimp only
  rw [run_answers_of_stopped read codecs stopped]

theorem fused_answers (n : Nat) (t : Traversal) (s : S) :
    Fused ((answers read codecs n t).run s).1.1 := by
  induction n generalizing t s with
  | zero => exact .going
  | succ n ih =>
    obtain ⟨a, u, s', hp, ⟨b, rfl⟩ | ⟨rfl, stopped⟩ | ⟨⟨ε, rfl⟩, stopped⟩⟩ :=
      pull_cases read codecs t s
    · rw [run_answers_succ, hp]
      exact .block b (ih u s')
    · rw [run_answers_of_pull read codecs hp stopped]
      exact .ended n
    · rw [run_answers_of_pull read codecs hp stopped]
      exact .failed ε n

theorem run_blocks_succ (n : Nat) (t : Traversal) (s : S) :
    (blocks read codecs (n + 1) t).run s =
      match (t.pull read codecs).run s with
      | ((.ok none, u), s') => (([], u), s')
      | ((.ok (some b), u), s') =>
        let q := (blocks read codecs n u).run s'
        ((.ok b :: q.1.1, q.1.2), q.2)
      | ((.error ε, u), s') =>
        let q := (blocks read codecs n u).run s'
        ((.error ε :: q.1.1, q.1.2), q.2) := by
  rw [blocks, StateT.run_bind]
  show (match (t.pull read codecs).run s with | (a, s) => _) = _
  rcases (t.pull read codecs).run s with ⟨⟨ε | b | b, u⟩, s'⟩ <;> rfl

theorem run_stream_succ (n : Nat) (t : Traversal) (s : S) :
    (stream read codecs (n + 1) t).run s =
      match (t.pull read codecs).run s with
      | ((.ok none, _), s') => ([], s')
      | ((.ok (some b), u), s') =>
        let q := (stream read codecs n u).run s'
        (.ok b :: q.1, q.2)
      | ((.error ε, _), s') => ([.error ε], s') := by
  rw [stream, StateT.run_bind]
  show (match (t.pull read codecs).run s with | (a, s) => _) = _
  rcases (t.pull read codecs).run s with ⟨⟨ε | b | b, u⟩, s'⟩ <;> rfl

/-- Nothing comes from a traversal that has stopped. -/
theorem run_blocks_of_stopped {t : Traversal} (h : t.Stopped) (n : Nat) (s : S) :
    (blocks read codecs n t).run s = (([], t), s) := by
  cases n with
  | zero => rfl
  | succ n => rw [run_blocks_succ, run_pull_of_nothing read codecs h.demand]

/-- Blocks and errors that come one by one are the items of the answers. -/
theorem run_blocks (n : Nat) (t : Traversal) (s : S) :
    (blocks read codecs n t).run s =
      let p := (answers read codecs n t).run s
      ((items p.1.1, p.1.2), p.2) := by
  induction n generalizing t s with
  | zero => rfl
  | succ n ih =>
    obtain ⟨a, u, s', hp, ⟨b, rfl⟩ | ⟨rfl, stopped⟩ | ⟨⟨ε, rfl⟩, stopped⟩⟩ :=
      pull_cases read codecs t s
    · rw [run_blocks_succ, run_answers_succ, hp]
      dsimp only
      rw [ih, items_block]
    · rw [run_blocks_succ, run_answers_of_pull read codecs hp stopped, hp]
      dsimp only
      rw [items_ended]
    · rw [run_blocks_succ, run_answers_of_pull read codecs hp stopped, hp]
      dsimp only
      rw [run_blocks_of_stopped read codecs stopped, items_failed]

/-- A stream consists of the items of the answers. -/
theorem run_stream (n : Nat) (t : Traversal) (s : S) :
    (stream read codecs n t).run s =
      let p := (answers read codecs n t).run s
      (items p.1.1, p.2) := by
  induction n generalizing t s with
  | zero => rfl
  | succ n ih =>
    obtain ⟨a, u, s', hp, ⟨b, rfl⟩ | ⟨rfl, stopped⟩ | ⟨⟨ε, rfl⟩, stopped⟩⟩ :=
      pull_cases read codecs t s
    · rw [run_stream_succ, run_answers_succ, hp]
      dsimp only
      rw [ih, items_block]
    · rw [run_stream_succ, run_answers_of_pull read codecs hp stopped, hp]
      dsimp only
      rw [items_ended]
    · rw [run_stream_succ, run_answers_of_pull read codecs hp stopped, hp]
      dsimp only
      rw [items_failed]

theorem run_drainFrom (n : Nat) (before : List Block) (t : Traversal) (s : S) :
    (drainFrom read codecs n before t).run s =
      let p := (answers read codecs n t).run s
      ((report p.1.1 p.1.2).map (.after before), p.2) := by
  induction n generalizing before t s with
  | zero => rfl
  | succ n ih =>
    obtain ⟨a, u, s', hp, ⟨b, rfl⟩ | ⟨rfl, stopped⟩ | ⟨⟨ε, rfl⟩, stopped⟩⟩ :=
      pull_cases read codecs t s
    · rw [run_drainFrom_succ, run_answers_succ, hp]
      dsimp only
      rw [ih, report, Option.map_map, Selection.after_after]
    · rw [run_drainFrom_succ, run_answers_of_pull read codecs hp stopped, hp]
      dsimp only
      rw [report, Option.map_some, Selection.after, List.append_nil]
    · rw [run_drainFrom_succ, run_answers_of_pull read codecs hp stopped, hp]
      dsimp only
      rw [report, Option.map_some, Selection.after, List.append_nil]

/-- What a drain gives is the report of the answers. -/
theorem run_drain (n : Nat) (t : Traversal) (s : S) :
    (drain read codecs n t).run s =
      let p := (answers read codecs n t).run s
      (report p.1.1 p.1.2, p.2) := by
  rw [drain, run_drainFrom, Selection.after_nil]
  dsimp only
  rw [Option.map_id_fun, id]

end

/-! ## Pulls by hand, then something else -/

/-- What there is after some pulls by hand. -/
structure ByHand (S : Type) where
  /-- the answers, first to last -/
  answers : List Answer
  /-- the traversal after them -/
  traversal : Traversal
  /-- the state of the store after them -/
  store : S

section

variable {S : Type} (read : BlockReader (StateM S)) (codecs : Registry) (d : Document) (s : S)

/-- The first `n` pulls of a document over a store in the state `s`. -/
def byHand (n : Nat) : ByHand S :=
  let run := (answers read codecs n (ofDocument d)).run s
  ⟨run.1.1, run.1.2, run.2⟩

/-- After the pulls `first`, all ways to consume what is left by at most `p` pulls come to the same
as the pulls `direct`: the items of `first` and those that come then are those of `direct`. -/
structure Agree (p : Nat) (first direct : ByHand S) : Prop where
  /-- an error comes at most once, as the last item -/
  error_last : ∀ ε i, (items direct.answers)[i]? = some (.error ε) →
    i + 1 = (items direct.answers).length
  /-- more pulls by hand -/
  pulled : ∃ as, (answers read codecs p first.traversal).run first.store
      = ((as, direct.traversal), direct.store)
    ∧ items first.answers ++ items as = items direct.answers
  /-- blocks that come one by one; what they leave is the traversal after the direct pulls -/
  borrowed : ∃ is, (blocks read codecs p first.traversal).run first.store
      = ((is, direct.traversal), direct.store)
    ∧ items first.answers ++ is = items direct.answers
  /-- a stream -/
  owned : ∃ is, (stream read codecs p first.traversal).run first.store = (is, direct.store)
    ∧ items first.answers ++ is = items direct.answers
  /-- a drain; it ends unless all `p` pulls give blocks -/
  drained : ∃ o, (drain read codecs p first.traversal).run first.store = (o, direct.store)
    ∧ (o = none ↔ ∀ a ∈ direct.answers.drop first.answers.length, ∃ b, a = .ok (some b))
    ∧ ∀ sel, o = some sel → items first.answers ++ sel.items = items direct.answers

/-- More pulls by hand. -/
theorem byHand_add (k p : Nat) :
    byHand read codecs d s (k + p) =
      let first := byHand read codecs d s k
      let more := (answers read codecs p first.traversal).run first.store
      ⟨first.answers ++ more.1.1, more.1.2, more.2⟩ := by
  rw [byHand, run_answers_add]
  rfl

/-- **All ways to consume a traversal see the same blocks**, and then the same error if there is
one, at whatever point they take over from pulls by hand: also when these have come to the end or
have failed. -/
theorem consumers_agree (k p : Nat) :
    Agree read codecs p (byHand read codecs d s k) (byHand read codecs d s (k + p)) where
  error_last ε i hi := (fused_answers read codecs (k + p) _ s).error_last hi
  pulled := by
    rw [byHand_add]
    exact ⟨_, rfl, (items_append _ _).symm⟩
  borrowed := by
    rw [byHand_add, run_blocks]
    exact ⟨_, rfl, (items_append _ _).symm⟩
  owned := by
    rw [byHand_add, run_stream]
    exact ⟨_, rfl, (items_append _ _).symm⟩
  drained := by
    rw [byHand_add, run_drain]
    refine ⟨_, rfl, ?_, fun sel hsel => ?_⟩
    · dsimp only
      rw [List.drop_left]
      exact report_eq_none_iff _ _
    · rw [items_append, (fused_answers read codecs p _ _).items_report hsel]

end

/-! ## What a drain reports -/

section

variable {S : Type} {read : BlockReader (StateM S)} {codecs : Registry} {d : Document} {s : S}

variable (read codecs d s) in
/-- What a drain by at most `p` pulls gives after `k` pulls by hand; none if `p` do not suffice. -/
def drainAfter (k p : Nat) : Option Selection :=
  let first := byHand read codecs d s k
  ((drain read codecs p first.traversal).run first.store).1

theorem ofRest_eq_resolved_iff {rest : List Selector} :
    Resolution.ofRest rest = .resolved ↔ rest = [] := by
  cases rest with
  | nil => simp [Resolution.ofRest]
  | cons i rest => simp [Resolution.ofRest]

theorem ofRest_eq_unresolved_iff {rest rest' : List Selector} :
    Resolution.ofRest rest = .unresolved rest' ↔ rest = rest' ∧ rest' ≠ [] := by
  cases rest with
  | nil => simp [Resolution.ofRest]
  | cons i rest =>
    constructor
    · intro h
      obtain rfl := Resolution.unresolved.inj h
      exact ⟨rfl, List.cons_ne_nil i rest⟩
    · rintro ⟨rfl, -⟩
      rfl

/-- The outcome of a drain is right about the endings that are `ended`: it says that the walk was
resolved only if it ended with nothing left over, and that it was not only if it ended with what the
outcome says. -/
def Truthful (ended : List Selector → Prop) (outcome : Except TraversalError Resolution) : Prop :=
  (outcome = .ok .resolved → ended [])
    ∧ ∀ rest, outcome = .ok (.unresolved rest) → rest ≠ [] ∧ ended rest

theorem byHand_eq_record (n : Nat) :
    byHand read codecs d s n =
      ⟨(record read codecs d s n).answers, (record read codecs d s n).traversal,
        read.after s (record read codecs d s n).reads⟩ := by
  rw [byHand, run_eq_record]

/-- The answers of a record are those to pulls by hand. -/
theorem answers_record (n : Nat) :
    (record read codecs d s n).answers = (byHand read codecs d s n).answers := by
  rw [byHand_eq_record]

/-- The traversal of a record is the one that pulls by hand lead to. -/
theorem traversal_record (n : Nat) :
    (record read codecs d s n).traversal = (byHand read codecs d s n).traversal := by
  rw [byHand_eq_record]

/-- A drain that reports an ending after pulls by hand without an error reports how the walk
ended. -/
theorem ended_of_no_error {k p : Nat} {sel : Selection}
    (h : drainAfter read codecs d s k p = some sel)
    (no_error : ∀ ε, .error ε ∉ (byHand read codecs d s k).answers) {ρ : Resolution}
    (hρ : sel.outcome = .ok ρ) :
    ∃ rest, EndedWith read codecs d s (k + p) rest ∧ ρ = .ofRest rest := by
  rw [drainAfter, run_drain] at h
  have more := fused_answers read codecs p (byHand read codecs d s k).traversal
    (byHand read codecs d s k).store
  obtain ⟨rfl, nothing, no_later_error⟩ := more.report_ok h hρ
  -- all pulls together gave no error and came to an end, so there is a resolution
  have resolved : (record read codecs d s (k + p)).traversal.resolution?.isSome := by
    rw [isSome_resolution_record_iff, answers_record, byHand_add]
    exact ⟨List.mem_append_right _ nothing, no_error_append no_error no_later_error⟩
  obtain ⟨ρ, hs⟩ := Option.isSome_iff_exists.1 resolved
  have ended := (resolution_record_iff codecs (k + p) ρ).1 hs
  rw [traversal_record, byHand_add] at hs
  rw [ending, hs]
  exact ended

/-- After pulls by hand without an error, a drain is right about the ending. -/
theorem truthful_of_no_error {k p : Nat} {sel : Selection}
    (h : drainAfter read codecs d s k p = some sel)
    (no_error : ∀ ε, .error ε ∉ (byHand read codecs d s k).answers) :
    Truthful (EndedWith read codecs d s (k + p)) sel.outcome := by
  constructor
  · intro resolved
    obtain ⟨rest, ended, hr⟩ := ended_of_no_error h no_error resolved
    obtain rfl := ofRest_eq_resolved_iff.1 hr.symm
    exact ended
  · intro rest' unresolved
    obtain ⟨rest, ended, hr⟩ := ended_of_no_error h no_error unresolved
    obtain ⟨rfl, left_over⟩ := ofRest_eq_unresolved_iff.1 hr.symm
    exact ⟨left_over, ended⟩

/-- After an error by hand a drain finds nothing, and reports that the walk was resolved. -/
theorem drain_of_error {k p : Nat} {sel : Selection}
    (h : drainAfter read codecs d s k p = some sel)
    {ε : TraversalError} (hε : .error ε ∈ (byHand read codecs d s k).answers) :
    sel = ⟨[], .ok .resolved⟩ := by
  rw [drainAfter, byHand_eq_record] at h
  rw [← answers_record] at hε
  have fits : (record read codecs d s k).PhaseFits := phaseFits_record codecs k
  have stopped : (record read codecs d s k).traversal.Stopped :=
    Classical.byContradiction fun going => fits.no_error going ε hε
  have unresolved : (record read codecs d s k).traversal.resolution? = none := by
    refine Option.not_isSome_iff_eq_none.1 fun hs => ?_
    exact ((isSome_resolution_record_iff codecs k).1 hs).2 ε hε
  rw [run_drain, run_answers_of_stopped read codecs stopped] at h
  cases p with
  | zero => cases h
  | succ p =>
    obtain rfl := Option.some.inj h
    rw [ending, unresolved]
    rfl

/-- A walk whose pulls by hand failed never ends. -/
theorem not_endedWith_of_error {k : Nat} (p : Nat) {ε : TraversalError}
    (hε : .error ε ∈ (byHand read codecs d s k).answers) (rest : List Selector) :
    ¬EndedWith read codecs d s (k + p) rest := by
  intro ended
  have hs := (resolution_record_iff codecs (k + p) (.ofRest rest)).2 ⟨rest, ended, rfl⟩
  have resolved := Option.isSome_iff_exists.2 ⟨_, hs⟩
  refine ((isSome_resolution_record_iff codecs (k + p)).1 resolved).2 ε ?_
  rw [answers_record, byHand_add]
  exact List.mem_append_left _ hε

/-- **A drain tells the truth about the ending unless a pull by hand has failed.** Then, and only
then, it takes the walk for resolved although it never ended. -/
theorem drain_truthful_iff {k p : Nat} {sel : Selection}
    (h : drainAfter read codecs d s k p = some sel) :
    (Truthful (EndedWith read codecs d s (k + p)) sel.outcome
        ↔ ∀ ε, .error ε ∉ (byHand read codecs d s k).answers)
      ∧ ((∃ ε, .error ε ∈ (byHand read codecs d s k).answers) → sel = ⟨[], .ok .resolved⟩) := by
  constructor
  · constructor
    · intro truthful ε hε
      -- the drain says that the walk was resolved, but a walk that failed has no end
      obtain rfl := drain_of_error h hε
      exact not_endedWith_of_error p hε [] (truthful.1 rfl)
    · exact truthful_of_no_error h
  · rintro ⟨ε, hε⟩
    exact drain_of_error h hε

end

open OneLink in
/-- Where both blocks are there, a drain after one pull by hand reports that the walk was resolved,
and it was. -/
theorem drain_truthful_iff_oneLink :
    drainAfter Store.memory.get codecs document memory 1 3 = some ⟨[inner], .ok .resolved⟩
      ∧ EndedWith Store.memory.get codecs document memory 4 [] := by
  have h : drainAfter Store.memory.get codecs document memory 1 3
      = some ⟨[inner], .ok .resolved⟩ := by cbv
  have one : (byHand Store.memory.get codecs document memory 1).answers = [.ok (some outer)] := by
    cbv
  have no_error : ∀ ε, .error ε ∉ (byHand Store.memory.get codecs document memory 1).answers := by
    intro ε hε
    rw [one] at hε
    cases List.mem_singleton.1 hε
  exact ⟨h, ((drain_truthful_iff h).1.2 no_error).1 rfl⟩

open OneLink in
/-- Where no block is there, the first pull by hand fails, and a drain after it reports that the
walk was resolved. -/
theorem drain_resolved_after_error :
    (byHand Store.memory.get codecs document Memory.empty 1).answers
        = [.error (.notFound outer.cid)]
      ∧ drainAfter Store.memory.get codecs document Memory.empty 1 1
        = some ⟨[], .ok .resolved⟩ := by
  constructor <;> cbv

end BlockWalk.Traversal
