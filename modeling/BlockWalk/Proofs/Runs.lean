import BlockWalk.Proofs.Pulls
import BlockWalk.Proofs.Stores
import Mathlib

/-!
# Runs

What can be seen of a traversal from outside is a list of answers and a list of reads. Here is how
the two belong together, after any number of pulls and whatever the store does.

* `Traversal.OnePull` — the four things that one pull can do. Every pull does one of them
  (`Traversal.exists_onePull`), so what all four keep holds of every run
  (`Traversal.record_induction`).
* `Traversal.record` — the answers, the reads and the traversal after the first pulls. The reads are
  listed by the store itself (`BlockReader.logged`), which changes nothing else
  (`Traversal.run_eq_record`).
* `Traversal.EndedWith` — a pull came to the end of the walk. That is what a resolution says
  (`Traversal.resolution_record_iff`).
* `Traversal.reads_and_blocks_correspond` — the main statement: the store was asked for the blocks
  that were given out, in this order, and for one more if a pull failed; and after an ending nothing
  happens any more.
-/

namespace BlockWalk

/-! ## Lists of reads -/

namespace BlockReader

variable {S : Type} (read : BlockReader (StateM S))

/-- A store with a list of what it was asked for, first to last. -/
def logged : BlockReader (StateM (S × List Cid)) := fun χ => fun (s, log) =>
  let (a, s) := (read χ).run s
  (a, s, log ++ [χ])

/-- When it is asked for `χ` after some reads from the state `s` on, the store gives `b`. -/
def MayGive (s : S) (χ : Cid) (b : Block) : Prop :=
  ∃ past, ((read χ).run (read.after s past)).1 = .ok (some b)

theorem after_append (s : S) (past later : List Cid) :
    read.after s (past ++ later) = read.after (read.after s past) later := by
  induction past generalizing s with
  | nil => rfl
  | cons χ past ih => exact ih _

/-- A memory that is only read gives blocks of the identifier that it is asked for. -/
theorem cid_of_mayGive_memory {μ : Memory} {χ : Cid} {b : Block}
    (h : Store.memory.get.MayGive μ χ b) : b.cid = χ := by
  obtain ⟨past, hb⟩ := h
  rw [after_memory] at hb
  exact labelled_memory μ χ b hb

end BlockReader

namespace Traversal

/-! ## One pull -/

/-- An answer to a pull. -/
abbrev Answer : Type := Except TraversalError (Option Block)

theorem given_append (as as' : List Answer) : given (as ++ as') = given as ++ given as' :=
  List.filterMap_append

/-- There is no error among answers if there is none among the first and none among the others. -/
theorem no_error_append {as as' : List Answer} (h : ∀ ε, .error ε ∉ as)
    (h' : ∀ ε, .error ε ∉ as') (ε : TraversalError) : .error ε ∉ as ++ as' := by
  intro hε
  rcases List.mem_append.1 hε with hε | hε
  · exact h ε hε
  · exact h' ε hε

/-- The next pull comes to the end of the walk, with `rest` left over on the last branch. -/
def EndsWith (t : Traversal) (rest : List Selector) : Prop :=
  ∃ c stack, t.phase = .underway c stack ∧ (Walk.running c stack).seek = .ended rest

/-- A traversal that has come to the end of its walk. -/
def finished (t : Traversal) (rest : List Selector) : Traversal :=
  { t with phase := .done (.ofRest rest) }

section

variable {t u : Traversal} {rest : List Selector}

theorem EndsWith.not_stopped (h : t.EndsWith rest) : ¬t.Stopped := by
  obtain ⟨c, stack, hp, -⟩ := h
  rw [Stopped, hp]
  exact id

/-- A pull that needs no block comes to the end of the walk, or there is nothing left to do. -/
theorem endsWith_or_stopped (h : t.demand = .nothing u) :
    (∃ rest, t.EndsWith rest ∧ u = t.finished rest) ∨ t.Stopped ∧ u = t := by
  obtain ⟨root, phase, emitted⟩ := t
  cases phase with
  | fresh program => cases h
  | underway c stack =>
    simp only [Traversal.demand] at h
    split at h
    · cases h
    · next rest hs => exact .inl ⟨rest, ⟨c, stack, rfl, hs⟩, (Demand.nothing.inj h).symm⟩
  | done ρ => exact .inr ⟨trivial, (Demand.nothing.inj h).symm⟩
  | failed => exact .inr ⟨trivial, (Demand.nothing.inj h).symm⟩

theorem EndsWith.demand_ne (h : t.EndsWith rest) (χ : Cid) (task : Task) (stack : List Frame) :
    t.demand ≠ .block χ task stack := by
  obtain ⟨c, stack', hp, hs⟩ := h
  intro asked
  rw [Traversal.demand, hp] at asked
  dsimp only at asked
  rw [hs] at asked
  cases asked

/-- A walk ends in one way. -/
theorem EndsWith.unique {rest' : List Selector} (h : t.EndsWith rest) (h' : t.EndsWith rest') :
    rest = rest' := by
  obtain ⟨c, stack, hp, hs⟩ := h
  obtain ⟨c', stack', hp', hs'⟩ := h'
  obtain ⟨rfl, rfl⟩ := Phase.underway.inj (hp.symm.trans hp')
  exact Landing.ended.inj (hs.symm.trans hs')

end

/-- What one pull of `t` does, over a store that gives only the blocks `gives`: what the store is
asked for, the answer, and the traversal afterwards. -/
inductive OnePull (gives : Cid → Block → Prop) (t : Traversal) :
    List Cid → Answer → Traversal → Prop
  /-- a block is read and given out -/
  | block {χ : Cid} {task : Task} {stack : List Frame} {b : Block} {v : Node}
      (asked : t.demand = .block χ task stack) (given : gives χ b) :
      OnePull gives t [χ] (.ok (some b)) (t.entered v task stack)
  /-- a block cannot be had -/
  | error {χ : Cid} {task : Task} {stack : List Frame} {ε : TraversalError}
      (asked : t.demand = .block χ task stack) : OnePull gives t [χ] (.error ε) t.broken
  /-- the walk ends -/
  | ending {rest : List Selector} (ends : t.EndsWith rest) :
      OnePull gives t [] (.ok none) (t.finished rest)
  /-- nothing happens any more -/
  | stopped (stopped : t.Stopped) : OnePull gives t [] (.ok none) t

section

variable {S : Type} (read : BlockReader (StateM S)) (codecs : Registry)

/-- A pull over a store is one of the four things that a pull can do. A list of what the store is
asked for grows by just that. -/
theorem exists_onePull (t : Traversal) (s : S) (past : List Cid) :
    ∃ χs a u, OnePull (read.MayGive s) t χs a u
      ∧ (t.pull read codecs).run (read.after s past) = ((a, u), read.after s (past ++ χs))
      ∧ ∀ log, (t.pull read.logged codecs).run (read.after s past, log)
          = ((a, u), read.after s (past ++ χs), log ++ χs) := by
  cases hd : t.demand with
  | nothing u =>
    refine ⟨[], .ok none, u, ?_, ?_, fun log => ?_⟩
    · obtain ⟨rest, ends, rfl⟩ | ⟨stopped, rfl⟩ := endsWith_or_stopped hd
      · exact .ending ends
      · exact .stopped stopped
    · rw [run_pull_of_nothing read codecs hd, List.append_nil]
    · rw [run_pull_of_nothing read.logged codecs hd, List.append_nil, List.append_nil]
  | block χ task stack =>
    have state : ((read χ).run (read.after s past)).2 = read.after s (past ++ [χ]) := by
      rw [read.after_append]
      rfl
    refine ⟨[χ], _, _, ?_, by rw [run_pull_of_block read codecs hd, run_load, state],
      fun log => by rw [run_pull_of_block read.logged codecs hd, run_load, ← state]; rfl⟩
    rcases ha : opened codecs χ ((read χ).run (read.after s past)).1 with ε | ⟨b, v⟩
    · exact .error hd
    · exact .block hd ⟨past, (opened_eq_ok_iff.1 ha).1⟩

/-! ## Several pulls, one after the other -/

/-- Some pulls and then some more. -/
theorem run_answers_add (n m : Nat) (t : Traversal) (s : S) :
    (answers read codecs (n + m) t).run s =
      let p := (answers read codecs n t).run s
      let q := (answers read codecs m p.1.2).run p.2
      ((p.1.1 ++ q.1.1, q.1.2), q.2) := by
  induction n generalizing t s with
  | zero => rw [Nat.zero_add]; rfl
  | succ n ih =>
    rw [Nat.add_right_comm, run_answers_succ, run_answers_succ]
    dsimp only
    rw [ih]
    rfl

/-- Some pulls and then one more. -/
theorem run_answers_snoc (n : Nat) (t : Traversal) (s : S) :
    (answers read codecs (n + 1) t).run s =
      let p := (answers read codecs n t).run s
      let q := (p.1.2.pull read codecs).run p.2
      ((p.1.1 ++ [q.1.1], q.1.2), q.2) := by
  rw [run_answers_add]
  rfl

/-- Where nothing happens any more, pulls do nothing. -/
theorem run_answers_of_stopped {t : Traversal} (h : t.Stopped) (n : Nat) (s : S) :
    (answers read codecs n t).run s = ((List.replicate n (.ok none), t), s) := by
  induction n with
  | zero => rfl
  | succ n ih =>
    rw [run_answers_succ, run_pull_of_nothing read codecs h.demand]
    dsimp only
    rw [ih, List.replicate_succ]

/-- A list of what the store is asked for changes nothing else. -/
theorem run_answers_logged (n : Nat) (t : Traversal) (s : S) (past log : List Cid) :
    ∃ χs, (answers read.logged codecs n t).run (read.after s past, log)
        = (((answers read codecs n t).run (read.after s past)).1, read.after s (past ++ χs),
          log ++ χs)
      ∧ ((answers read codecs n t).run (read.after s past)).2 = read.after s (past ++ χs) := by
  induction n generalizing t past log with
  | zero =>
    refine ⟨[], ?_, ?_⟩
    · rw [List.append_nil, List.append_nil]
      rfl
    · rw [List.append_nil]
      rfl
  | succ n ih =>
    obtain ⟨χs, a, u, -, hp, hl⟩ := exists_onePull read codecs t s past
    obtain ⟨χs', hr, hs⟩ := ih u (past ++ χs) (log ++ χs)
    refine ⟨χs ++ χs', ?_, ?_⟩
    · rw [run_answers_succ, run_answers_succ, hp, hl]
      dsimp only
      rw [hr, List.append_assoc, List.append_assoc]
    · rw [run_answers_succ, hp]
      dsimp only
      rw [hs, List.append_assoc]

end

/-! ## Records -/

/-- What can be seen of the first pulls of a document. -/
structure Record where
  /-- the answers, first to last -/
  answers : List Answer
  /-- what the store was asked for, first to last -/
  reads : List Cid
  /-- the traversal after the pulls -/
  traversal : Traversal

section

variable {S : Type} (read : BlockReader (StateM S)) (codecs : Registry) (d : Document) (s : S)

/-- What can be seen of the first `n` pulls of a document. -/
def record (n : Nat) : Record :=
  let run := (answers read.logged codecs n (ofDocument d)).run (s, [])
  ⟨run.1.1, run.2.2, run.1.2⟩

/-- One of the first `n` pulls comes to the end of the walk, with `rest` left over on the last
branch. -/
def EndedWith (n : Nat) (rest : List Selector) : Prop :=
  ∃ k < n, (record read codecs d s k).traversal.EndsWith rest

/-- The store comes to the state after its reads, and the list holds them. -/
theorem run_logged (n : Nat) :
    (answers read.logged codecs n (ofDocument d)).run (s, [])
      = (((record read codecs d s n).answers, (record read codecs d s n).traversal),
        read.after s (record read codecs d s n).reads, (record read codecs d s n).reads) := by
  obtain ⟨χs, hr, -⟩ := run_answers_logged read codecs n (ofDocument d) s [] []
  have run : (answers read.logged codecs n (ofDocument d)).run (s, [])
      = (_, read.after s χs, χs) := hr
  rw [record, run]

/-- Answers and traversal are those of the store without the list. -/
theorem run_eq_record (n : Nat) :
    (answers read codecs n (ofDocument d)).run s
      = (((record read codecs d s n).answers, (record read codecs d s n).traversal),
        read.after s (record read codecs d s n).reads) := by
  obtain ⟨χs, hr, hs⟩ := run_answers_logged read codecs n (ofDocument d) s [] []
  have run : (answers read.logged codecs n (ofDocument d)).run (s, [])
      = (_, read.after s χs, χs) := hr
  rw [record, run]
  exact Prod.ext rfl hs

/-- One more pull. -/
theorem record_succ (n : Nat) :
    ∃ χs a u, OnePull (read.MayGive s) (record read codecs d s n).traversal χs a u
      ∧ record read codecs d s (n + 1)
        = ⟨(record read codecs d s n).answers ++ [a], (record read codecs d s n).reads ++ χs,
          u⟩ := by
  obtain ⟨χs, a, u, pulled, -, hl⟩ := exists_onePull read codecs
    (record read codecs d s n).traversal s (record read codecs d s n).reads
  refine ⟨χs, a, u, pulled, ?_⟩
  rw [record, run_answers_snoc, run_logged]
  dsimp only
  rw [hl]

variable {read d s}

/-- What holds before the first pull and is kept by every pull holds after any number of pulls. -/
theorem record_induction {P : Record → Prop} (start : P ⟨[], [], ofDocument d⟩)
    (pull : ∀ r χs a u, P r → OnePull (read.MayGive s) r.traversal χs a u →
      P ⟨r.answers ++ [a], r.reads ++ χs, u⟩) (n : Nat) : P (record read codecs d s n) := by
  induction n with
  | zero => exact start
  | succ n ih =>
    obtain ⟨χs, a, u, pulled, hr⟩ := record_succ read codecs d s n
    rw [hr]
    exact pull _ χs a u ih pulled

/-! ## Answers -/

/-- The phase of a traversal tells its answers: before the end there are only blocks, at the end
there was no error, and after a failure there was one. -/
def Record.PhaseFits (r : Record) : Prop :=
  match r.traversal.phase with
  | .fresh _ | .underway _ _ => ∀ a ∈ r.answers, ∃ b, a = .ok (some b)
  | .done _ => .ok none ∈ r.answers ∧ ∀ ε, .error ε ∉ r.answers
  | .failed => ∃ ε, .error ε ∈ r.answers

theorem Record.PhaseFits.blocks {r : Record} (h : r.PhaseFits) (going : ¬r.traversal.Stopped) :
    ∀ a ∈ r.answers, ∃ b, a = .ok (some b) := by
  unfold PhaseFits at h
  unfold Stopped at going
  cases hp : r.traversal.phase <;> simp only [hp] at h going
  case fresh => exact h
  case underway => exact h
  case done => exact absurd trivial going
  case failed => exact absurd trivial going

/-- Before the end there was no error. -/
theorem Record.PhaseFits.no_error {r : Record} (h : r.PhaseFits) (going : ¬r.traversal.Stopped)
    (ε : TraversalError) : .error ε ∉ r.answers := by
  intro hε
  obtain ⟨b, hb⟩ := h.blocks going _ hε
  cases hb

/-- A pull after the end changes nothing about that. -/
theorem Record.PhaseFits.stopped {r : Record} (h : r.PhaseFits) (stopped : r.traversal.Stopped)
    (χs : List Cid) :
    Record.PhaseFits ⟨r.answers ++ [.ok none], χs, r.traversal⟩ := by
  unfold PhaseFits at h ⊢
  unfold Stopped at stopped
  cases hp : r.traversal.phase <;> simp only [hp] at h stopped ⊢
  case done =>
    exact ⟨List.mem_append_left _ h.1, no_error_append h.2 (by simp)⟩
  case failed =>
    obtain ⟨ε, hε⟩ := h
    exact ⟨ε, List.mem_append_left _ hε⟩

theorem phaseFits_record (n : Nat) : (record read codecs d s n).PhaseFits := by
  refine record_induction codecs (P := Record.PhaseFits) (fun a ha => nomatch ha) ?_ n
  intro r χs a u fits pulled
  cases pulled with
  | block asked =>
    intro a ha
    rcases List.mem_append.1 ha with ha | ha
    · exact fits.blocks (not_stopped_of_demand asked) a ha
    · exact ⟨_, List.mem_singleton.1 ha⟩
  | error => exact ⟨_, List.mem_append_right _ List.mem_cons_self⟩
  | ending ends =>
    have before := fits.no_error ends.not_stopped
    exact ⟨List.mem_append_right _ List.mem_cons_self, no_error_append before (by simp)⟩
  | stopped stopped => exact fits.stopped stopped _

/-! ## Reads -/

/-- What the store was asked for is what was given out, and one more block if a pull failed. -/
structure Record.ReadsFit (r : Record) : Prop where
  /-- without an error, exactly the blocks given out were read -/
  whole : (∀ ε, .error ε ∉ r.answers) → r.reads = (given r.answers).map Block.cid
  /-- before an error, one more was tried -/
  broken : (∃ ε, .error ε ∈ r.answers) → ∃ χ, r.reads = (given r.answers).map Block.cid ++ [χ]

/-- An answer that is neither a block nor an error leaves the reads as they are. -/
theorem Record.ReadsFit.nothing {r : Record} (h : r.ReadsFit) (u : Traversal) :
    Record.ReadsFit ⟨r.answers ++ [.ok none], r.reads ++ [], u⟩ := by
  have errors (ε : TraversalError) :
      .error ε ∈ r.answers ++ [.ok none] ↔ .error ε ∈ r.answers := by simp
  have blocks : given (r.answers ++ [.ok none]) = given r.answers := by
    rw [given_append]
    exact List.append_nil _
  constructor
  · simpa only [errors, blocks, List.append_nil] using h.whole
  · simpa only [errors, blocks, List.append_nil] using h.broken

theorem readsFit_record (labelled : ∀ χ b, read.MayGive s χ b → b.cid = χ) (n : Nat) :
    (record read codecs d s n).ReadsFit := by
  induction n with
  | zero => exact ⟨fun _ => rfl, fun ⟨_, h⟩ => nomatch h⟩
  | succ n ih =>
    have fits : (record read codecs d s n).PhaseFits := phaseFits_record codecs n
    obtain ⟨χs, a, u, pulled, hr⟩ := record_succ read codecs d s n
    rw [hr]
    generalize record read codecs d s n = r at ih fits pulled
    cases pulled with
    | @block χ task stack b v asked gives =>
      have before := fits.no_error (not_stopped_of_demand asked)
      constructor
      · intro _
        rw [given_append, ih.whole before, List.map_append, ← labelled χ b gives]
        rfl
      · rintro ⟨ε, hε⟩
        exact absurd hε (no_error_append before (by simp) ε)
    | @error χ task stack ε asked =>
      have before := fits.no_error (not_stopped_of_demand asked)
      constructor
      · intro h
        exact absurd (List.mem_append_right _ List.mem_cons_self) (h ε)
      · intro _
        refine ⟨χ, ?_⟩
        rw [given_append, ih.whole before]
        exact congrArg (List.map Block.cid · ++ [χ]) (List.append_nil _).symm
    | ending => exact ih.nothing _
    | stopped => exact ih.nothing _

/-- The first read is that of the root. -/
theorem head_reads_record {n : Nat} (hn : 0 < n) :
    (record read codecs d s n).reads.head? = some d.root := by
  obtain ⟨n, rfl⟩ : ∃ k, n = k + 1 := ⟨n - 1, by omega⟩
  clear hn
  induction n with
  | zero =>
    obtain ⟨χs, a, u, pulled, hr⟩ := record_succ read codecs d s 0
    rw [hr]
    -- nothing was read, so the program is still to be started at the root
    have fresh : (record read codecs d s 0).traversal.demand
        = .block d.root (.top (.start d.program)) [] := rfl
    cases pulled with
    | block asked => exact congrArg some (Demand.block.inj (fresh.symm.trans asked)).1.symm
    | error asked => exact congrArg some (Demand.block.inj (fresh.symm.trans asked)).1.symm
    | ending ends =>
      obtain ⟨c, stack, hp, -⟩ := ends
      cases hp
    | stopped stopped => exact absurd stopped (not_stopped_of_demand fresh)
  | succ n ih =>
    obtain ⟨χs, a, u, -, hr⟩ := record_succ read codecs d s (n + 1)
    rw [hr, List.head?_append, ih, Option.some_or]

theorem length_answers_record (n : Nat) : (record read codecs d s n).answers.length = n := by
  induction n with
  | zero => rfl
  | succ n ih =>
    obtain ⟨χs, a, u, -, hr⟩ := record_succ read codecs d s n
    rw [hr, List.length_append, ih]
    rfl

/-- Blocks are counted as they are given out. -/
theorem emitted_record (n : Nat) :
    (record read codecs d s n).traversal.emitted
      = (given (record read codecs d s n).answers).length := by
  refine record_induction codecs
    (P := fun r => r.traversal.emitted = (given r.answers).length) rfl ?_ n
  intro r χs a u ih pulled
  dsimp only
  rw [given_append, List.length_append, ← ih]
  cases pulled <;> rfl

/-! ## Endings -/

/-- Pulls after the end answer that nothing comes, and do nothing else. -/
theorem record_add_of_stopped {n : Nat} (h : (record read codecs d s n).traversal.Stopped)
    (m : Nat) :
    record read codecs d s (n + m)
      = { record read codecs d s n with
          answers := (record read codecs d s n).answers ++ List.replicate m (.ok none) } := by
  rw [record, run_answers_add, run_logged]
  dsimp only
  rw [run_answers_of_stopped _ _ h]

theorem endedWith_succ (n : Nat) (rest : List Selector) :
    EndedWith read codecs d s (n + 1) rest ↔
      EndedWith read codecs d s n rest ∨ (record read codecs d s n).traversal.EndsWith rest := by
  constructor
  · rintro ⟨k, hk, ends⟩
    rcases Nat.lt_succ_iff_lt_or_eq.1 hk with hk | rfl
    · exact .inl ⟨k, hk, ends⟩
    · exact .inr ends
  · rintro (⟨k, hk, ends⟩ | ends)
    · exact ⟨k, Nat.lt_succ_of_lt hk, ends⟩
    · exact ⟨n, Nat.lt_succ_self n, ends⟩

/-- A resolution is what was left over when the walk came to its end. -/
theorem resolution_record_iff (n : Nat) (ρ : Resolution) :
    (record read codecs d s n).traversal.resolution? = some ρ ↔
      ∃ rest, EndedWith read codecs d s n rest ∧ ρ = .ofRest rest := by
  induction n generalizing ρ with
  | zero => exact ⟨nofun, fun ⟨_, ⟨_, hk, _⟩, _⟩ => absurd hk (Nat.not_lt_zero _)⟩
  | succ n ih =>
    -- as long as there is something to do, no pull has come to the end
    have not_before (going : ¬(record read codecs d s n).traversal.Stopped) (rest : List Selector) :
        ¬EndedWith read codecs d s n rest := by
      intro ended
      have h := (ih (.ofRest rest)).2 ⟨rest, ended, rfl⟩
      exact going (stopped_of_resolution h)
    have not_asked {χ : Cid} {task : Task} {stack : List Frame}
        (asked : (record read codecs d s n).traversal.demand = .block χ task stack) :
        ¬∃ rest, EndedWith read codecs d s (n + 1) rest ∧ ρ = .ofRest rest := by
      rintro ⟨rest, ended, -⟩
      rcases (endedWith_succ codecs n rest).1 ended with ended | ends
      · exact not_before (not_stopped_of_demand asked) rest ended
      · exact ends.demand_ne _ _ _ asked
    obtain ⟨χs, a, u, pulled, hr⟩ := record_succ read codecs d s n
    rw [hr]
    cases pulled with
    | block asked => exact ⟨nofun, fun h => absurd h (not_asked asked)⟩
    | error asked => exact ⟨nofun, fun h => absurd h (not_asked asked)⟩
    | @ending rest ends =>
      simp only [endedWith_succ]
      constructor
      · intro h
        exact ⟨rest, .inr ends, (Option.some.inj h).symm⟩
      · rintro ⟨rest', ended | ends', rfl⟩
        · exact absurd ended (not_before ends.not_stopped rest')
        · rw [ends'.unique ends]
          rfl
    | stopped stopped =>
      rw [ih]
      simp only [endedWith_succ]
      refine exists_congr fun rest => and_congr_left fun _ => ⟨.inl, fun ended => ?_⟩
      exact ended.resolve_right fun ends => ends.not_stopped stopped

/-- There is a resolution if something answered that nothing comes and there was no error. -/
theorem isSome_resolution_record_iff (n : Nat) :
    (record read codecs d s n).traversal.resolution?.isSome ↔
      .ok none ∈ (record read codecs d s n).answers
        ∧ ∀ ε, .error ε ∉ (record read codecs d s n).answers := by
  have fits : (record read codecs d s n).PhaseFits := phaseFits_record codecs n
  unfold Record.PhaseFits at fits
  unfold resolution?
  cases hp : (record read codecs d s n).traversal.phase <;> simp only [hp] at fits ⊢
  case done => simpa using fits
  case failed =>
    obtain ⟨ε, hε⟩ := fits
    simpa using fun _ => ⟨ε, hε⟩
  all_goals
    refine ⟨nofun, fun ⟨h, _⟩ => ?_⟩
    obtain ⟨b, hb⟩ := fits _ h
    cases hb

end

/-! ## The whole run -/

/-- How reads, blocks and the ending belong together, after the first `n` pulls of a document and
after all pulls that follow. -/
structure Corresponds {S : Type} (read : BlockReader (StateM S)) (codecs : Registry) (d : Document)
    (s : S) (n : Nat) : Prop where
  /-- the record is that of the store, whose state is the one that it has after the reads listed -/
  faithful : (answers read codecs n (ofDocument d)).run s
    = (((record read codecs d s n).answers, (record read codecs d s n).traversal),
      read.after s (record read codecs d s n).reads)
  /-- every pull has an answer -/
  answered : (record read codecs d s n).answers.length = n
  /-- the reads are those of the blocks given out, and one more if a pull failed -/
  reads : (record read codecs d s n).ReadsFit
  /-- the first read is that of the root -/
  root : 0 < n → (record read codecs d s n).reads.head? = some d.root
  /-- one more pull reads the block that it gives out, or, if it gives none, at most one -/
  lazy : ∃ a χs,
    (record read codecs d s (n + 1)).answers = (record read codecs d s n).answers ++ [a]
    ∧ (record read codecs d s (n + 1)).reads = (record read codecs d s n).reads ++ χs
    ∧ match a with
      | .ok (some b) => χs = [b.cid]
      | .ok none => χs = []
      | .error _ => ∃ χ, χs = [χ]
  /-- blocks are counted as they are given out -/
  emitted : (record read codecs d s n).traversal.emitted
    = (given (record read codecs d s n).answers).length
  /-- after an answer that is no block, nothing comes and nothing changes -/
  fused : ∀ a ∈ (record read codecs d s n).answers, (¬∃ b, a = .ok (some b)) →
    ∀ m, record read codecs d s (n + m)
      = { record read codecs d s n with
          answers := (record read codecs d s n).answers ++ List.replicate m (.ok none) }
  /-- a resolution is what was left over when a pull came to the end of the walk -/
  resolution : ∀ ρ, (record read codecs d s n).traversal.resolution? = some ρ ↔
    ∃ rest, EndedWith read codecs d s n rest ∧ ρ = .ofRest rest
  /-- there is one if a pull said that nothing comes, but never after an error -/
  resolved : (record read codecs d s n).traversal.resolution?.isSome ↔
    .ok none ∈ (record read codecs d s n).answers
      ∧ ∀ ε, .error ε ∉ (record read codecs d s n).answers

/-- **What is read is what is given out.** Of a document, take the first `n` pulls over a store that
gives only blocks of the identifier asked for. It was asked for the blocks given out, in order and
from the root on, and for one more if a pull failed; nothing is read ahead. Once a pull has given no
block, nothing is read any more and nothing changes. There is a resolution if the walk came to its
end. -/
theorem reads_and_blocks_correspond {S : Type} {read : BlockReader (StateM S)} {s : S}
    (labelled : ∀ χ b, read.MayGive s χ b → b.cid = χ) (codecs : Registry) (d : Document)
    (n : Nat) : Corresponds read codecs d s n where
  faithful := run_eq_record read codecs d s n
  answered := length_answers_record codecs n
  reads := readsFit_record codecs labelled n
  root := head_reads_record codecs
  lazy := by
    obtain ⟨χs, a, u, pulled, hr⟩ := record_succ read codecs d s n
    rw [hr]
    refine ⟨a, χs, rfl, rfl, ?_⟩
    cases pulled with
    | @block χ task stack b v asked gives => exact congrArg ([·]) (labelled χ b gives).symm
    | @error χ => exact ⟨χ, rfl⟩
    | ending => rfl
    | stopped => rfl
  emitted := emitted_record codecs n
  fused a ha no_block m := by
    have stopped := Classical.byContradiction fun going =>
      no_block ((phaseFits_record codecs n).blocks going a ha)
    exact record_add_of_stopped codecs stopped m
  resolution := resolution_record_iff codecs n
  resolved := isSome_resolution_record_iff codecs n

open OneLink in
/-- Three pulls read the list and what it links to. -/
theorem reads_and_blocks_correspond_oneLink :
    (∀ χ b, Store.memory.get.MayGive memory χ b → b.cid = χ)
      ∧ Corresponds Store.memory.get codecs document memory 3
      ∧ (record Store.memory.get codecs document memory 3).reads = [cid 0, cid 1] := by
  have labelled : ∀ χ b, Store.memory.get.MayGive memory χ b → b.cid = χ :=
    fun _ _ => BlockReader.cid_of_mayGive_memory
  have h := reads_and_blocks_correspond labelled codecs document 3
  exact ⟨labelled, h, by cbv⟩

end Traversal

end BlockWalk
