import BlockWalk.Description.Order
import Mathlib.Data.List.Nodup
import Mathlib.Logic.Relation

/-!
# The sort of a description

`Description.order` finds out whether the nodes of a description can be encoded one after the other.
If no target is unknown, it gives an order in which every node comes after those it links to, or a
node that leads back to itself, and one of the two only: `Description.order_decides_acyclicity`.

A sort goes through states with a stack of visits in which the same name may occur many times. What
holds of all of them is `Sorting.Valid`:

* the marked names are those in order and those that are open, which have their second visit on the
  stack;
* an open node leads to every node above it on the stack, so a link to it closes a cycle;
* what an open node links to is in order or above it, so at its second visit all of it is in order.

Every visit keeps this, and loses no name (`Sorting.Valid.visit`).
-/

namespace BlockWalk

open Relation

/-! ## What a sort is to find -/

namespace Description

variable (d : Description)

/-- The node `n` links to the node `m`. -/
def LinksTo (n m : String) : Prop := ∃ v, d.find? n = some v ∧ m ∈ targets v ∧ m ∈ d.names

/-- The node `n` has a link whose target `t` is neither a name nor an identifier. -/
def Unknown (n t : String) : Prop :=
  ∃ v, (n, v) ∈ d ∧ t ∈ targets v ∧ t ∉ d.names ∧ ∀ χ, Cid.ofText t ≠ .ok χ

/-- The names of the description, each after those that its node links to. -/
structure Sorts (names : List String) : Prop where
  /-- no name occurs twice -/
  nodup : names.Nodup
  /-- they are the names of the description -/
  mem_iff : ∀ n, n ∈ names ↔ n ∈ d.names
  /-- what a node links to is before it -/
  after : ∀ before n later, names = before ++ n :: later → ∀ m, d.LinksTo n m → m ∈ before

variable {d}

theorem mem_references_iff {n m : String} : m ∈ d.references n ↔ d.LinksTo n m := by
  unfold references LinksTo
  cases d.find? n with
  | none => simp
  | some v => simp [Fields.contains_iff]

/-- Only what has a name links to anything. -/
theorem LinksTo.mem_names {n m : String} (h : d.LinksTo n m) : n ∈ d.names := by
  obtain ⟨v, hv, -⟩ := h
  refine Classical.byContradiction fun hn => ?_
  rw [Fields.find?_eq_none.2 hn] at hv
  cases hv

theorem isUnknown_iff {t : String} :
    d.isUnknown t ↔ t ∉ d.names ∧ ∀ χ, Cid.ofText t ≠ .ok χ := by
  rw [isUnknown, Bool.and_eq_true, Bool.not_eq_true', ← Bool.not_eq_true, Fields.contains_iff]
  refine and_congr_right fun _ => ?_
  cases Cid.ofText t <;> simp [Except.isOk, Except.toBool]

theorem unknown_of_unknownTarget? {n t : String} (h : d.unknownTarget? = some (n, t)) :
    d.Unknown n t := by
  obtain ⟨⟨n', v⟩, hv, ht⟩ := List.exists_of_findSome?_eq_some h
  obtain ⟨t', ht', he⟩ := Option.map_eq_some_iff.1 ht
  obtain ⟨rfl, rfl⟩ := Prod.mk.inj he
  exact ⟨v, hv, List.mem_of_find?_eq_some ht', isUnknown_iff.1 (List.find?_some ht')⟩

theorem not_unknown_of_unknownTarget? (h : d.unknownTarget? = none) (n t : String) :
    ¬d.Unknown n t := by
  rintro ⟨v, hv, ht, hu⟩
  have hn := List.findSome?_eq_none_iff.1 h (n, v) hv
  rw [Option.map_eq_none_iff, List.find?_eq_none] at hn
  exact hn t ht (isUnknown_iff.2 hu)

/-! ### Names in order, last first -/

/-- No name occurs twice, and what its node links to is behind it. -/
def Ordered (d : Description) : List String → Prop
  | [] => True
  | n :: earlier => n ∉ earlier ∧ (∀ m, d.LinksTo n m → m ∈ earlier) ∧ Ordered d earlier

theorem Ordered.nodup {names : List String} (h : d.Ordered names) : names.Nodup := by
  induction names with
  | nil => exact List.nodup_nil
  | cons n earlier ih => exact List.nodup_cons.2 ⟨h.1, ih h.2.2⟩

/-- What is in order after some names is in order without them. -/
theorem Ordered.of_append {later names : List String} (h : d.Ordered (later ++ names)) :
    d.Ordered names := by
  induction later with
  | nil => exact h
  | cons n later ih => exact ih h.2.2

/-- What the nodes in order lead to is in order. -/
theorem Ordered.mem_of_transGen {names : List String} (h : d.Ordered names) {n m : String}
    (hn : n ∈ names) (hm : TransGen d.LinksTo n m) : m ∈ names := by
  have closed {a b : String} (ha : a ∈ names) (hb : d.LinksTo a b) : b ∈ names := by
    obtain ⟨later, earlier, rfl⟩ := List.append_of_mem ha
    exact List.mem_append_right later (List.mem_cons_of_mem a (h.of_append.2.1 b hb))
  induction hm with
  | single hb => exact closed hn hb
  | tail _ hb ih => exact closed ih hb

/-- Names in order do not lead back to themselves. -/
theorem Ordered.acyclic {names : List String} (h : d.Ordered names) {n : String}
    (hn : n ∈ names) : ¬TransGen d.LinksTo n n := by
  intro hc
  obtain ⟨later, earlier, rfl⟩ := List.append_of_mem hn
  obtain ⟨notAgain, behind, ordered⟩ := h.of_append
  -- the first link leads to the earlier names, and from there is no way out of them
  obtain ⟨m, hm, hr⟩ := TransGen.head'_iff.1 hc
  rcases reflTransGen_iff_eq_or_transGen.1 hr with rfl | ht
  · exact notAgain (behind _ hm)
  · exact notAgain (ordered.mem_of_transGen (behind m hm) ht)

/-- Turned around, they are a sort of the description if they are its names. -/
theorem Ordered.sorts_reverse {names : List String} (h : d.Ordered names)
    (hd : ∀ n, n ∈ names ↔ n ∈ d.names) : d.Sorts names.reverse := by
  refine ⟨List.nodup_reverse.2 h.nodup, fun n => List.mem_reverse.trans (hd n), ?_⟩
  intro before n later hs m hm
  have hs : names = later.reverse ++ n :: before.reverse := by
    simpa using congrArg List.reverse hs
  subst hs
  exact List.mem_reverse.1 (h.of_append.2.1 m hm)

end Description

/-! ## What holds throughout a sort -/

namespace Sorting

/-- The names of nodes between their two visits, last opened first. -/
def opened (stack : List Visit) : List String := (stack.filter Visit.expanded).map Visit.name

/-- What open nodes link to is among the names in `known` or above them on the stack. -/
def Pending (d : Description) : List String → List Visit → Prop
  | _, [] => True
  | known, v :: stack =>
    (v.expanded → ∀ m, d.LinksTo v.name m → m ∈ known) ∧ Pending d (v.name :: known) stack

/-- If the node below is open, it leads to the node above. -/
def LeadsUp (d : Description) (above below : Visit) : Prop :=
  below.expanded → TransGen d.LinksTo below.name above.name

/-- A name is in order, or there is a visit of it to come. -/
def Has (s : Sorting) (n : String) : Prop := n ∈ s.order ∨ n ∈ s.stack.map Visit.name

/-- What holds of a sort between visits. -/
structure Valid (d : Description) (s : Sorting) : Prop where
  /-- what is done is in order -/
  done_iff : ∀ n, s.marks.find? n = some .done ↔ n ∈ s.order
  /-- what is being visited is open -/
  visiting_iff : ∀ n, s.marks.find? n = some .visiting ↔ n ∈ opened s.stack
  /-- no node is open twice -/
  nodup_opened : (opened s.stack).Nodup
  /-- the names in order come after what they link to -/
  ordered : d.Ordered s.order
  /-- an open node leads to what is above it -/
  leads : s.stack.Pairwise (LeadsUp d)
  /-- what an open node links to is in order or above it -/
  pending : Pending d s.order s.stack
  /-- there are only names of the description -/
  named : ∀ n, s.Has n → n ∈ d.names

/-- What comes of a sort in the state `s`: a state that has lost no name, or a cycle. -/
def Yields (d : Description) (s : Sorting) : Except ImportError Sorting → Prop
  | .ok t => Valid d t ∧ ∀ n, s.Has n → t.Has n
  | .error ε => ∃ n, ε = .cycle n ∧ TransGen d.LinksTo n n

variable {d : Description}

theorem mem_opened_iff {stack : List Visit} {n : String} :
    n ∈ opened stack ↔ ∃ v ∈ stack, v.expanded ∧ v.name = n := by
  simp only [opened, List.mem_map, List.mem_filter, and_assoc]

/-- With more names known, no less is known of what is linked to. -/
theorem Pending.mono {known known' : List String} {stack : List Visit}
    (h : Pending d known stack) (hk : known ⊆ known') : Pending d known' stack := by
  induction stack generalizing known known' with
  | nil => trivial
  | cons v stack ih =>
    exact ⟨fun he m hm => hk (h.1 he m hm), ih h.2 (List.cons_subset_cons v.name hk)⟩

/-- First visits above open nodes make names known to them. -/
theorem pending_fresh {known : List String} {stack : List Visit} (names : List String)
    (h : Pending d (names.reverse ++ known) stack) :
    Pending d known (names.map (⟨·, false⟩) ++ stack) := by
  induction names generalizing known with
  | nil => exact h
  | cons n names ih =>
    refine ⟨nofun, ih ?_⟩
    simpa using h

/-! ### Visits -/

theorem mem_fresh_iff {marks : Fields Mark} {targets : List String} {v : Visit} :
    v ∈ fresh marks targets ↔
      v.name ∈ targets ∧ marks.find? v.name = none ∧ v.expanded = false := by
  obtain ⟨name, expanded⟩ := v
  simp only [fresh, List.mem_map, List.mem_filter, Option.isNone_iff_eq_none, Visit.mk.injEq]
  constructor
  · rintro ⟨m, ⟨ht, hm⟩, rfl, rfl⟩
    exact ⟨ht, hm, rfl⟩
  · rintro ⟨ht, hm, rfl⟩
    exact ⟨name, ⟨ht, hm⟩, rfl, rfl⟩

theorem opened_fresh_append (marks : Fields Mark) (targets : List String) (stack : List Visit) :
    opened (fresh marks targets ++ stack) = opened stack := by
  have : (fresh marks targets).filter Visit.expanded = [] :=
    List.filter_eq_nil_iff.2 fun v hv => by simp [(mem_fresh_iff.1 hv).2.2]
  rw [opened, List.filter_append, this, List.nil_append, ← opened]

theorem opened_first (name : String) (stack : List Visit) :
    opened (⟨name, false⟩ :: stack) = opened stack := rfl

theorem opened_second (name : String) (stack : List Visit) :
    opened (⟨name, true⟩ :: stack) = name :: opened stack := rfl

section

variable {marks : Fields Mark} {order : List String} {name : String} {stack : List Visit}

/-- What a second visit takes from the stack it puts in order. -/
theorem has_finish_iff {marks' : Fields Mark} {n : String} :
    Has ⟨marks', name :: order, stack⟩ n ↔ Has ⟨marks, order, ⟨name, true⟩ :: stack⟩ n := by
  simp only [Has, List.map_cons, List.mem_cons, or_assoc, or_left_comm]

/-- A second visit puts a node in order. -/
theorem Valid.finish (h : Valid d ⟨marks, order, ⟨name, true⟩ :: stack⟩) :
    Valid d ⟨marks.insert name .done, name :: order, stack⟩ := by
  obtain ⟨once, nodup⟩ : name ∉ opened stack ∧ (opened stack).Nodup :=
    List.nodup_cons.1 h.nodup_opened
  have notDone : name ∉ order := by
    intro ho
    have hv : marks.find? name = some .visiting := (h.visiting_iff name).2 List.mem_cons_self
    rw [(h.done_iff name).2 ho] at hv
    cases hv
  refine ⟨fun n => ?_, fun n => ?_, nodup, ⟨notDone, h.pending.1 rfl, h.ordered⟩, h.leads.of_cons,
    h.pending.2, fun n hn => h.named n (has_finish_iff.1 hn)⟩
  · rw [Fields.find?_insert_eq_some, h.done_iff, List.mem_cons]
    by_cases hn : n = name <;> simp [hn]
  · rw [Fields.find?_insert_eq_some, h.visiting_iff, opened_second, List.mem_cons]
    by_cases hn : n = name <;> simp [hn, once]

/-- A first visit of what is in order has nothing to do. -/
theorem Valid.skip (h : Valid d ⟨marks, order, ⟨name, false⟩ :: stack⟩)
    (hn : marks.find? name = some .done) : Valid d ⟨marks, order, stack⟩ := by
  have known : name ∈ order := (h.done_iff name).1 hn
  refine ⟨h.done_iff, h.visiting_iff, h.nodup_opened, h.ordered, h.leads.of_cons,
    h.pending.2.mono (List.cons_subset.2 ⟨known, fun _ => id⟩), fun n hn => h.named n ?_⟩
  exact hn.imp_right (List.mem_cons_of_mem name)

/-- The visits that opening a node puts on the stack are of nodes it links to. -/
theorem linksTo_of_mem_fresh {marks : Fields Mark} {v : Visit}
    (hv : v ∈ fresh marks (d.references name)) : d.LinksTo name v.name :=
  Description.mem_references_iff.1 (mem_fresh_iff.1 hv).1

/-- A node leads to what is above it when it is opened, and so does what led to the node. -/
theorem leads_expand (marks : Fields Mark)
    (h : List.Pairwise (LeadsUp d) (⟨name, false⟩ :: stack)) :
    List.Pairwise (LeadsUp d) (fresh marks (d.references name) ++ ⟨name, true⟩ :: stack) := by
  obtain ⟨above, rest⟩ := List.pairwise_cons.1 h
  refine List.pairwise_append.2 ⟨?_, List.pairwise_cons.2 ⟨above, rest⟩, ?_⟩
  · refine List.pairwise_of_forall_mem_list fun v _ w hw he => ?_
    rw [(mem_fresh_iff.1 hw).2.2] at he
    cases he
  · intro v hv w hw he
    have link := linksTo_of_mem_fresh hv
    rcases List.mem_cons.1 hw with rfl | hw
    · exact .single link
    · exact (above w hw he).tail link

/-- All that a node links to is in order or above it when it is opened, if none of it is open. -/
theorem pending_expand (h : Pending d order (⟨name, false⟩ :: stack))
    (done_iff : ∀ n, marks.find? n = some .done ↔ n ∈ order)
    (closed : ∀ m ∈ d.references name, marks.find? m ≠ some .visiting) :
    Pending d order (fresh marks (d.references name) ++ ⟨name, true⟩ :: stack) := by
  refine pending_fresh _ ⟨fun _ m link => ?_, h.2.mono ?_⟩
  · have hm := Description.mem_references_iff.2 link
    cases hv : marks.find? m with
    | none =>
      have noMark := Option.isNone_iff_eq_none.2 hv
      exact List.mem_append_left _ (List.mem_reverse.2 (List.mem_filter.2 ⟨hm, noMark⟩))
    | some μ =>
      cases μ with
      | done => exact List.mem_append_right _ ((done_iff m).1 hv)
      | visiting => exact absurd hv (closed m hm)
  · exact List.cons_subset_cons name (List.subset_append_right _ order)

/-- A first visit opens a node, if the node is not open and links to no open one. -/
theorem Valid.expand (h : Valid d ⟨marks, order, ⟨name, false⟩ :: stack⟩)
    (hn : marks.find? name = none)
    (closed : ∀ m ∈ d.references name, (marks.insert name .visiting).find? m ≠ some .visiting) :
    Valid d ⟨marks.insert name .visiting, order,
      fresh (marks.insert name .visiting) (d.references name) ++ ⟨name, true⟩ :: stack⟩ := by
  have notDone : name ∉ order := by
    intro ho
    rw [(h.done_iff name).2 ho] at hn
    cases hn
  have once : name ∉ opened stack := by
    intro ho
    rw [(h.visiting_iff name).2 ho] at hn
    cases hn
  have done_iff (n : String) : (marks.insert name .visiting).find? n = some .done ↔ n ∈ order := by
    rw [Fields.find?_insert_eq_some, h.done_iff]
    by_cases hn : n = name <;> simp [hn, notDone]
  refine ⟨done_iff, fun n => ?_, ?_, h.ordered, leads_expand _ h.leads,
    pending_expand h.pending done_iff closed, fun n hn => ?_⟩
  · rw [Fields.find?_insert_eq_some, h.visiting_iff, opened_fresh_append, opened_first,
      opened_second, List.mem_cons]
    by_cases hn : n = name <;> simp [hn]
  · rw [opened_fresh_append]
    exact List.nodup_cons.2 ⟨once, h.nodup_opened⟩
  · rcases hn with hn | hn
    · exact h.named n (.inl hn)
    · rw [List.map_append, List.mem_append] at hn
      rcases hn with hn | hn
      · obtain ⟨v, hv, rfl⟩ := List.mem_map.1 hn
        obtain ⟨-, -, -, hd⟩ := linksTo_of_mem_fresh hv
        exact hd
      · exact h.named n (.inr hn)

/-- An open node leads to the node that is visited next. -/
theorem Valid.leads_to_next (h : Valid d ⟨marks, order, ⟨name, false⟩ :: stack⟩) {n : String}
    (hn : marks.find? n = some .visiting) : TransGen d.LinksTo n name := by
  obtain ⟨v, hv, he, rfl⟩ := mem_opened_iff.1 ((h.visiting_iff n).1 hn)
  rcases List.mem_cons.1 hv with rfl | hv
  · cases he
  · exact (List.pairwise_cons.1 h.leads).1 v hv he

end

/-- **A visit keeps what holds throughout the sort and loses no name**, or it finds a cycle. -/
theorem Valid.visit {s : Sorting} (h : Valid d s) {v : Visit} {stack : List Visit}
    (hs : s.stack = v :: stack) : Yields d s (visit d { s with stack } v) := by
  obtain ⟨marks, order, _⟩ := s
  obtain ⟨name, expanded⟩ := v
  subst hs
  cases expanded with
  | true => exact ⟨h.finish, fun n hn => has_finish_iff.2 hn⟩
  | false =>
    simp only [Sorting.visit, Bool.false_eq_true, if_false]
    split
    · next hm =>
      refine ⟨h.skip hm, fun n hn => ?_⟩
      rcases hn with hn | hn
      · exact .inl hn
      · rcases List.mem_cons.1 hn with rfl | hn
        · exact .inl ((h.done_iff _).1 hm)
        · exact .inr hn
    · next hm => exact ⟨name, rfl, h.leads_to_next hm⟩
    · next hm =>
      rcases expand_cases d ⟨marks, order, stack⟩ name with ⟨closed, he⟩ | ⟨m, link, hv, he⟩
      · rw [he]
        refine ⟨h.expand hm closed, fun n hn => hn.imp_right fun hn => ?_⟩
        rw [List.map_append]
        exact List.mem_append_right _ hn
      · rw [he]
        have link := Description.mem_references_iff.1 link
        refine ⟨m, rfl, ?_⟩
        rcases Fields.find?_insert_eq_some.1 hv with ⟨rfl, -⟩ | ⟨-, hv⟩
        · exact .single link
        · exact (h.leads_to_next hv).tail link

/-! ### Runs -/

/-- A run makes all visits. -/
theorem stack_of_run {s t : Sorting} (h : s.run d = .ok t) : t.stack = [] := by
  fun_induction run d s with
  | case1 s hs =>
    obtain rfl := Except.ok.inj h
    exact hs
  | case2 => cases h
  | case3 s v stack hs t' hv ih => exact ih h

/-- A run keeps what holds throughout the sort and loses no name, or it finds a cycle. -/
theorem Valid.run {s : Sorting} (h : Valid d s) : Yields d s (s.run d) := by
  fun_induction Sorting.run d s with
  | case1 s hs => exact ⟨h, fun _ => id⟩
  | case2 s v stack hs ε hv => exact hv ▸ h.visit hs
  | case3 s v stack hs t hv ih =>
    obtain ⟨ht, kept⟩ : Yields d s (.ok t) := hv ▸ h.visit hs
    have := ih ht
    cases hr : t.run d with
    | error ε => rwa [hr] at this
    | ok u =>
      rw [hr] at this
      exact ⟨this.1, fun n hn => this.2 n (kept n hn)⟩

/-- No visit is to come, and what was in order in the state `s` is so, and the given names are. -/
structure Settles (d : Description) (s : Sorting) (names : List String) (t : Sorting) : Prop where
  valid : Valid d t
  settled : t.stack = []
  kept : s.order ⊆ t.order
  added : names ⊆ t.order

/-- Before the first visit, nothing is in order and nothing is open. -/
theorem valid_empty (d : Description) : Valid d .empty :=
  ⟨fun n => by simp [empty, Fields.find?], fun n => by simp [empty, Fields.find?, opened],
    List.nodup_nil, trivial, .nil, trivial, fun n hn => by simp [Has, empty] at hn⟩

/-- Where no visit is to come, any name may be visited. -/
theorem Valid.first {s : Sorting} (h : Valid d s) (hs : s.stack = []) {name : String}
    (hn : name ∈ d.names) : Valid d { s with stack := [⟨name, false⟩] } := by
  obtain ⟨marks, order, _⟩ := s
  subst hs
  refine ⟨h.done_iff, h.visiting_iff, h.nodup_opened, h.ordered, List.pairwise_singleton ..,
    ⟨nofun, trivial⟩, fun n hm => ?_⟩
  rcases hm with hm | hm
  · exact h.named n (.inl hm)
  · obtain rfl := List.mem_singleton.1 hm
    exact hn

/-- A visit that is begun puts the node in order, or it finds a cycle. -/
theorem Valid.start {s : Sorting} (h : Valid d s) (hs : s.stack = []) {name : String}
    (hn : name ∈ d.names) :
    (∃ t, s.start d name = .ok t ∧ Settles d s [name] t)
      ∨ ∃ n, s.start d name = .error (.cycle n) ∧ TransGen d.LinksTo n n := by
  have yields := (h.first hs hn).run
  rw [Sorting.start, hs]
  cases hr : Sorting.run d { s with stack := [⟨name, false⟩] } with
  | error ε =>
    rw [hr] at yields
    obtain ⟨n, rfl, cycle⟩ := yields
    exact .inr ⟨n, rfl, cycle⟩
  | ok t =>
    rw [hr] at yields
    obtain ⟨valid, kept⟩ := yields
    have settled := stack_of_run hr
    have inOrder (n : String) (hn : n ∈ s.order ∨ n ∈ [name]) : n ∈ t.order :=
      (kept n hn).resolve_right (by simp [settled])
    exact .inl ⟨t, rfl, valid, settled, fun n hn => inOrder n (.inl hn),
      fun n hn => inOrder n (.inr hn)⟩

/-- Names that are visited in turn are put in order, or a cycle is found. -/
theorem Valid.foldlM_start {s : Sorting} (h : Valid d s) (hs : s.stack = []) {names : List String}
    (hn : names ⊆ d.names) :
    (∃ t, names.foldlM (Sorting.start d) s = .ok t ∧ Settles d s names t)
      ∨ ∃ n, names.foldlM (Sorting.start d) s = .error (.cycle n) ∧ TransGen d.LinksTo n n := by
  induction names generalizing s with
  | nil => exact .inl ⟨s, rfl, h, hs, fun _ => id, List.nil_subset _⟩
  | cons name names ih =>
    obtain ⟨hname, hn⟩ := List.cons_subset.1 hn
    rw [List.foldlM_cons]
    rcases h.start hs hname with ⟨t, ht, first⟩ | ⟨n, hc, cycle⟩
    · rw [ht]
      rcases ih first.valid first.settled hn with ⟨u, hu, rest⟩ | ⟨n, hc, cycle⟩
      · refine .inl ⟨u, hu, rest.valid, rest.settled, ?_, List.cons_subset.2 ⟨?_, rest.added⟩⟩
        · exact List.Subset.trans first.kept rest.kept
        · exact rest.kept (first.added List.mem_cons_self)
      · exact .inr ⟨n, hc, cycle⟩
    · exact .inr ⟨n, by rw [hc]; rfl, cycle⟩

end Sorting

/-! ## The sort -/

namespace Description

variable (d : Description)

/-- What the sort of a description can come to. -/
theorem order_cases :
    (∃ n t, order d = .error (.unknownTarget n t) ∧ d.Unknown n t)
      ∨ (∀ n t, ¬d.Unknown n t)
        ∧ ((∃ names, order d = .ok names ∧ d.Sorts names ∧ ∀ n, ¬TransGen d.LinksTo n n)
          ∨ ∃ n, order d = .error (.cycle n) ∧ TransGen d.LinksTo n n) := by
  unfold order
  cases hu : d.unknownTarget? with
  | some e => exact .inl ⟨e.1, e.2, rfl, unknown_of_unknownTarget? hu⟩
  | none =>
    refine .inr ⟨not_unknown_of_unknownTarget? hu, ?_⟩
    rcases (Sorting.valid_empty d).foldlM_start rfl (List.Subset.refl d.names) with
      ⟨t, ht, settles⟩ | ⟨n, hc, cycle⟩
    · have mem_iff (n : String) : n ∈ t.order ↔ n ∈ d.names :=
        ⟨fun hn => settles.valid.named n (.inl hn), fun hn => settles.added hn⟩
      refine .inl ⟨t.order.reverse, ?_, settles.valid.ordered.sorts_reverse mem_iff, ?_⟩
      · simp only [ht]
        rfl
      · intro n cycle
        obtain ⟨m, link, -⟩ := TransGen.head'_iff.1 cycle
        exact settles.valid.ordered.acyclic ((mem_iff n).2 link.mem_names) cycle
    · refine .inr ⟨n, ?_, cycle⟩
      simp only [hc]
      rfl

/-- The names that the sort gives are in order. -/
theorem sorts_of_order {d : Description} {names : List String} (h : order d = .ok names) :
    d.Sorts names := by
  rcases order_cases d with ⟨n, t, he, -⟩ | ⟨-, ⟨names', ho, sorts, -⟩ | ⟨n, he, -⟩⟩
  · cases h.symm.trans he
  · obtain rfl := Except.ok.inj (h.symm.trans ho)
    exact sorts
  · cases h.symm.trans he

/-- The sort does not report that the store failed. -/
theorem order_ne_storage {d : Description} (ε : StorageError) : order d ≠ .error (.storage ε) := by
  intro h
  rcases order_cases d with ⟨n, t, he, -⟩ | ⟨-, ⟨names, ho, -, -⟩ | ⟨n, he, -⟩⟩
  · cases h.symm.trans he
  · cases h.symm.trans ho
  · cases h.symm.trans he

/-- **The sort decides whether nodes lead back to themselves.** A target that is neither a name nor
an identifier is reported if there is one. Otherwise a cycle is reported if there is one, by a node
on it; and if there is none, the names are given, each once and after those that its node links
to. -/
theorem order_decides_acyclicity :
    ((∃ n t, order d = .error (.unknownTarget n t)) ↔ ∃ n t, d.Unknown n t)
      ∧ (∀ n t, order d = .error (.unknownTarget n t) → d.Unknown n t)
      ∧ ((∀ n t, ¬d.Unknown n t) →
        ((∃ n, order d = .error (.cycle n)) ↔ ∃ n, TransGen d.LinksTo n n)
          ∧ (∀ n, order d = .error (.cycle n) → TransGen d.LinksTo n n)
          ∧ ((∀ n, ¬TransGen d.LinksTo n n) → ∃ names, order d = .ok names ∧ d.Sorts names)) := by
  rcases order_cases d with ⟨n, t, h, unknown⟩ | ⟨known, ⟨names, h, sorts, acyclic⟩ | ⟨n, h, cycle⟩⟩
  · rw [h]
    refine ⟨⟨fun _ => ⟨n, t, unknown⟩, fun _ => ⟨n, t, rfl⟩⟩, ?_, fun known => ?_⟩
    · rintro _ _ ⟨⟩
      exact unknown
    · exact absurd unknown (known n t)
  · rw [h]
    refine ⟨⟨nofun, fun ⟨n, t, unknown⟩ => absurd unknown (known n t)⟩, nofun, fun _ => ?_⟩
    exact ⟨⟨nofun, fun ⟨n, cycle⟩ => absurd cycle (acyclic n)⟩, nofun, fun _ => ⟨names, rfl, sorts⟩⟩
  · rw [h]
    refine ⟨⟨nofun, fun ⟨n, t, unknown⟩ => absurd unknown (known n t)⟩, nofun, fun _ => ?_⟩
    refine ⟨⟨fun _ => ⟨n, cycle⟩, fun _ => ⟨n, rfl⟩⟩, ?_, fun acyclic => absurd cycle (acyclic n)⟩
    rintro _ ⟨⟩
    exact cycle

end Description

end BlockWalk
