import BlockWalk.Proofs.Readers
import BlockWalk.Selector.Document
import Mathlib.Data.List.Forall2

/-!
# The grammar of documents

Which values a reader of documents takes, and for which document it takes them, said without the
reader.

* `Json.MeansPick`, `Json.MeansSelector`, `Json.MeansDocument` — the grammar: a value means a pick,
  an instruction, a document. There is one rule for every form that a value can have.
* `Pick.ofJson_eq_ok_iff`, `Selector.ofJson_eq_ok_iff`, `Document.ofJson_eq_ok_iff` — a reader takes
  just the values of the grammar, each for what it means. This is put together from what the parts
  of a value are read to.
* `Document.ofJson_eq_invalidRoot_iff` — the one error that is not about the form of a value.
* `Document.reads_grammar` — the main statement: what is read, and which of the two kinds of error
  is the answer to everything else.
-/

namespace BlockWalk

/-! ## Parts of values -/

/-- The value is the integer `n`, which is one of sixty-four bits. -/
def Json.IsCount (v : Json) (n : UInt64) : Prop :=
  ∃ lower upper, v = .num (.int n.toNat lower upper)

namespace Fields

/-- No member has a name other than these. -/
def NamedAmong (members : Fields Json) (allowed : List String) : Prop :=
  ∀ name ∈ members.names, name ∈ allowed

/-- The member of this name means `a`, as `M` says. It may also be `null` or absent, and then means
`default`. -/
inductive HasOptional {α : Type} (members : Fields Json) (name : String) (M : Json → α → Prop)
    (default : α) : α → Prop
  /-- there is no such member -/
  | absent (h : members.find? name = none) : HasOptional members name M default default
  /-- there is one, but without a value -/
  | null (h : members.find? name = some .null) : HasOptional members name M default default
  /-- the member has a value -/
  | given {v : Json} {a : α} (h : members.find? name = some v) (means : M v a) :
      HasOptional members name M default a

/-- The member of this name is an integer; it may also be `null` or absent. -/
def HasCount (members : Fields Json) (name : String) (a : Option UInt64) : Prop :=
  members.HasOptional name (fun v a => ∃ n, v.IsCount n ∧ some n = a) none a

end Fields

/-! ## Rules -/

/-- The value means the pick. -/
inductive Json.MeansPick : Json → Pick → Prop
  /-- a text is the key -/
  | field (key : String) : MeansPick (.obj [("selectPath", .str key)]) (.field key)
  /-- nothing more is to be said -/
  | all : MeansPick (.obj [("selectArrayAll", .null)]) .all
  /-- an integer is the place -/
  | position {v : Json} {n : UInt64} (place : v.IsCount n) :
      MeansPick (.obj [("selectArrayPosition", v)]) (.position n)
  /-- integers are the ends of the range; both may be left out -/
  | slice {members : Fields Json} {start stop : Option UInt64}
      (names : members.NamedAmong ["start", "end"]) (first : members.HasCount "start" start)
      (last : members.HasCount "end" stop) :
      MeansPick (.obj [("selectArraySlice", .obj members)]) (.slice (start.getD 0) stop)

/-- The value means the instruction. -/
inductive Json.MeansSelector : Json → Selector → Prop
  /-- a pick -/
  | pick {v : Json} {p : Pick} (h : v.MeansPick p) : MeansSelector v (.pick p)
  /-- a recursion over an array of picks, at least one; an integer is the limit, and may be left
  out -/
  | recursive {members : Fields Json} {items : List Json} {r : Recursion}
      (names : members.NamedAmong ["follow", "depthLimit"])
      (follow : members.find? "follow" = some (.arr items)) (nonempty : items ≠ [])
      (picks : List.Forall₂ MeansPick items r.follow)
      (limit : members.HasCount "depthLimit" r.limit) :
      MeansSelector (.obj [("selectRecursive", .obj members)]) (.recursive r)

/-- The value means the program. -/
def Json.MeansProgram (v : Json) (program : List Selector) : Prop :=
  ∃ items, v = .arr items ∧ List.Forall₂ MeansSelector items program

/-- The value has the outer form of a document with these members. -/
structure Json.FramesDocument (v : Json) (members : Fields Json) : Prop where
  /-- the members stand under the name of a document -/
  frame : v = .obj [("cidRootedSelector", .obj members)]
  /-- none of them is unknown -/
  names : members.NamedAmong ["root", "selectors"]

/-- The value means the document. -/
inductive Json.MeansDocument : Json → Document → Prop
  /-- the root by its text form, and a program, which may be left out -/
  | intro {v : Json} {members : Fields Json} {s : String} {d : Document}
      (frame : v.FramesDocument members) (root : members.find? "root" = some (.str s))
      (identifier : Cid.ofText s = .ok d.root)
      (program : members.HasOptional "selectors" MeansProgram [] d.program) :
      MeansDocument v d

/-- The value has the outer form of a document whose root is a text, but no identifier. -/
def Json.MisnamesRoot (v : Json) (ε : Cid.Error) : Prop :=
  ∃ members s, v.FramesDocument members ∧ members.find? "root" = some (.str s)
    ∧ Cid.ofText s = .error ε

/-! ## Reading parts -/

theorem Json.asUInt64?_eq_some_iff {v : Json} {n : UInt64} :
    v.asUInt64? = some n ↔ v.IsCount n := by
  refine ⟨fun h => ?_, ?_⟩
  · unfold asUInt64? at h
    split at h
    · next i lower upper =>
      obtain ⟨positive, h⟩ := Option.ite_none_right_eq_some.1 h
      have small : i.toNat < 2 ^ 64 := by omega
      have back : (n.toNat : Int) = i := by
        rw [← Option.some.inj h, Nat.toUInt64_eq, UInt64.toNat_ofNat_of_lt' small]
        exact Int.toNat_of_nonneg positive
      exact ⟨by omega, by omega, by simp only [back]⟩
    · cases h
  · rintro ⟨lower, upper, rfl⟩
    simp [asUInt64?]

/-- A list is read item by item. -/
theorem mapM_eq_ok_iff_forall₂ {ε α β : Type} {f : α → Except ε β} {l : List α} {bs : List β} :
    l.mapM f = .ok bs ↔ List.Forall₂ (fun a b => f a = .ok b) l bs := by
  induction l generalizing bs with
  | nil => simp [pure, Except.pure, eq_comm]
  | cons a l ih =>
    rw [mapM_cons_eq_ok_iff, List.forall₂_cons_left_iff]
    simp only [ih]

namespace Selector

variable {what name tag : String} {v body : Json} {members : Fields Json}

theorem membersOf_eq_ok_iff : membersOf what v = .ok members ↔ v = .obj members := by
  cases v <;> simp [membersOf, Json.asMembers?]

theorem oneField_eq_ok_iff : oneField what v = .ok (tag, body) ↔ v = .obj [(tag, body)] := by
  rw [oneField, bind_eq_ok_iff]
  simp only [membersOf_eq_ok_iff]
  refine ⟨?_, fun h => ⟨_, h, rfl⟩⟩
  rintro ⟨members, rfl, h⟩
  match members, h with
  | [e], h => rw [show e = (tag, body) from Except.ok.inj h]

/-- What is done with the one member of an object is done with objects of one member. -/
theorem bind_oneField_eq_ok_iff {α : Type} {k : String × Json → Except Fault α} {a : α} :
    oneField what v >>= k = .ok a ↔ ∃ tag body, v = .obj [(tag, body)] ∧ k (tag, body) = .ok a := by
  simp only [bind_eq_ok_iff, Prod.exists, oneField_eq_ok_iff]

theorem onlyFields_eq_ok_iff {allowed : List String} {u : Unit} :
    onlyFields what allowed members = .ok u ↔ members.NamedAmong allowed := by
  unfold onlyFields Fields.NamedAmong
  split
  · next name hn =>
    have unknown := List.find?_some hn
    have mem := List.mem_of_find?_eq_some hn
    refine ⟨nofun, fun h => ?_⟩
    simp [h name mem] at unknown
  · next hn => simpa using hn

theorem countOf_eq_ok_iff {n : UInt64} : countOf what v = .ok n ↔ v.IsCount n := by
  rw [← Json.asUInt64?_eq_some_iff, countOf]
  cases v.asUInt64? <;> simp

/-- What may be left out is read where it is there, and else taken as it is meant. -/
theorem optional_eq_ok_iff {α : Type} {read : Json → Except Fault α} {M : Json → α → Prop}
    {default a : α} (spec : ∀ v a, read v = .ok a ↔ M v a) (noNull : ∀ a, ¬M .null a) :
    (match members.find? name with
      | none | some .null => Except.ok default
      | some v => read v) = .ok a ↔ members.HasOptional name M default a := by
  split
  · next h =>
    refine ⟨fun ha => Except.ok.inj ha ▸ .absent h, fun ha => ?_⟩
    cases ha with
    | given hv means => cases h.symm.trans hv
    | _ => rfl
  · next h =>
    refine ⟨fun ha => Except.ok.inj ha ▸ .null h, fun ha => ?_⟩
    cases ha with
    | given hv means =>
      obtain rfl := Option.some.inj (h.symm.trans hv)
      exact absurd means (noNull a)
    | _ => rfl
  · next v hne h =>
    refine ⟨fun ha => .given h ((spec v a).1 ha), fun ha => ?_⟩
    cases ha with
    | absent hv => cases h.symm.trans hv
    | null hv => exact (hne (Option.some.inj (h.symm.trans hv))).elim
    | given hv means =>
      obtain rfl := Option.some.inj (h.symm.trans hv)
      exact (spec v a).2 means

theorem countOf?_eq_ok_iff {a : Option UInt64} :
    countOf? name members = .ok a ↔ members.HasCount name a := by
  have spec (v : Json) (a : Option UInt64) :
      some <$> countOf name v = .ok a ↔ ∃ n, v.IsCount n ∧ some n = a := by
    simp only [map_eq_ok_iff, countOf_eq_ok_iff]
  refine optional_eq_ok_iff spec ?_
  rintro a ⟨n, ⟨lower, upper, h⟩, -⟩
  cases h

end Selector

/-! ## Reading instructions -/

namespace Pick

open Selector

variable {tag : String} {v : Json} {p : Pick}

theorem ofKey_eq_ok_iff : ofKey v = .ok p ↔ ∃ key, v = .str key ∧ p = .field key := by
  cases v <;> simp [ofKey, Json.asText?, eq_comm]

theorem ofRange_eq_ok_iff :
    ofRange v = .ok p ↔ ∃ (members : Fields Json) (start stop : Option UInt64), v = .obj members
      ∧ members.NamedAmong ["start", "end"] ∧ members.HasCount "start" start
      ∧ members.HasCount "end" stop ∧ p = .slice (start.getD 0) stop := by
  simp only [ofRange, bind_eq_ok_iff, membersOf_eq_ok_iff, onlyFields_eq_ok_iff,
    countOf?_eq_ok_iff]
  refine ⟨?_, ?_⟩
  · rintro ⟨members, hv, -, names, start, first, stop, last, hp⟩
    exact ⟨members, start, stop, hv, names, first, last, (Except.ok.inj hp).symm⟩
  · rintro ⟨members, start, stop, hv, names, first, last, rfl⟩
    exact ⟨members, hv, (), names, start, first, stop, last, rfl⟩

/-- The pick of a name is read from what the name stands before. -/
theorem ofField_eq_ok_iff : ofField tag v = .ok p ↔ Json.MeansPick (.obj [(tag, v)]) p := by
  refine ⟨fun h => ?_, fun h => ?_⟩
  · unfold ofField at h
    split_ifs at h with isField isAll isNull isPosition isSlice
    · obtain ⟨key, rfl, rfl⟩ := ofKey_eq_ok_iff.1 h
      exact isField ▸ .field key
    · obtain rfl : v = .null := by cases v <;> simp at isNull ⊢
      obtain rfl := Except.ok.inj h
      exact isAll ▸ .all
    · obtain ⟨n, hn, rfl⟩ := map_eq_ok_iff.1 h
      exact isPosition ▸ .position (countOf_eq_ok_iff.1 hn)
    · obtain ⟨members, start, stop, rfl, names, first, last, rfl⟩ := ofRange_eq_ok_iff.1 h
      exact isSlice ▸ .slice names first last
  · cases h with
    | field key => rfl
    | all => rfl
    | @position _ n place =>
      have hp : Pick.position <$> countOf positionTag v = .ok (.position n) :=
        map_eq_ok_iff.2 ⟨n, countOf_eq_ok_iff.2 place, rfl⟩
      simpa [ofField, fieldTag, allTag, positionTag] using hp
    | slice names first last =>
      have hr := ofRange_eq_ok_iff.2 ⟨_, _, _, rfl, names, first, last, rfl⟩
      simpa [ofField, fieldTag, allTag, positionTag, sliceTag] using hr

/-- A value that means a pick has one member, and not that of a recursion. -/
theorem exists_tag_of_meansPick (h : v.MeansPick p) :
    ∃ tag body, v = .obj [(tag, body)] ∧ tag ≠ recursiveTag := by
  cases h <;> exact ⟨_, _, rfl, by simp [recursiveTag]⟩

/-- A pick is read from the values that mean it. -/
theorem ofJson_eq_ok_iff : ofJson v = .ok p ↔ v.MeansPick p := by
  have checked (tag : String) (body : Json) := check_eq_ok_iff (c := tag = recursiveTag)
    (e := Fault.nestedRecursion) (y := ofField tag body) (b := p)
  rw [ofJson, bind_oneField_eq_ok_iff]
  refine ⟨?_, fun h => ?_⟩
  · rintro ⟨tag, body, rfl, h⟩
    exact ofField_eq_ok_iff.1 ((checked tag body).1 h).2
  · obtain ⟨tag, body, rfl, ht⟩ := exists_tag_of_meansPick h
    exact ⟨tag, body, rfl, (checked tag body).2 ⟨ht, ofField_eq_ok_iff.2 h⟩⟩

end Pick

namespace Recursion

open Selector

variable {v : Json} {r : Recursion}

theorem ofPicks_eq_ok_iff {follow : List Pick} {limit : Option UInt64} :
    ofPicks follow limit = .ok r ↔ r.follow = follow ∧ r.limit = limit := by
  unfold ofPicks
  split
  · next h =>
    refine ⟨fun hr => Except.ok.inj hr ▸ ⟨rfl, rfl⟩, ?_⟩
    rintro ⟨rfl, rfl⟩
    rfl
  · next h =>
    refine ⟨nofun, ?_⟩
    rintro ⟨rfl, -⟩
    exact absurd r.follow_ne_nil h

/-- A recursion is read from the members that describe it. -/
theorem ofBody_eq_ok_iff :
    ofBody v = .ok r ↔ Json.MeansSelector (.obj [("selectRecursive", v)]) (.recursive r) := by
  simp only [ofBody, bind_eq_ok_iff, membersOf_eq_ok_iff, onlyFields_eq_ok_iff]
  refine ⟨?_, fun h => ?_⟩
  · rintro ⟨members, rfl, -, names, h⟩
    split at h
    · cases h
    · next items hi =>
      simp only [bind_eq_ok_iff, mapM_eq_ok_iff_forall₂, Pick.ofJson_eq_ok_iff, countOf?_eq_ok_iff,
        ofPicks_eq_ok_iff] at h
      obtain ⟨follow, picks, limit, hl, rfl, rfl⟩ := h
      obtain ⟨w, hw, hi⟩ := Option.bind_eq_some_iff.1 hi
      obtain rfl : w = .arr items := by
        cases w <;> simp [Json.asItems?] at hi
        rw [hi]
      refine .recursive names hw ?_ picks hl
      rintro rfl
      exact r.follow_ne_nil (List.forall₂_nil_left_iff.1 picks)
  · cases h with
    | @recursive members items _ names follow nonempty picks limit =>
      refine ⟨members, rfl, (), names, ?_⟩
      simp only [follow, Option.bind_eq_bind, Option.bind_some, Json.asItems?]
      simp only [bind_eq_ok_iff, mapM_eq_ok_iff_forall₂, Pick.ofJson_eq_ok_iff, countOf?_eq_ok_iff,
        ofPicks_eq_ok_iff]
      exact ⟨r.follow, picks, r.limit, limit, rfl, rfl⟩

end Recursion

namespace Selector

variable {v : Json} {s : Selector} {program : List Selector}

/-- An instruction is read from the values that mean it. -/
theorem ofJson_eq_ok_iff : ofJson v = .ok s ↔ v.MeansSelector s := by
  rw [ofJson, bind_oneField_eq_ok_iff]
  refine ⟨?_, fun h => ?_⟩
  · rintro ⟨tag, body, rfl, h⟩
    dsimp only at h
    split at h
    · next ht =>
      obtain ⟨r, hr, rfl⟩ := map_eq_ok_iff.1 h
      obtain rfl : tag = recursiveTag := ht
      exact Recursion.ofBody_eq_ok_iff.1 hr
    · obtain ⟨p, hp, rfl⟩ := map_eq_ok_iff.1 h
      exact .pick (Pick.ofField_eq_ok_iff.1 hp)
  · cases h with
    | @pick _ p h =>
      obtain ⟨tag, body, rfl, ht⟩ := Pick.exists_tag_of_meansPick h
      refine ⟨tag, body, rfl, ?_⟩
      dsimp only
      rw [if_neg ht]
      exact map_eq_ok_iff.2 ⟨p, Pick.ofField_eq_ok_iff.2 h, rfl⟩
    | @recursive members items r names follow nonempty picks limit =>
      have hr := Recursion.ofBody_eq_ok_iff.2 (.recursive names follow nonempty picks limit)
      exact ⟨recursiveTag, .obj members, rfl, map_eq_ok_iff.2 ⟨r, hr, rfl⟩⟩

/-- Picks are the picks of the instructions that they are. -/
theorem mapM_asPick?_map (picks : List Pick) : (picks.map pick).mapM asPick? = some picks := by
  induction picks with
  | nil => rfl
  | cons p picks ih =>
    rw [List.map_cons, List.mapM_cons, ih]
    rfl

/-- A program is read from an array of values that mean its instructions. -/
theorem programOfJson_eq_ok_iff : programOfJson v = .ok program ↔ v.MeansProgram program := by
  unfold Json.MeansProgram
  cases v <;> simp [programOfJson, Json.asItems?, mapM_eq_ok_iff_forall₂, ofJson_eq_ok_iff]

end Selector

/-! ## Reading documents -/

namespace Document

open Selector

variable {v : Json} {members : Fields Json} {d : Document} {program : List Selector}

theorem membersOf_eq_ok_iff : membersOf v = .ok members ↔ v.FramesDocument members := by
  have checked (tag : String) (body : Json) := check_eq_ok_iff (c := tag ≠ documentTag)
    (e := Fault.unknownDocument tag) (b := members)
    (y := Selector.membersOf (named documentTag) body >>= fun members =>
      onlyFields (named documentTag) ["root", "selectors"] members >>= fun _ => .ok members)
  rw [membersOf, bind_oneField_eq_ok_iff]
  refine ⟨?_, ?_⟩
  · rintro ⟨tag, body, rfl, h⟩
    obtain ⟨ht, h⟩ := (checked tag body).1 h
    obtain ⟨members', hb, h⟩ := bind_eq_ok_iff.1 h
    obtain ⟨_, names, h⟩ := bind_eq_ok_iff.1 h
    obtain rfl := Except.ok.inj h
    obtain rfl := Selector.membersOf_eq_ok_iff.1 hb
    obtain rfl := Decidable.not_not.1 ht
    exact ⟨rfl, onlyFields_eq_ok_iff.1 names⟩
  · rintro ⟨rfl, names⟩
    refine ⟨documentTag, .obj members, rfl, (checked _ _).2 ⟨fun h => h rfl, ?_⟩⟩
    have hm : Selector.membersOf (named documentTag) (.obj members) = .ok members :=
      Selector.membersOf_eq_ok_iff.2 rfl
    have hn : onlyFields (named documentTag) ["root", "selectors"] members = .ok () :=
      onlyFields_eq_ok_iff.2 names
    exact bind_eq_ok_iff.2 ⟨members, hm, bind_eq_ok_iff.2 ⟨(), hn, rfl⟩⟩

theorem programOf_eq_ok_iff :
    programOf members = .ok program
      ↔ members.HasOptional "selectors" Json.MeansProgram [] program := by
  refine optional_eq_ok_iff (fun v program => programOfJson_eq_ok_iff) ?_
  rintro program ⟨items, h, -⟩
  cases h

/-- The root is read from the text of the member of this name. -/
theorem rootOf_eq_ok_iff {χ : Cid} :
    rootOf members = .ok χ
      ↔ ∃ s, members.find? "root" = some (.str s) ∧ Cid.ofText s = .ok χ := by
  unfold rootOf
  cases hr : members.find? "root" with
  | none => simp
  | some w => cases w <;> simp [Json.asText?, mapError_eq_ok_iff]

theorem rootOf_eq_invalidRoot_iff {ε : Cid.Error} :
    rootOf members = .error (.invalidRoot ε)
      ↔ ∃ s, members.find? "root" = some (.str s) ∧ Cid.ofText s = .error ε := by
  unfold rootOf
  cases hr : members.find? "root" with
  | none => simp
  | some w => cases w <;> simp [Json.asText?, mapError_eq_error_iff]

/-- A document is read from the values that mean it. -/
theorem ofJson_eq_ok_iff : ofJson v = .ok d ↔ v.MeansDocument d := by
  simp only [ofJson, bind_eq_ok_iff, mapError_eq_ok_iff, membersOf_eq_ok_iff, rootOf_eq_ok_iff,
    programOf_eq_ok_iff]
  refine ⟨?_, fun h => ?_⟩
  · rintro ⟨members, frame, χ, ⟨s, root, identifier⟩, program, hp, hd⟩
    obtain rfl := Except.ok.inj hd
    exact .intro frame root identifier hp
  · obtain ⟨frame, root, identifier, hp⟩ := h
    exact ⟨_, frame, d.root, ⟨_, root, identifier⟩, d.program, hp, rfl⟩

/-- The root is looked at before the program, and after the outer form. -/
theorem ofJson_eq_invalidRoot_iff {ε : Cid.Error} :
    ofJson v = .error (.invalidRoot ε) ↔ v.MisnamesRoot ε := by
  simp only [ofJson, bind_eq_error_iff, mapError_eq_error_iff, mapError_eq_ok_iff,
    membersOf_eq_ok_iff, rootOf_eq_invalidRoot_iff]
  refine ⟨?_, ?_⟩
  · rintro (⟨fault, -, h⟩ | ⟨members, frame, ⟨s, root, bad⟩ | ⟨χ, -, ⟨fault, -, h⟩ | h⟩⟩)
    · cases h
    · exact ⟨members, s, frame, root, bad⟩
    · cases h
    · obtain ⟨program, -, h⟩ := h
      cases h
  · rintro ⟨members, s, frame, root, bad⟩
    exact .inr ⟨members, frame, .inl ⟨s, root, bad⟩⟩

/-- What a reader of documents makes of a value. -/
structure ReadsGrammar (v : Json) : Prop where
  /-- it is read if it means a document, and as that document -/
  accepted : ∀ d, ofJson v = .ok d ↔ v.MeansDocument d
  /-- it is refused for its root if that is a text, but no identifier, and the outer form is
  right; it does not matter what the program is -/
  misnamed : ∀ ε, ofJson v = .error (.invalidRoot ε) ↔ v.MisnamesRoot ε
  /-- all else is refused for its form -/
  malformed : (∃ fault, ofJson v = .error (.invalid fault))
    ↔ (∀ d, ¬v.MeansDocument d) ∧ ∀ ε, ¬v.MisnamesRoot ε
  /-- the recursions of what is read repeat something, and no recursion: they can be put together
  from their instructions -/
  recursions : ∀ d, ofJson v = .ok d → ∀ r, .recursive r ∈ d.program →
    r.follow ≠ [] ∧ Recursion.ofSelectors (r.follow.map .pick) r.limit = .ok r

/-- **A reader of documents takes just the values of the grammar**, each for what it means. What is
not in the grammar is refused, for its root if nothing before that is wrong, and else for its
form. -/
theorem reads_grammar (v : Json) : ReadsGrammar v where
  accepted d := ofJson_eq_ok_iff
  misnamed ε := ofJson_eq_invalidRoot_iff
  malformed := by
    simp only [← ofJson_eq_ok_iff, ← ofJson_eq_invalidRoot_iff]
    rcases ofJson v with (fault | ε) | d
    · simp
    · simp
    · simp
  recursions d hd r hr := by
    refine ⟨r.follow_ne_nil, ?_⟩
    rw [Recursion.ofSelectors, mapM_asPick?_map]
    exact Recursion.ofPicks_eq_ok_iff.2 ⟨rfl, rfl⟩

end Document

end BlockWalk
