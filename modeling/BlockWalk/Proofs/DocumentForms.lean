import BlockWalk.Proofs.Grammar
import BlockWalk.Proofs.Identifiers
import BlockWalk.Proofs.JsonText
import BlockWalk.Traversal

/-!
# Documents read back

What is written for a document is read as this document, and so for instructions and programs. The
value that is written is in the grammar and means what it was written for
(`Document.meansDocument_toJson`). Its text is read as the value, since it holds integers only, has
its members in order and is not nested deep (`Document.ofText?_toText`).

A value that is read may leave out what a written one says. To read it and write what it means makes
a written one of it, which stays as it is (`Document.forms_read_back`).
-/

namespace BlockWalk

/-! ## Members that may be left out -/

namespace Fields

/-- A member with an integer, if there is one, before another member. -/
def withCount (name : String) (a : Option UInt64) (last : String) (v : Json) : Fields Json :=
  a.toList.map (fun n => (name, Json.ofUInt64 n)) ++ [(last, v)]

variable {name last : String} (a : Option UInt64) (v : Json)

/-- No other member is there. -/
theorem namedAmong_withCount : (withCount name a last v).NamedAmong [last, name] := by
  cases a <;> simp [withCount, NamedAmong, names]

/-- The other member is found. -/
theorem find?_withCount (h : name ≠ last) : (withCount name a last v).find? last = some v := by
  cases a <;> simp [withCount, find?_cons, h]

/-- The member with the integer says what it was made of; without an integer it is left out. -/
theorem hasCount_withCount (h : name ≠ last) : (withCount name a last v).HasCount name a := by
  cases a with
  | none => exact .absent (by simp [withCount, find?, h.symm])
  | some n => exact .given (v := Json.ofUInt64 n) (by simp [withCount, find?]) ⟨n, ⟨_, _, rfl⟩, rfl⟩

end Fields

namespace Json

/-- The value has a text that is read back, and stands in `n` containers at most. -/
structure Plain (n : Nat) (v : Json) : Prop where
  /-- no number is a floating point number -/
  floatFree : v.FloatFree
  /-- the members are in order, and nothing is nested deeper -/
  tidy : v.Tidy n

variable {n : Nat} {v : Json}

theorem plain_null : Plain n null := ⟨.null, tidy_leaf n rfl rfl⟩

theorem plain_str (s : String) : Plain n (str s) := ⟨.str s, tidy_leaf n rfl rfl⟩

theorem plain_ofUInt64 (m : UInt64) : Plain n (ofUInt64 m) := ⟨.int _ _ _, tidy_leaf n rfl rfl⟩

/-- In more containers a plain value is plain as well. -/
theorem Plain.mono {m : Nat} (h : Plain n v) (hm : n ≤ m) : Plain m v := ⟨h.1, h.2.mono hm⟩

/-- An array is plain if its items are, one container further in. -/
theorem plain_arr {items : List Json} (h : ∀ v ∈ items, Plain n v) : Plain (n + 1) (arr items) :=
  ⟨.arr fun v hv => (h v hv).1, tidy_arr_iff.2 ⟨n, rfl, fun v hv => (h v hv).2⟩⟩

/-- An object is plain if its members are in order and plain, one container further in. -/
theorem plain_obj {members : Fields Json} (ordered : members.Sorted)
    (h : ∀ e ∈ members, Plain n e.2) : Plain (n + 1) (obj members) :=
  ⟨.obj fun e he => (h e he).1, tidy_obj_iff.2 ⟨n, rfl, ordered, fun e he => (h e he).2⟩⟩

/-- An object of one member is in order. -/
theorem Plain.single (h : Plain n v) (name : String) : Plain (n + 1) (obj [(name, v)]) := by
  refine plain_obj (List.pairwise_singleton ..) fun e he => ?_
  obtain rfl := List.mem_singleton.1 he
  exact h

/-- An object with a member that may be left out is in order, if that member comes first. -/
theorem Plain.withCount (h : Plain n v) {name last : String} (before : name < last)
    (a : Option UInt64) : Plain (n + 1) (obj (Fields.withCount name a last v)) := by
  cases a with
  | none => exact h.single last
  | some m =>
    refine plain_obj (List.pairwise_pair.2 before) fun e he => ?_
    rcases List.mem_pair.1 he with rfl | rfl
    · exact plain_ofUInt64 m
    · exact h

/-- The text of a plain value is read as the value. -/
theorem Plain.ofText?_compact (h : Plain maxDepth v) : ofText? v.compact = some v :=
  Json.ofText?_compact h.floatFree h.tidy.1 h.tidy.2

end Json

/-! ## What is written means what it was written for -/

/-- What is written for a pick means that pick. -/
theorem Pick.meansPick_toJson (p : Pick) : p.toJson.MeansPick p := by
  cases p with
  | field key => exact .field key
  | all => exact .all
  | position place => exact .position ⟨_, _, rfl⟩
  | slice start stop =>
    have ends : "end" ≠ "start" := by decide
    have first : (Fields.withCount "end" stop "start" (.ofUInt64 start)).HasCount "start"
        (some start) := .given (Fields.find?_withCount _ _ ends) ⟨start, ⟨_, _, rfl⟩, rfl⟩
    exact .slice (Fields.namedAmong_withCount _ _) first (Fields.hasCount_withCount _ _ ends)

/-- What is written for an instruction means that instruction. -/
theorem Selector.meansSelector_toJson (s : Selector) : s.toJson.MeansSelector s := by
  cases s with
  | pick p => exact .pick p.meansPick_toJson
  | recursive r =>
    have parts : "depthLimit" ≠ "follow" := by decide
    have picks : List.Forall₂ Json.MeansPick (r.follow.map Pick.toJson) r.follow :=
      List.forall₂_map_left_iff.2 (List.forall₂_same.2 fun p _ => p.meansPick_toJson)
    refine .recursive (Fields.namedAmong_withCount _ _) (Fields.find?_withCount _ _ parts) ?_ picks
      (Fields.hasCount_withCount _ _ parts)
    simpa using r.follow_ne_nil

/-- What is written for a program means that program. -/
theorem Selector.meansProgram_programToJson (program : List Selector) :
    (programToJson program).MeansProgram program :=
  ⟨_, rfl, List.forall₂_map_left_iff.2 (List.forall₂_same.2 fun s _ => s.meansSelector_toJson)⟩

/-- What is written for a document means that document: its root is named by its text, and its
program is always given. -/
theorem Document.meansDocument_toJson (d : Document) : d.toJson.MeansDocument d := by
  have names : Fields.NamedAmong [("root", Json.str d.root.toText),
      ("selectors", Selector.programToJson d.program)] ["root", "selectors"] := by
    simp [Fields.NamedAmong, Fields.names]
  have root : Cid.ofText d.root.toText = .ok d.root := Cid.ofText_eq_ok_iff.2 rfl
  exact .intro ⟨rfl, names⟩ rfl root (.given rfl (Selector.meansProgram_programToJson d.program))

/-! ## What is written is read from its text -/

/-- A pick is written in at most two containers, its own and that of the ends of a slice. -/
theorem Pick.plain_toJson (p : Pick) : p.toJson.Plain 2 := by
  refine Json.Plain.single ?_ p.tag
  cases p with
  | field key => exact Json.plain_str key
  | all => exact Json.plain_null
  | position place => exact Json.plain_ofUInt64 place
  | slice start stop =>
    have ordered : "end" < "start" := by decide
    exact (Json.plain_ofUInt64 start).withCount ordered stop

/-- An instruction is written in at most five containers: a recursion is an object in an object,
with the picks to follow in an array. -/
theorem Selector.plain_toJson (s : Selector) : s.toJson.Plain 5 := by
  cases s with
  | pick p => exact p.plain_toJson.mono (by omega)
  | recursive r =>
    have ordered : "depthLimit" < "follow" := by decide
    have follow : (Json.arr (r.follow.map Pick.toJson)).Plain 3 :=
      Json.plain_arr (List.forall_mem_map.2 fun p _ => p.plain_toJson)
    exact (follow.withCount ordered r.limit).single recursiveTag

/-- A program is an array of instructions. -/
theorem Selector.plain_programToJson (program : List Selector) : (programToJson program).Plain 6 :=
  Json.plain_arr (List.forall_mem_map.2 fun s _ => s.plain_toJson)

/-- A document is an object in an object, with the program in it. So all that can be written is far
from the limit of nesting. -/
theorem Document.plain_toJson (d : Document) : d.toJson.Plain 8 := by
  have ordered : "root" < "selectors" := by decide
  refine Json.Plain.single (Json.plain_obj (List.pairwise_pair.2 ordered) fun e he => ?_)
    documentTag
  rcases List.mem_pair.1 he with rfl | rfl
  · exact Json.plain_str _
  · exact Selector.plain_programToJson d.program

/-- The text of a document is read as the value that is written for it. -/
theorem Document.ofText?_toText (d : Document) : Json.ofText? d.toText = some d.toJson :=
  (d.plain_toJson.mono (by decide)).ofText?_compact

/-! ## Reading and writing -/

namespace Document

/-- What is written for the document that a value means. -/
def rewritten (v : Json) : Except SelectorError Json := toJson <$> ofJson v

/-- **What is written for a document is read as this document**, from the value and from its text,
and so for instructions and for the instructions that an ending leaves over. So what is written for
a value that was read is read as the same, and written in the same way again. -/
theorem forms_read_back :
    (∀ d : Document, ofJson d.toJson = .ok d ∧ ofBytes (.ofText d.toText) = .ok d)
      ∧ (∀ s : Selector, Selector.ofJson s.toJson = .ok s
        ∧ Json.ofText? s.toText = some s.toJson)
      ∧ (∀ ρ : Resolution, Selector.programOfJson ρ.remainingJson = .ok ρ.remaining
        ∧ Json.ofText? ρ.remainingJson.compact = some ρ.remainingJson)
      ∧ ∀ v : Json, (ofJson v >>= fun d => ofJson d.toJson) = ofJson v
        ∧ (rewritten v >>= rewritten) = rewritten v := by
  have back (d : Document) : ofJson d.toJson = .ok d := ofJson_eq_ok_iff.2 d.meansDocument_toJson
  refine ⟨fun d => ⟨back d, ?_⟩, fun s => ⟨?_, ?_⟩, fun ρ => ⟨?_, ?_⟩, fun v => ⟨?_, ?_⟩⟩
  · have bytes : Json.ofBytes? (.ofText d.toText) = some d.toJson := by
      rw [Json.ofBytes?, Bytes.toText?_ofText]
      exact d.ofText?_toText
    rw [ofBytes, bytes]
    exact back d
  · exact Selector.ofJson_eq_ok_iff.2 s.meansSelector_toJson
  · exact (s.plain_toJson.mono (by decide)).ofText?_compact
  · exact Selector.programOfJson_eq_ok_iff.2 (Selector.meansProgram_programToJson _)
  · exact ((Selector.plain_programToJson _).mono (by decide)).ofText?_compact
  · cases h : ofJson v with
    | error ε => rfl
    | ok d => exact back d
  · unfold rewritten
    cases h : ofJson v with
    | error ε => rfl
    | ok d => exact congrArg (toJson <$> ·) (back d)

end Document

end BlockWalk
