import BlockWalk.Proofs.ImportedBlocks

/-!
# How deep a node may be

A reader of JSON gives up where too many arrays and objects stand inside each other, and a writer
does not. So what a node is encoded to is read back as the node up to that limit, and beyond it is
refused (`DagJson.decodes_within_limit`).

* `Json.Reader.read_tokens_of_deep` — a value for which there is no room is refused, wherever it
  stands.
* `Node.nesting` — how deep the value of a node is: a link is one deep and a byte string two, for
  the forms that are reserved for them (`DagJson.nesting_of_toJson`).

Whatever is decoded is within the limit, so decoding, encoding and decoding again is decoding.
-/

namespace BlockWalk

/-! ## Values that are too deep -/

namespace Json

namespace Reader

/-- Parts with commas between them are refused if one of them is, and the others are read. A state
is `ready` if a part may come. -/
theorem read_intercalate_none (ready : State → Prop) {parts : List (List Token)}
    (each : ∀ ts ∈ parts, (∀ s, ready s → read s ts = none)
      ∨ ∀ s, ready s → ∃ s', read s (ts ++ [.comma]) = some s' ∧ ready s')
    (refused : ∃ ts ∈ parts, ∀ s, ready s → read s ts = none) {s : State} (hs : ready s) :
    read s (List.intercalate [.comma] parts) = none := by
  match parts with
  | [] =>
    obtain ⟨ts, hts, -⟩ := refused
    cases hts
  | [ts] =>
    obtain ⟨us, hus, none⟩ := refused
    obtain rfl := List.mem_singleton.1 hus
    rw [List.intercalate_singleton]
    exact none s hs
  | ts :: us :: parts =>
    obtain ⟨first, others⟩ := List.forall_mem_cons.1 each
    rw [List.intercalate_cons_cons, read_append]
    rcases first with none | next
    · rw [read_append, none s hs]
      rfl
    · obtain ⟨s', hs', ready'⟩ := next s hs
      rw [hs']
      refine read_intercalate_none ready others ?_ ready'
      -- the first part is read, so it is another that is refused
      obtain ⟨vs, hvs, none⟩ := refused
      rcases List.mem_cons.1 hvs with rfl | hvs
      · rw [read_append, none s hs] at hs'
        cases hs'
      · exact ⟨vs, hvs, none⟩

/-- A container is not opened where there is no room for it. -/
theorem read_push_none {κ : List Container} {t : Token} (c : Container) (p : Phase)
    (h : ¬κ.length < maxDepth) (begins : begin κ t = push c p κ) (ts : List Token) :
    read ⟨κ, .value⟩ (t :: ts) = none := by
  have first : step ⟨κ, .value⟩ t = none := begins.trans (if_neg h)
  rw [read, List.foldlM_cons, first]
  rfl

/-- Where one item is refused, and the others are read, the items of an array are refused. -/
theorem read_items_none {κ : List Container} {items : List Json}
    (each : ∀ v ∈ items, (∀ before, read ⟨.array before :: κ, .value⟩ v.tokens = none)
      ∨ ∀ before, Reads v.tokens v (.array before :: κ))
    (refused : ∃ v ∈ items, ∀ before, read ⟨.array before :: κ, .value⟩ v.tokens = none)
    (before : List Json) :
    read ⟨.array before :: κ, .value⟩ (List.intercalate [.comma] (items.map tokens)) = none := by
  let ready (s : State) : Prop := ∃ before, s = ⟨.array before :: κ, .value⟩
  have none {v : Json} (h : ∀ before, read ⟨.array before :: κ, .value⟩ v.tokens = none) (s : State)
      (hs : ready s) : read s v.tokens = none := by
    obtain ⟨before, rfl⟩ := hs
    exact h before
  obtain ⟨w, hw, deep⟩ := refused
  refine read_intercalate_none ready (List.forall_mem_map.2 fun v hv => ?_)
    ⟨_, List.mem_map_of_mem hw, none deep⟩ ⟨before, rfl⟩
  rcases each v hv with h | h
  · exact .inl (none h)
  · refine .inr fun s hs => ?_
    obtain ⟨before, rfl⟩ := hs
    refine ⟨⟨.array (v :: before) :: κ, .value⟩, ?_, _, rfl⟩
    rw [read_append, h before]
    rfl

/-- Where one value is refused, and the others are read, the members of an object are refused. -/
theorem read_members_none {κ : List Container} {members : Fields Json}
    (each : ∀ e ∈ members, (∀ φ, read ⟨.object φ e.1 :: κ, .value⟩ e.2.tokens = none)
      ∨ ∀ φ, Reads e.2.tokens e.2 (.object φ e.1 :: κ))
    (refused : ∃ e ∈ members, ∀ φ, read ⟨.object φ e.1 :: κ, .value⟩ e.2.tokens = none)
    (φ : Fields Json) (name : String) :
    read ⟨.object φ name :: κ, .name⟩ (List.intercalate [.comma] (members.map memberTokens))
      = none := by
  let ready (s : State) : Prop := ∃ φ name, s = ⟨.object φ name :: κ, .name⟩
  have none {e : String × Json} (h : ∀ φ, read ⟨.object φ e.1 :: κ, .value⟩ e.2.tokens = none)
      (s : State) (hs : ready s) : read s (memberTokens e) = none := by
    obtain ⟨φ, name, rfl⟩ := hs
    exact h φ
  obtain ⟨w, hw, deep⟩ := refused
  refine read_intercalate_none ready (List.forall_mem_map.2 fun e he => ?_)
    ⟨_, List.mem_map_of_mem hw, none deep⟩ ⟨φ, name, rfl⟩
  rcases each e he with h | h
  · exact .inl (none h)
  · refine .inr fun s hs => ?_
    obtain ⟨φ, name, rfl⟩ := hs
    refine ⟨⟨.object (φ.insert e.1 e.2) e.1 :: κ, .name⟩, ?_, _, _, rfl⟩
    rw [read_append, read_member name (h φ)]
    rfl

end Reader

open Reader

/-- An array that is too deep has an item that is. -/
theorem exists_deep_item {items : List Json} {n : Nat} (h : n + 1 < nesting (arr items)) :
    ∃ v ∈ items, n < v.nesting := by
  have h := mt nesting_arr_le_iff.2 (Nat.not_le.2 h)
  simpa using h

/-- An object that is too deep has a member that is. -/
theorem exists_deep_member {members : List (String × Json)} {n : Nat}
    (h : n + 1 < nesting (obj members)) : ∃ e ∈ members, n < e.2.nesting := by
  have h := mt nesting_obj_le_iff.2 (Nat.not_le.2 h)
  simpa using h

/-- **A value is refused where there is no room for it**, if its members are in order. -/
theorem read_tokens_of_deep {v : Json} (sorted : v.Sorted) {κ : List Container}
    (room : κ.length ≤ maxDepth) (deep : maxDepth < κ.length + v.nesting) :
    read ⟨κ, .value⟩ v.tokens = none := by
  induction v using Json.ind generalizing κ with
  | arr items ih =>
    rw [tokens_arr]
    by_cases h : κ.length < maxDepth
    · -- there is room for the array, but not for all that is in it
      obtain ⟨n, hn⟩ : ∃ n, maxDepth = κ.length + 1 + n := ⟨maxDepth - κ.length - 1, by omega⟩
      obtain ⟨w, hw, deepest⟩ := exists_deep_item (show n + 1 < nesting (arr items) by omega)
      have nonempty : items ≠ [] := List.ne_nil_of_mem hw
      have sorted : ∀ v ∈ items, v.Sorted := by
        cases sorted with
        | arr sorted => exact sorted
      have refused (v : Json) (hv : v ∈ items) (deep : n < v.nesting) (before : List Json) :
          read ⟨.array before :: κ, .value⟩ v.tokens = none :=
        ih v hv (sorted v hv) h (by rw [List.length_cons]; omega)
      have none := read_items_none (fun v hv => by
        by_cases deep : n < v.nesting
        · exact .inl (refused v hv deep)
        · exact .inr fun before => reads_tokens (sorted v hv) (by rw [List.length_cons]; omega))
        ⟨w, hw, refused w hw deepest⟩ []
      rw [← List.singleton_append, read_append, read_push _ _ h rfl, Option.bind_eq_bind,
        Option.bind_some, read_append, read_items_firstItem nonempty, none]
      rfl
    · exact read_push_none _ _ h rfl _
  | obj members ih =>
    rw [tokens_obj]
    by_cases h : κ.length < maxDepth
    · obtain ⟨n, hn⟩ : ∃ n, maxDepth = κ.length + 1 + n := ⟨maxDepth - κ.length - 1, by omega⟩
      obtain ⟨w, hw, deepest⟩ := exists_deep_member (show n + 1 < nesting (obj members) by omega)
      have nonempty : members ≠ [] := List.ne_nil_of_mem hw
      have sorted : ∀ e ∈ members, e.2.Sorted := by
        cases sorted with
        | obj _ sorted => exact sorted
      have refused (e : String × Json) (he : e ∈ members) (deep : n < e.2.nesting)
          (φ : Fields Json) : read ⟨.object φ e.1 :: κ, .value⟩ e.2.tokens = none :=
        ih e he (sorted e he) h (by rw [List.length_cons]; omega)
      have none := read_members_none (fun e he => by
        by_cases deep : n < e.2.nesting
        · exact .inl (refused e he deep)
        · exact .inr fun φ => reads_tokens (sorted e he) (by rw [List.length_cons]; omega))
        ⟨w, hw, refused w hw deepest⟩ [] ""
      rw [← List.singleton_append, read_append, read_push _ _ h rfl, Option.bind_eq_bind,
        Option.bind_some, read_append, read_members_firstName nonempty, none]
      rfl
    · exact read_push_none _ _ h rfl _
  | _ =>
    simp only [nesting] at deep
    omega

/-- **The text of a value that is too deep is refused**, if no number in it is a floating point
number and its members are in order. -/
theorem ofBytes?_toBytes_of_deep {v : Json} (exact : v.FloatFree) (sorted : v.Sorted)
    (deep : maxDepth < v.nesting) : ofBytes? v.toBytes = none := by
  have h : read ⟨[], .value⟩ v.tokens = none :=
    read_tokens_of_deep sorted (Nat.zero_le _) (by simpa using deep)
  rw [ofBytes?, toBytes, Bytes.toText?_ofText, Option.bind_eq_bind, Option.bind_some, ofText?,
    scan?_compact exact, Option.bind_eq_bind, Option.bind_some, ofTokens?,
    show v.tokens.foldlM step State.start = none from h]
  rfl

end Json

/-! ## Nodes -/

namespace Node

/-- How many arrays and objects stand inside each other in the value of a node. -/
def nesting : Node → Nat
  | list items => 1 + (items.map nesting).foldr max 0
  | map entries => 1 + (entries.map fun e => nesting e.2).foldr max 0
  | link _ => 1
  | bytes _ => 2
  | _ => 0
decreasing_by
  · decreasing_tactic
  · have := Fields.sizeOf_value_lt ‹_›
    simp only [Node.map.sizeOf_spec]
    omega

/-- No floating point number stands in the node. -/
def FloatFree (v : Node) : Prop := ∀ x, ¬(Node.float x).Occurs v

theorem FloatFree.item {items : List Node} (h : (list items).FloatFree) {v : Node}
    (hv : v ∈ items) : v.FloatFree :=
  fun x occurs => h x (.item hv occurs)

theorem FloatFree.value {entries : List (String × Node)} (h : (map entries).FloatFree)
    {e : String × Node} (he : e ∈ entries) : e.2.FloatFree :=
  fun x occurs => h x (.value he occurs)

end Node

namespace DagJson

/-- A value is nested as deep as its node. -/
theorem nesting_of_toJson {v : Node} {j : Json} (h : toJson v = .ok j) : j.nesting = v.nesting := by
  induction v using Node.ind generalizing j with
  | float x =>
    by_cases hx : x.isFinite = true
    · rw [toJson_float hx] at h
      obtain rfl := Except.ok.inj h
      simp [Json.nesting, Node.nesting]
    · rw [toJson_float_not hx] at h
      cases h
  | list items ih =>
    rw [toJson_list] at h
    obtain ⟨l, hl, h⟩ := bind_eq_ok_iff.1 h
    obtain rfl := Except.ok.inj h
    rw [Json.nesting, Node.nesting, map_eq_of_mapM (fun v hv j hj => ih v hv hj) hl]
  | map entries ih =>
    by_cases hm : entries.map Prod.fst = [reservedKey]
    · rw [toJson_map_reserved hm] at h
      cases h
    · rw [toJson_map hm] at h
      obtain ⟨l, hl, h⟩ := bind_eq_ok_iff.1 h
      obtain rfl := Except.ok.inj h
      have same : (l.map fun e => e.2.nesting) = entries.map fun e => e.2.nesting := by
        refine map_eq_of_mapM (fun e he f hf => ?_) hl
        obtain ⟨j, hj, hf⟩ := bind_eq_ok_iff.1 hf
        obtain rfl := Except.ok.inj hf
        exact ih e he hj
      rw [Json.nesting, Node.nesting, same]
  | _ =>
    rw [toJson] at h
    obtain rfl := Except.ok.inj h
    simp [reservedForm, Json.nesting, Node.nesting]

theorem sorted_reservedForm {v : Json} (h : v.Sorted) : (reservedForm v).Sorted :=
  .obj (List.pairwise_singleton ..) (List.forall_mem_singleton.2 h)

/-- The value of a node is in order if its maps are, and has no floating point numbers if it has
none. -/
theorem plain_of_toJson {v : Node} (sorted : v.Sorted) (exact : v.FloatFree) {j : Json}
    (h : toJson v = .ok j) : j.Sorted ∧ j.FloatFree := by
  induction v using Node.ind generalizing j with
  | null =>
    rw [toJson] at h
    obtain rfl := Except.ok.inj h
    exact ⟨.null, .null⟩
  | bool b =>
    rw [toJson] at h
    obtain rfl := Except.ok.inj h
    exact ⟨.bool b, .bool b⟩
  | int n =>
    rw [toJson] at h
    obtain rfl := Except.ok.inj h
    exact ⟨.num _, .int ..⟩
  | float x => exact absurd .self (exact x)
  | str s =>
    rw [toJson] at h
    obtain rfl := Except.ok.inj h
    exact ⟨.str s, .str s⟩
  | bytes β =>
    rw [toJson] at h
    obtain rfl := Except.ok.inj h
    exact ⟨sorted_reservedForm (.obj (List.pairwise_singleton ..)
      (List.forall_mem_singleton.2 (.str _))),
      floatFree_reservedForm (.obj (List.forall_mem_singleton.2 (.str _)))⟩
  | link χ =>
    rw [toJson] at h
    obtain rfl := Except.ok.inj h
    exact ⟨sorted_reservedForm (.str _), floatFree_reservedForm (.str _)⟩
  | list items ih =>
    rw [toJson_list] at h
    obtain ⟨l, hl, h⟩ := bind_eq_ok_iff.1 h
    obtain rfl := Except.ok.inj h
    have each : ∀ j ∈ l, j.Sorted ∧ j.FloatFree := by
      intro j hj
      obtain ⟨v, hv, h⟩ := exists_of_mem_mapM hl hj
      cases sorted with
      | list sorted => exact ih v hv (sorted v hv) (exact.item hv) h
    exact ⟨.arr fun j hj => (each j hj).1, .arr fun j hj => (each j hj).2⟩
  | map entries ih =>
    by_cases hm : entries.map Prod.fst = [reservedKey]
    · rw [toJson_map_reserved hm] at h
      cases h
    · rw [toJson_map hm] at h
      obtain ⟨l, hl, h⟩ := bind_eq_ok_iff.1 h
      obtain rfl := Except.ok.inj h
      obtain ⟨ordered, sorted⟩ : Fields.Sorted entries ∧ ∀ e ∈ entries, e.2.Sorted := by
        cases sorted with
        | map ordered sorted => exact ⟨ordered, sorted⟩
      -- members have the names of the entries, in the same order
      have inOrder : Fields.Sorted l := by
        have names : (entries.map Prod.fst).Pairwise (· < ·) := List.pairwise_map.2 ordered
        rw [← names_of_mapM hl] at names
        exact List.pairwise_map.1 names
      have each : ∀ f ∈ l, f.2.Sorted ∧ f.2.FloatFree := by
        intro f hf
        obtain ⟨e, he, h⟩ := exists_of_mem_mapM hl hf
        obtain ⟨j, hj, h⟩ := bind_eq_ok_iff.1 h
        obtain rfl := Except.ok.inj h
        exact ih e he (sorted e he) (exact.value he) hj
      exact ⟨.obj inOrder fun f hf => (each f hf).1, .obj fun f hf => (each f hf).2⟩

/-! ## Nodes read back -/

theorem encode_eq_ok_iff {v : Node} {β : Bytes} :
    encode v = .ok β ↔ ∃ j, toJson v = .ok j ∧ j.toBytes = β := by
  rw [encode]
  cases toJson v with
  | error ε =>
    constructor
    · intro h
      cases h
    · rintro ⟨j, hj, -⟩
      cases hj
  | ok j =>
    constructor
    · intro h
      exact ⟨j, rfl, Except.ok.inj h⟩
    · rintro ⟨i, hi, rfl⟩
      obtain rfl := Except.ok.inj hi
      rfl

theorem decode_eq_ok_iff {β : Bytes} {v : Node} :
    decode β = .ok v ↔ ∃ j, Json.ofBytes? β = some j ∧ ofJson j = .ok v := by
  rw [decode]
  cases Json.ofBytes? β with
  | none =>
    constructor
    · intro h
      cases h
    · rintro ⟨j, hj, -⟩
      cases hj
  | some j =>
    constructor
    · intro h
      exact ⟨j, rfl, h⟩
    · rintro ⟨i, hi, h⟩
      obtain rfl := Option.some.inj hi
      exact h

/-- A node that is not too deep is read back. -/
theorem decode_of_shallow {v : Node} {β : Bytes} (sorted : v.Sorted) (exact : v.FloatFree)
    (h : encode v = .ok β) (shallow : v.nesting ≤ Json.maxDepth) : decode β = .ok v := by
  obtain ⟨j, hj, rfl⟩ := encode_eq_ok_iff.1 h
  obtain ⟨sorted, exact⟩ := plain_of_toJson sorted exact hj
  refine decode_eq_ok_iff.2 ⟨j, Json.ofBytes?_toBytes exact sorted ?_, ?_⟩
  · rwa [nesting_of_toJson hj]
  · exact ofJson_of_toJson (fun χ => parseTarget_eq_ok_iff.2 rfl) hj

/-- What a node that is too deep was encoded to is no JSON for a reader. -/
theorem decode_of_deep {v : Node} {β : Bytes} (sorted : v.Sorted) (exact : v.FloatFree)
    (h : encode v = .ok β) (deep : Json.maxDepth < v.nesting) : decode β = .error .json := by
  obtain ⟨j, hj, rfl⟩ := encode_eq_ok_iff.1 h
  obtain ⟨sorted, exact⟩ := plain_of_toJson sorted exact hj
  rw [← nesting_of_toJson hj] at deep
  rw [decode, Json.ofBytes?_toBytes_of_deep exact sorted deep]

/-- What is decoded is in order, is not too deep, and can be encoded. -/
theorem encode_of_decode {β : Bytes} {v : Node} (h : decode β = .ok v) :
    v.Sorted ∧ v.nesting ≤ Json.maxDepth ∧ ∃ β', encode v = .ok β' := by
  obtain ⟨j, hj, hv⟩ := decode_eq_ok_iff.1 h
  obtain ⟨s, -, hs⟩ := Option.bind_eq_some_iff.1 hj
  have tidy := Json.tidy_of_ofText? hs
  have written := toJson_of_ofJson hv
  refine ⟨sorted_of_ofJsonResolving tidy.1 hv, ?_, _, encode_eq_ok_iff.2 ⟨_, written, rfl⟩⟩
  rw [← nesting_of_toJson written]
  exact (tidy_unpadded tidy).2

/-- **Nodes are read back up to the nesting limit of the reader.** Of the nodes without floating
point numbers, those no deeper than 127 are decoded from what they are encoded to, and deeper ones
are refused there, although they are encoded: only what cannot be written at all is not. Whatever is
decoded is encoded again, to bytes that are decoded to the same node and written again as they
are. -/
theorem decodes_within_limit :
    (∀ v β, v.Sorted → v.FloatFree → encode v = .ok β →
        (v.nesting ≤ 127 → decode β = .ok v) ∧ (128 ≤ v.nesting → decode β = .error .json))
      ∧ (∀ v, (∃ β, encode v = .ok β) ↔ ∀ w, Unwritable w → ¬w.Occurs v)
      ∧ ∀ β v, decode β = .ok v → v.FloatFree →
        ∃ β', encode v = .ok β' ∧ decode β' = .ok v
          ∧ ∀ w, decode β' = .ok w → encode w = .ok β' := by
  refine ⟨?_, ?_, ?_⟩
  · intro v β sorted exact h
    exact ⟨decode_of_shallow sorted exact h, decode_of_deep sorted exact h⟩
  · intro v
    rw [← exists_toJson_iff]
    constructor
    · rintro ⟨β, h⟩
      obtain ⟨j, hj, -⟩ := encode_eq_ok_iff.1 h
      exact ⟨j, hj⟩
    · rintro ⟨j, hj⟩
      exact ⟨j.toBytes, encode_eq_ok_iff.2 ⟨j, hj, rfl⟩⟩
  · intro β v h exact
    obtain ⟨sorted, shallow, β', written⟩ := encode_of_decode h
    have back := decode_of_shallow sorted exact written shallow
    refine ⟨β', written, back, fun w hw => ?_⟩
    rw [back] at hw
    exact Except.ok.inj hw ▸ written

/-- Lists with one item, inside each other. -/
def nested : Nat → Node
  | 0 => .null
  | n + 1 => .list [nested n]

theorem nesting_nested (n : Nat) : (nested n).nesting = n := by
  induction n with
  | zero => simp [nested, Node.nesting]
  | succ n ih =>
    rw [nested, Node.nesting, List.map_singleton, ih]
    simp [Nat.add_comm]

theorem sorted_nested (n : Nat) : (nested n).Sorted := by
  induction n with
  | zero => exact .null
  | succ n ih => exact .list (List.forall_mem_singleton.2 ih)

theorem occurs_nested {n : Nat} {w : Node} (h : w.Occurs (nested n)) : ∃ m, w = nested m := by
  induction n with
  | zero =>
    cases h
    exact ⟨0, rfl⟩
  | succ n ih =>
    cases h with
    | self => exact ⟨n + 1, rfl⟩
    | item mem h =>
      obtain rfl := List.mem_singleton.1 mem
      exact ih h

/-- A hundred and twenty-seven lists inside each other are read back, one more is too many. -/
theorem decodes_within_limit_nested :
    (∃ β, encode (nested 127) = .ok β ∧ decode β = .ok (nested 127))
      ∧ ∃ β, encode (nested 128) = .ok β ∧ decode β = .error .json := by
  obtain ⟨limit, written, -⟩ := decodes_within_limit
  have exact (n : Nat) : (nested n).FloatFree := by
    intro x occurs
    obtain ⟨m, hm⟩ := occurs_nested occurs
    cases m <;> cases hm
  have writable (n : Nat) : ∃ β, encode (nested n) = .ok β := by
    refine (written (nested n)).2 fun w hw occurs => ?_
    obtain ⟨m, rfl⟩ := occurs_nested occurs
    cases m <;> cases hw
  obtain ⟨β, hβ⟩ := writable 127
  obtain ⟨γ, hγ⟩ := writable 128
  have shallow := limit (nested 127) β (sorted_nested 127) (exact 127) hβ
  have deep := limit (nested 128) γ (sorted_nested 128) (exact 128) hγ
  exact ⟨⟨β, hβ, shallow.1 (Nat.le_of_eq (nesting_nested 127))⟩,
    ⟨γ, hγ, deep.2 (Nat.le_of_eq (nesting_nested 128).symm)⟩⟩

end DagJson

end BlockWalk
