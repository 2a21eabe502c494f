import BlockWalk.Proofs.BinaryForm
import BlockWalk.Proofs.Importing
import BlockWalk.Proofs.JsonText

/-!
# Blocks that are read back

The node of a described value is encoded, and what its block is decoded to is the same node. For the
binary form this is so for every node in order. JSON has to be read as a text again, so it matters
what the value looked like: replacing names by identifiers, and byte strings by others, makes no
value deeper or less orderly than it was (`Json.Tidy.replace`).

`Codec.ReadsBack` says what both codecs have in common: `Codec.readsBack_dagJson` and
`Codec.readsBack_dagBinary`.
-/

namespace BlockWalk

/-! ## Replacing parts of a value -/

namespace Json

variable {f : Json → Option Json}

/-- Members whose values are changed stay in order. -/
theorem sorted_map_snd {members : Fields Json} (h : members.Sorted) (g : Json → Json) :
    Fields.Sorted (members.map fun e => (e.1, g e.2)) :=
  List.pairwise_map.2 h

/-- Integers stay integers, if what is put in has no other numbers. -/
theorem FloatFree.replace (hf : ∀ v w, f v = some w → w.FloatFree) {v : Json} (h : v.FloatFree) :
    (v.replace f).FloatFree := by
  induction v using Json.ind with
  | arr items ih =>
    cases hv : f (.arr items) with
    | some w => exact replace_of_some hv ▸ hf _ w hv
    | none =>
      cases h with
      | arr h =>
        rw [replace_arr hv]
        exact .arr (List.forall_mem_map.2 fun v hv => ih v hv (h v hv))
  | obj members ih =>
    cases hv : f (.obj members) with
    | some w => exact replace_of_some hv ▸ hf _ w hv
    | none =>
      cases h with
      | obj h =>
        rw [replace_obj hv]
        exact .obj (List.forall_mem_map.2 fun e he => ih e he (h e he))
  | _ =>
    cases hv : f _ with
    | some w => exact replace_of_some hv ▸ hf _ w hv
    | none => rwa [replace_leaf hv rfl rfl]

/-- A value stays in order and gets no deeper, if what is put in is no deeper than what it is put in
for. -/
theorem Tidy.replace (hf : ∀ v w, f v = some w → ∀ n, Tidy n v → Tidy n w) {n : Nat} {v : Json}
    (h : Tidy n v) : Tidy n (v.replace f) := by
  induction v using Json.ind generalizing n with
  | arr items ih =>
    cases hv : f (.arr items) with
    | some w => exact replace_of_some hv ▸ hf _ w hv n h
    | none =>
      obtain ⟨m, rfl, hm⟩ := tidy_arr_iff.1 h
      rw [replace_arr hv]
      exact tidy_arr_iff.2 ⟨m, rfl, List.forall_mem_map.2 fun v hv => ih v hv (hm v hv)⟩
  | obj members ih =>
    cases hv : f (.obj members) with
    | some w => exact replace_of_some hv ▸ hf _ w hv n h
    | none =>
      obtain ⟨m, rfl, ordered, hm⟩ := tidy_obj_iff.1 h
      rw [replace_obj hv]
      exact tidy_obj_iff.2 ⟨m, rfl, sorted_map_snd ordered _,
        List.forall_mem_map.2 fun e he => ih e he (hm e he)⟩
  | _ =>
    cases hv : f _ with
    | some w => exact replace_of_some hv ▸ hf _ w hv n h
    | none => rwa [replace_leaf hv rfl rfl]

end Json

namespace DagJson

/-! ## Links and byte strings that are written anew -/

/-- A reserved form holds integers only if what is in it does. -/
theorem floatFree_reservedForm {v : Json} (h : v.FloatFree) : (reservedForm v).FloatFree :=
  .obj (List.forall_mem_singleton.2 h)

/-- A reserved form is one deeper than what is in it. -/
theorem tidy_reservedForm_iff {n : Nat} {v : Json} :
    (reservedForm v).Tidy n ↔ ∃ m, n = m + 1 ∧ v.Tidy m := by
  have ordered : Fields.Sorted [(reservedKey, v)] := List.pairwise_singleton ..
  rw [reservedForm, Json.tidy_obj_iff]
  simp only [ordered, true_and, List.forall_mem_singleton]

/-- A value with a target is the link to it, and has nothing else in it. -/
theorem eq_reservedForm_of_linkTarget? {v : Json} {target : String}
    (h : linkTarget? v = some target) : v = reservedForm (.str target) := by
  cases v with
  | obj members =>
    obtain ⟨w, hw, ht⟩ := Option.bind_eq_some_iff.1 h
    obtain rfl := reserved?_eq_some_iff.1 hw
    cases w with
    | str s =>
      obtain rfl := Option.some.inj ht
      rfl
    | _ => cases ht
  | _ => cases h

/-- A value with symbols is the byte string of them, and has nothing else in it. -/
theorem eq_bytesForm_of_symbols? {v : Json} {s : String} (h : symbols? v = some s) :
    v = bytesForm s := by
  cases v with
  | obj members =>
    unfold symbols? at h
    dsimp only at h
    split at h
    · next k t hm =>
      split at h
      · next hk =>
        obtain rfl := Option.some.inj h
        obtain rfl := reserved?_eq_some_iff.1 hm
        rw [hk]
        rfl
      · cases h
    · cases h
  | _ => cases h

/-- Taking padding away makes no floating point number. -/
theorem floatFree_unpadded {v : Json} (h : v.FloatFree) : (unpadded v).FloatFree := by
  refine h.replace fun w u hw => ?_
  obtain ⟨s, -, rfl⟩ := Option.map_eq_some_iff.1 hw
  exact floatFree_reservedForm (.obj (List.forall_mem_singleton.2 (.str _)))

/-- Taking padding away keeps the order of members and the nesting. -/
theorem tidy_unpadded {n : Nat} {v : Json} (h : v.Tidy n) : (unpadded v).Tidy n := by
  refine h.replace fun w u hw n hn => ?_
  obtain ⟨s, hs, rfl⟩ := Option.map_eq_some_iff.1 hw
  obtain rfl := eq_bytesForm_of_symbols? hs
  obtain ⟨m, rfl, hm⟩ := tidy_reservedForm_iff.1 hn
  obtain ⟨l, rfl, -, -⟩ := Json.tidy_obj_iff.1 hm
  exact tidy_reservedForm_iff.2 ⟨_, rfl, Json.tidy_obj_iff.2 ⟨l, rfl, List.pairwise_singleton ..,
    List.forall_mem_singleton.2 (Json.tidy_leaf l rfl rfl)⟩⟩

end DagJson

namespace Description

open DagJson

/-- Linking makes no floating point number. -/
theorem floatFree_linked (cids : Fields Cid) {v : Json} (h : v.FloatFree) :
    (linked cids v).FloatFree := by
  refine h.replace fun w u hw => ?_
  obtain ⟨χ, -, rfl⟩ := Option.map_eq_some_iff.1 hw
  exact floatFree_reservedForm (.str _)

/-- Linking keeps the order of members and the nesting. -/
theorem tidy_linked (cids : Fields Cid) {n : Nat} {v : Json} (h : v.Tidy n) :
    (linked cids v).Tidy n := by
  refine h.replace fun w u hw n hn => ?_
  obtain ⟨χ, hχ, rfl⟩ := Option.map_eq_some_iff.1 hw
  obtain ⟨target, ht, -⟩ := Option.bind_eq_some_iff.1 hχ
  obtain rfl := eq_reservedForm_of_linkTarget? ht
  obtain ⟨m, rfl, -⟩ := tidy_reservedForm_iff.1 hn
  exact tidy_reservedForm_iff.2 ⟨m, rfl, Json.tidy_leaf m rfl rfl⟩

end Description

/-! ## Nodes are read back -/

namespace DagJson

/-- A node is in order if the value that it is read from is. -/
theorem sorted_of_ofJsonResolving {r : String → Except DecodeError Cid} {v : Json} {node : Node}
    (sorted : v.Sorted) (h : ofJsonResolving r v = .ok node) : node.Sorted := by
  induction v using Json.ind generalizing node with
  | null =>
    rw [ofJsonResolving_null] at h
    exact Except.ok.inj h ▸ .null
  | bool b =>
    rw [ofJsonResolving_bool] at h
    exact Except.ok.inj h ▸ .bool b
  | num n =>
    rw [ofJsonResolving_num, ofNumber.eq_def] at h
    split at h
    · split at h
      · exact Except.ok.inj h ▸ .int _
      · cases h
    · exact Except.ok.inj h ▸ .float _
  | str s =>
    rw [ofJsonResolving_str] at h
    exact Except.ok.inj h ▸ .str s
  | arr items ih =>
    rw [ofJsonResolving_arr] at h
    obtain ⟨l, hl, h⟩ := bind_eq_ok_iff.1 h
    obtain rfl := Except.ok.inj h
    cases sorted with
    | arr sorted =>
      refine .list fun w hw => ?_
      obtain ⟨v, hv, h⟩ := exists_of_mem_mapM hl hw
      exact ih v hv (sorted v hv) h
  | obj members ih =>
    obtain ⟨target, χ, -, -, rfl⟩ | ⟨inner, β, -, -, rfl⟩ | ⟨entries, -, he, rfl⟩ :=
      ofJsonResolving_obj_cases h
    · exact .link χ
    · exact .bytes β
    · cases sorted with
      | obj ordered sorted =>
        have inOrder : Fields.Sorted entries := by
          have names : (members.map Prod.fst).Pairwise (· < ·) := List.pairwise_map.2 ordered
          rw [← names_of_mapM he] at names
          exact List.pairwise_map.1 names
        refine .map inOrder fun e hm => ?_
        obtain ⟨f, hf, h⟩ := exists_of_mem_mapM he hm
        obtain ⟨v, hv, h⟩ := bind_eq_ok_iff.1 h
        obtain rfl := Except.ok.inj h
        exact ih f hf (sorted f hf) hv

/-- **A node that is read from a value is read back from the bytes that it is encoded to**, if the
value holds integers only, is in order and not nested too deep. -/
theorem decode_of_encode {v : Json} {node : Node} {β : Bytes} (exact : v.FloatFree)
    (tidy : v.Tidy Json.maxDepth) (hv : ofJson v = .ok node) (h : encode node = .ok β) :
    decode β = .ok node := by
  have written := toJson_of_ofJson hv
  rw [encode, written] at h
  obtain rfl := Except.ok.inj h
  obtain ⟨sorted, deep⟩ := tidy_unpadded tidy
  rw [decode, Json.ofBytes?_toBytes (floatFree_unpadded exact) sorted deep]
  exact ofJson_of_toJson (fun χ => parseTarget_eq_ok_iff.2 rfl) written

end DagJson

/-- A codec reads back what it writes of the nodes of integer values that are in order and not
nested too deep. -/
def Codec.ReadsBack (c : Codec) : Prop :=
  ∀ v node β, v.FloatFree → v.Tidy Json.maxDepth → DagJson.ofJson v = .ok node →
    c.encode node = .ok β → c.decode β = .ok node

/-- The text form is read back. -/
theorem Codec.readsBack_dagJson : Codec.dagJson.ReadsBack :=
  fun _ _ _ exact tidy hv h => DagJson.decode_of_encode exact tidy hv h

/-- The binary form is read back. -/
theorem Codec.readsBack_dagBinary : Codec.dagBinary.ReadsBack :=
  fun _ _ _ _ tidy hv h =>
    DagBinary.decode_of_encode (DagJson.sorted_of_ofJsonResolving tidy.1 hv) h

end BlockWalk
