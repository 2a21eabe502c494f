import BlockWalk.Codec.DagJson
import BlockWalk.Proofs.Identifiers
import BlockWalk.Proofs.Symbols

/-!
# Nodes as JSON, and back

A node has one value, and is what this value is read as. A value that is read as a node is its
value, but for padding at the end of byte strings, which may be written and never is.

* `DagJson.ofJson_of_toJson` — a node is read back from its value.
* `DagJson.toJson_of_ofJson` — a value is written back from its node, without padding.
* `DagJson.exists_toJson_iff` — which nodes have a value.
* `DagJson.toJson_inverts_ofJson` — all of it together.

Reading is first brought into a form without effects, part by part.
-/

namespace BlockWalk

/-! ## Parts that are replaced -/

/-- The value in which every part is replaced that `f` has something for, from the outside in. -/
def Json.replace (f : Json → Option Json) (v : Json) : Json :=
  match f v with
  | some w => w
  | none =>
    match v with
    | .arr items => .arr (items.map fun w => replace f w)
    | .obj members => .obj (members.map fun e => (e.1, replace f e.2))
    | v => v
termination_by v
decreasing_by
  · decreasing_tactic
  · have := Fields.sizeOf_value_lt ‹_›
    simp only [Json.obj.sizeOf_spec]
    omega

namespace Json

variable {f : Json → Option Json}

theorem replace_of_some {v w : Json} (h : f v = some w) : v.replace f = w := by
  rw [replace.eq_def, h]

/-- A value without parts stays if `f` has nothing for it. -/
theorem replace_leaf {v : Json} (h : f v = none) (noItems : v.asItems? = none)
    (noMembers : v.asMembers? = none) : v.replace f = v := by
  rw [replace.eq_def, h]
  cases v with
  | arr items => cases noItems
  | obj members => cases noMembers
  | _ => rfl

theorem replace_arr {items : List Json} (h : f (.arr items) = none) :
    replace f (.arr items) = .arr (items.map (replace f)) := by
  rw [replace, h]

theorem replace_obj {members : List (String × Json)} (h : f (.obj members) = none) :
    replace f (.obj members) = .obj (members.map fun e => (e.1, replace f e.2)) := by
  rw [replace, h]

end Json

namespace DagJson

/-- The symbols in a form that is reserved for byte strings. -/
def symbols? : Json → Option String
  | .obj members =>
    match reserved? members with
    | some (.obj [(k, .str s)]) => if k = "bytes" then some s else none
    | _ => none
  | _ => none

/-- A text without padding at its end. -/
def unpad (s : String) : String := String.ofList (s.toList.reverse.dropWhile (· = '=')).reverse

/-- The form of a byte string, by its symbols. -/
def bytesForm (s : String) : Json := reservedForm (.obj [("bytes", .str s)])

/-- The value without padding in its byte strings. -/
def unpadded (v : Json) : Json := v.replace fun w => (symbols? w).map fun s => bytesForm (unpad s)

/-! ## Reading without effects -/

/-- A result as a reading that needs no state. -/
def quietly {α : Type} (x : Except DecodeError α) : Reading Unit α := ExceptT.mk (pure x)

/-- Two results, one after the other, need no state either. -/
theorem quietly_bind {α β : Type} (x : Except DecodeError α) (k : α → Except DecodeError β) :
    (quietly x >>= fun a => quietly (k a)) = quietly (x >>= k) := by
  cases x <;> rfl

/-- Neither do many of them. -/
theorem mapM_quietly {α β : Type} (f : α → Except DecodeError β) (l : List α) :
    (l.mapM fun a => quietly (f a)) = quietly (l.mapM f) := by
  induction l with
  | nil => rfl
  | cons a l ih =>
    have tail (b : β) : (l.mapM f >>= fun bs => pure (b :: bs) : Except DecodeError _)
        = l.mapM f >>= fun bs => .ok (b :: bs) := rfl
    rw [List.mapM_cons, List.mapM_cons, ih, ← quietly_bind]
    refine bind_congr fun b => ?_
    rw [← quietly_bind]
    rfl

section

variable (r : String → Except DecodeError Cid)

/-- What a quiet reading comes to. -/
theorem ofJsonResolving_eq_of {v : Json} {x : Except DecodeError Node}
    (h : ofJsonWith (fun target => quietly (r target)) v = quietly x) :
    ofJsonResolving r v = x :=
  congrArg (fun y => (y.run.run ()).1) h

@[simp] theorem ofJsonResolving_null : ofJsonResolving r .null = .ok .null :=
  ofJsonResolving_eq_of r (by rw [ofJsonWith]; rfl)

@[simp] theorem ofJsonResolving_bool (b : Bool) : ofJsonResolving r (.bool b) = .ok (.bool b) :=
  ofJsonResolving_eq_of r (by rw [ofJsonWith]; rfl)

@[simp] theorem ofJsonResolving_num (n : Json.Number) :
    ofJsonResolving r (.num n) = ofNumber n :=
  ofJsonResolving_eq_of r (by rw [ofJsonWith]; rfl)

@[simp] theorem ofJsonResolving_str (s : String) : ofJsonResolving r (.str s) = .ok (.str s) :=
  ofJsonResolving_eq_of r (by rw [ofJsonWith]; rfl)

theorem ofJsonResolving_arr (items : List Json) :
    ofJsonResolving r (.arr items)
      = items.mapM (ofJsonResolving r) >>= fun l => .ok (.list l) := by
  refine ofJsonResolving_eq_of r ?_
  rw [ofJsonWith, ← quietly_bind, ← mapM_quietly]
  rfl

section

variable {r} {members : List (String × Json)}

/-- An object that is a link. -/
theorem ofJsonResolving_link {target : String} (h : reserved? members = some (.str target)) :
    ofJsonResolving r (.obj members) = r target >>= fun χ => .ok (.link χ) := by
  refine ofJsonResolving_eq_of r ?_
  rw [ofJsonWith, h, ← quietly_bind]
  rfl

/-- An object that is a byte string. -/
theorem ofJsonResolving_bytes {inner : List (String × Json)}
    (h : reserved? members = some (.obj inner)) :
    ofJsonResolving r (.obj members) = bytesOf inner >>= fun β => .ok (.bytes β) := by
  refine ofJsonResolving_eq_of r ?_
  rw [ofJsonWith, h, ← quietly_bind]
  rfl

/-- An object that is reserved and stands for nothing. -/
theorem ofJsonResolving_reserved {v : Json} (h : reserved? members = some v)
    (noText : ∀ s, v ≠ .str s) (noObject : ∀ inner, v ≠ .obj inner) :
    ofJsonResolving r (.obj members) = .error (.reserved v) := by
  refine ofJsonResolving_eq_of r ?_
  rw [ofJsonWith, h]
  cases v with
  | str s => exact absurd rfl (noText s)
  | obj inner => exact absurd rfl (noObject inner)
  | _ => rfl

/-- An object that is a map. -/
theorem ofJsonResolving_map (h : reserved? members = none) :
    ofJsonResolving r (.obj members) =
      members.mapM (fun e => ofJsonResolving r e.2 >>= fun v => .ok (e.1, v))
        >>= fun l => .ok (.map l) := by
  refine ofJsonResolving_eq_of r ?_
  rw [ofJsonWith, h, ← quietly_bind, ← mapM_quietly]
  simp only [← quietly_bind]
  rfl

end

end

/-! ## Objects -/

section

variable {members : List (String × Json)}

/-- A reserved form is an object with the reserved key and no other. -/
theorem reserved?_eq_some_iff {v : Json} :
    reserved? members = some v ↔ members = [(reservedKey, v)] := by
  match members with
  | [] => exact ⟨nofun, nofun⟩
  | [(k, w)] =>
    rw [reserved?]
    by_cases h : k = reservedKey <;> simp [h]
  | _ :: _ :: _ => exact ⟨nofun, nofun⟩

theorem reserved?_eq_none_iff :
    reserved? members = none ↔ members.map Prod.fst ≠ [reservedKey] := by
  match members with
  | [] => exact ⟨fun _ => nofun, fun _ => rfl⟩
  | [(k, w)] =>
    rw [reserved?]
    by_cases h : k = reservedKey <;> simp [h]
  | _ :: _ :: _ => exact ⟨fun _ => by simp, fun _ => rfl⟩

/-- What an object is that is read as a node. -/
theorem ofJsonResolving_obj_cases {r : String → Except DecodeError Cid} {v : Node}
    (h : ofJsonResolving r (.obj members) = .ok v) :
    (∃ target χ, reserved? members = some (.str target) ∧ r target = .ok χ ∧ v = .link χ)
      ∨ (∃ inner β, reserved? members = some (.obj inner) ∧ bytesOf inner = .ok β ∧ v = .bytes β)
      ∨ ∃ entries, reserved? members = none
        ∧ members.mapM (fun e => ofJsonResolving r e.2 >>= fun v => .ok (e.1, v)) = .ok entries
        ∧ v = .map entries := by
  cases hm : reserved? members with
  | none =>
    rw [ofJsonResolving_map hm] at h
    obtain ⟨entries, he, h⟩ := bind_eq_ok_iff.1 h
    exact .inr (.inr ⟨entries, rfl, he, (Except.ok.inj h).symm⟩)
  | some w =>
    cases w with
    | str target =>
      rw [ofJsonResolving_link hm] at h
      obtain ⟨χ, hχ, h⟩ := bind_eq_ok_iff.1 h
      exact .inl ⟨target, χ, rfl, hχ, (Except.ok.inj h).symm⟩
    | obj inner =>
      rw [ofJsonResolving_bytes hm] at h
      obtain ⟨β, hβ, h⟩ := bind_eq_ok_iff.1 h
      exact .inr (.inl ⟨inner, β, rfl, hβ, (Except.ok.inj h).symm⟩)
    | _ =>
      rw [ofJsonResolving_reserved hm nofun nofun] at h
      cases h

end

/-- Members that are read keep their names. -/
theorem names_of_mapM {ε α β : Type} {f : α → Except ε β} {l : List (String × α)}
    {l' : List (String × β)} (h : l.mapM (fun e => f e.2 >>= fun b => .ok (e.1, b)) = .ok l') :
    l'.map Prod.fst = l.map Prod.fst := by
  induction l generalizing l' with
  | nil =>
    obtain rfl : [] = l' := Except.ok.inj h
    rfl
  | cons e l ih =>
    obtain ⟨b, bs, hb, hl, rfl⟩ := mapM_cons_eq_ok_iff.1 h
    obtain ⟨c, -, hc⟩ := bind_eq_ok_iff.1 hb
    obtain rfl := Except.ok.inj hc
    rw [List.map_cons, List.map_cons, ih hl]

/-! ## Byte strings -/

/-- What is written has no padding that could be taken away. -/
theorem unpad_encode (β : Bytes) : unpad (Bytes.Base64.encode β) = Bytes.Base64.encode β := by
  have last : (Bytes.Base64.encode β).toList.reverse.dropWhile (· = '=')
      = (Bytes.Base64.encode β).toList.reverse := by
    cases h : (Bytes.Base64.encode β).toList.reverse with
    | nil => rfl
    | cons c σ =>
      have hc : c ∈ (Bytes.Base64.encode β).toList :=
        List.mem_reverse.1 (h ▸ List.mem_cons_self)
      exact List.dropWhile_cons_of_neg (by simp [Bytes.Base64.ne_of_mem_encode hc])
  rw [unpad, last, List.reverse_reverse, String.ofList_toList]

/-- An object stands for a byte string if it has its symbols, padded or not. -/
theorem bytesOf_eq_ok_iff {inner : List (String × Json)} {β : Bytes} :
    bytesOf inner = .ok β ↔ ∃ s, inner = [("bytes", .str s)] ∧ unpad s = Bytes.Base64.encode β := by
  have read (s : String) :
      (Bytes.Base64.decode (Bytes.ofText (unpad s))).mapError DecodeError.base64 = .ok β
      ↔ unpad s = Bytes.Base64.encode β := by
    rw [mapError_eq_ok_iff, Bytes.Base64.decode_eq_ok_iff]
    exact Bytes.ofText_injective.eq_iff
  constructor
  · intro h
    unfold bytesOf at h
    split at h
    · next k s =>
      split at h
      · next hk => exact ⟨s, by rw [hk], (read s).1 h⟩
      · cases h
    · cases h
  · rintro ⟨s, rfl, h⟩
    rw [bytesOf, if_pos rfl]
    exact (read s).2 h

/-! ## Writing -/

theorem toJson_list (items : List Node) :
    toJson (.list items) = items.mapM toJson >>= fun l => .ok (.arr l) := by
  rw [toJson]
  rfl

theorem toJson_map {entries : List (String × Node)} (h : entries.map Prod.fst ≠ [reservedKey]) :
    toJson (.map entries) =
      entries.mapM (fun e => toJson e.2 >>= fun v => .ok (e.1, v)) >>= fun l => .ok (.obj l) := by
  rw [toJson, if_neg h]
  rfl

/-- A map that would be read as a reserved form is not written. -/
theorem toJson_map_reserved {entries : List (String × Node)}
    (h : entries.map Prod.fst = [reservedKey]) : toJson (.map entries) = .error .reservedMap := by
  rw [toJson, if_pos h]
  rfl

/-! ## There and back -/

/-- A finite number is written and read back. -/
theorem toJson_float {x : Binary64} (h : x.isFinite = true) :
    toJson (.float x) = .ok (.num (.float x h)) := by
  rw [toJson, dif_pos h]
  rfl

/-- Neither is a number that is not finite. -/
theorem toJson_float_not {x : Binary64} (h : ¬x.isFinite = true) :
    toJson (.float x) = .error (.notFinite x) := by
  rw [toJson, dif_neg h]
  rfl

/-- An integer of a node is read back. -/
theorem ofNumber_ofInt64 (n : Int64) : ofNumber (ofInt64 n) = .ok (.int n) := by
  have h : n.toInt < 0x8000000000000000 := n.toInt_lt
  rw [ofInt64, ofNumber, if_pos h, Int64.ofInt_toInt]

/-- A number that is read is written back. -/
theorem toJson_of_ofNumber {n : Json.Number} {v : Node} (h : ofNumber n = .ok v) :
    toJson v = .ok (.num n) := by
  cases n with
  | int n lower upper =>
    rw [ofNumber] at h
    split at h
    · next hn =>
      obtain rfl := Except.ok.inj h
      have same : (Int64.ofInt n).toInt = n := Int64.toInt_ofInt_of_le lower hn
      rw [toJson, ofInt64]
      simp only [same]
      rfl
    · cases h
  | float x finite =>
    obtain rfl := Except.ok.inj h
    exact toJson_float finite

/-- **A node is read back from its value**, if the text of an identifier is resolved to it. -/
theorem ofJson_of_toJson {r : String → Except DecodeError Cid} (hr : ∀ χ, r χ.toText = .ok χ)
    {v : Node} {j : Json} (h : toJson v = .ok j) : ofJsonResolving r j = .ok v := by
  induction v using Node.ind generalizing j with
  | null =>
    rw [toJson] at h
    obtain rfl := Except.ok.inj h
    rw [ofJsonResolving_null]
  | bool b =>
    rw [toJson] at h
    obtain rfl := Except.ok.inj h
    rw [ofJsonResolving_bool]
  | int n =>
    rw [toJson] at h
    obtain rfl := Except.ok.inj h
    rw [ofJsonResolving_num, ofNumber_ofInt64]
  | float x =>
    by_cases hx : x.isFinite = true
    · rw [toJson_float hx] at h
      obtain rfl := Except.ok.inj h
      rw [ofJsonResolving_num, ofNumber]
    · rw [toJson_float_not hx] at h
      cases h
  | str s =>
    rw [toJson] at h
    obtain rfl := Except.ok.inj h
    rw [ofJsonResolving_str]
  | bytes β =>
    rw [toJson] at h
    obtain rfl := Except.ok.inj h
    have read : bytesOf [("bytes", .str (Bytes.Base64.encode β))] = .ok β :=
      bytesOf_eq_ok_iff.2 ⟨_, rfl, unpad_encode β⟩
    rw [reservedForm, ofJsonResolving_bytes (reserved?_eq_some_iff.2 rfl), read]
    rfl
  | link χ =>
    rw [toJson] at h
    obtain rfl := Except.ok.inj h
    rw [reservedForm, ofJsonResolving_link (reserved?_eq_some_iff.2 rfl), hr]
    rfl
  | list items ih =>
    rw [toJson_list] at h
    obtain ⟨l, hl, h⟩ := bind_eq_ok_iff.1 h
    obtain rfl := Except.ok.inj h
    have back := mapM_of_mapM (k := id) (fun v hv j hj => ih v hv hj) hl
    rw [ofJsonResolving_arr, back, List.map_id]
    rfl
  | map entries ih =>
    by_cases hm : entries.map Prod.fst = [reservedKey]
    · rw [toJson_map_reserved hm] at h
      cases h
    · rw [toJson_map hm] at h
      obtain ⟨l, hl, h⟩ := bind_eq_ok_iff.1 h
      obtain rfl := Except.ok.inj h
      have plain : reserved? l = none := by
        rw [reserved?_eq_none_iff, names_of_mapM hl]
        exact hm
      have back := mapM_of_mapM (k := id) (l := entries)
        (g := fun e => ofJsonResolving r e.2 >>= fun v => .ok (e.1, v)) (fun e he f hf => by
          obtain ⟨j, hj, hf⟩ := bind_eq_ok_iff.1 hf
          obtain rfl := Except.ok.inj hf
          exact bind_eq_ok_iff.2 ⟨e.2, ih e he hj, rfl⟩) hl
      rw [ofJsonResolving_map plain, back, List.map_id]
      rfl

/-- A target that an identifier is read from is its text. -/
theorem parseTarget_eq_ok_iff {target : String} {χ : Cid} :
    parseTarget target = .ok χ ↔ target = χ.toText := by
  rw [parseTarget, mapError_eq_ok_iff, Cid.ofText_eq_ok_iff]

/-- **A value is written back from its node**, without padding in byte strings. -/
theorem toJson_of_ofJson {j : Json} {v : Node} (h : ofJson j = .ok v) :
    toJson v = .ok (unpadded j) := by
  rw [ofJson] at h
  induction j using Json.ind generalizing v with
  | null =>
    rw [ofJsonResolving_null] at h
    obtain rfl := Except.ok.inj h
    rw [toJson, unpadded, Json.replace_leaf rfl rfl rfl]
    rfl
  | bool b =>
    rw [ofJsonResolving_bool] at h
    obtain rfl := Except.ok.inj h
    rw [toJson, unpadded, Json.replace_leaf rfl rfl rfl]
    rfl
  | num n =>
    rw [ofJsonResolving_num] at h
    rw [toJson_of_ofNumber h, unpadded, Json.replace_leaf rfl rfl rfl]
  | str s =>
    rw [ofJsonResolving_str] at h
    obtain rfl := Except.ok.inj h
    rw [toJson, unpadded, Json.replace_leaf rfl rfl rfl]
    rfl
  | arr items ih =>
    rw [ofJsonResolving_arr] at h
    obtain ⟨l, hl, h⟩ := bind_eq_ok_iff.1 h
    obtain rfl := Except.ok.inj h
    have back := mapM_of_mapM (k := unpadded) (fun j hj v hv => ih j hj hv) hl
    rw [toJson_list, back, unpadded, Json.replace_arr rfl]
    rfl
  | obj members ih =>
    obtain ⟨target, χ, hm, hχ, rfl⟩ | ⟨inner, β, hm, hβ, rfl⟩ | ⟨entries, hm, he, rfl⟩ :=
      ofJsonResolving_obj_cases h
    · obtain rfl := reserved?_eq_some_iff.1 hm
      obtain rfl := parseTarget_eq_ok_iff.1 hχ
      rw [toJson, unpadded, Json.replace_obj rfl, List.map_singleton,
        Json.replace_leaf rfl rfl rfl]
      rfl
    · obtain rfl := reserved?_eq_some_iff.1 hm
      obtain ⟨s, rfl, hs⟩ := bytesOf_eq_ok_iff.1 hβ
      have form : unpadded (.obj [(reservedKey, .obj [("bytes", .str s)])]) = bytesForm (unpad s) :=
        Json.replace_of_some rfl
      rw [toJson, form, hs]
      rfl
    · have names : entries.map Prod.fst ≠ [reservedKey] := by
        rw [names_of_mapM he]
        exact reserved?_eq_none_iff.1 hm
      have plain : symbols? (.obj members) = none := by rw [symbols?, hm]
      have back := mapM_of_mapM (k := fun e => (e.1, unpadded e.2))
        (g := fun e => toJson e.2 >>= fun v => .ok (e.1, v)) (fun e hm f hf => by
          obtain ⟨v, hv, hf⟩ := bind_eq_ok_iff.1 hf
          obtain rfl := Except.ok.inj hf
          exact bind_eq_ok_iff.2 ⟨unpadded e.2, ih e hm hv, rfl⟩) he
      rw [toJson_map names, back, unpadded, Json.replace_obj (by rw [plain]; rfl)]
      rfl

/-! ## Nodes without a value -/

end DagJson

/-- A node is another, or stands somewhere inside it. -/
inductive Node.Occurs (w : Node) : Node → Prop
  /-- the node itself -/
  | self : Occurs w w
  /-- in an item -/
  | item {items : List Node} {v : Node} (mem : v ∈ items) (h : Occurs w v) : Occurs w (.list items)
  /-- in a value -/
  | value {entries : List (String × Node)} {e : String × Node} (mem : e ∈ entries)
      (h : Occurs w e.2) : Occurs w (.map entries)

namespace DagJson

/-- What cannot be written as JSON. -/
inductive Unwritable : Node → Prop
  /-- an infinity or a NaN -/
  | float {x : Binary64} (h : ¬x.isFinite = true) : Unwritable (.float x)
  /-- a map whose only key is reserved -/
  | map {entries : List (String × Node)} (h : entries.map Prod.fst = [reservedKey]) :
      Unwritable (.map entries)

/-- **A node has a value exactly if nothing stands in it that cannot be written.** -/
theorem exists_toJson_iff (v : Node) :
    (∃ j, toJson v = .ok j) ↔ ∀ w, Unwritable w → ¬w.Occurs v := by
  induction v using Node.ind with
  | float x =>
    by_cases hx : x.isFinite = true
    · refine ⟨fun _ w hw occurs => ?_, fun _ => ⟨_, toJson_float hx⟩⟩
      cases occurs
      cases hw with
      | float h => exact h hx
    · rw [toJson_float_not hx]
      exact ⟨nofun, fun h => absurd .self (h _ (.float hx))⟩
  | list items ih =>
    rw [toJson_list, exists_bind_ok_iff, exists_mapM_eq_ok_iff]
    constructor
    · intro h w hw occurs
      cases occurs with
      | self => cases hw
      | item mem occurs => exact (ih _ mem).1 (h _ mem) w hw occurs
    · exact fun h v mem => (ih v mem).2 fun w hw occurs => h w hw (.item mem occurs)
  | map entries ih =>
    by_cases hm : entries.map Prod.fst = [reservedKey]
    · rw [toJson_map_reserved hm]
      exact ⟨nofun, fun h => absurd .self (h _ (.map hm))⟩
    · simp only [toJson_map hm, exists_bind_ok_iff, exists_mapM_eq_ok_iff]
      constructor
      · intro h w hw occurs
        cases occurs with
        | self =>
          cases hw with
          | map h => exact hm h
        | value mem occurs => exact (ih _ mem).1 (h _ mem) w hw occurs
      · exact fun h e mem => (ih e mem).2 fun w hw occurs => h w hw (.value mem occurs)
  | _ =>
    rw [toJson]
    refine ⟨fun _ w hw occurs => ?_, fun _ => ⟨_, rfl⟩⟩
    cases occurs
    cases hw

/-- **Values and nodes correspond.** A node is read back from its value. A value is written back
from the node it is read as, without the padding of its byte strings. What fails to be written is a
node in which an infinity, a NaN or a map with the reserved key alone stands, and no value is read
as such a node. -/
theorem toJson_inverts_ofJson :
    (∀ v j, toJson v = .ok j → ofJson j = .ok v)
      ∧ (∀ j v, ofJson j = .ok v → toJson v = .ok (unpadded j))
      ∧ (∀ v, (∃ ε, toJson v = .error ε) ↔ ∃ w, Unwritable w ∧ w.Occurs v)
      ∧ ∀ j v, ofJson j = .ok v → ∀ w, Unwritable w → ¬w.Occurs v := by
  refine ⟨fun v j => ofJson_of_toJson fun χ => parseTarget_eq_ok_iff.2 rfl,
    fun j v => toJson_of_ofJson, fun v => ?_,
    fun j v h => (exists_toJson_iff v).1 ⟨unpadded j, toJson_of_ofJson h⟩⟩
  have written := exists_toJson_iff v
  constructor
  · rintro ⟨ε, h⟩
    refine Classical.byContradiction fun none => ?_
    obtain ⟨j, hj⟩ := written.2 fun w hw occurs => none ⟨w, hw, occurs⟩
    rw [h] at hj
    cases hj
  · rintro ⟨w, hw, occurs⟩
    cases h : toJson v with
    | error ε => exact ⟨ε, rfl⟩
    | ok j => exact absurd occurs (written.1 ⟨j, h⟩ w hw)

end DagJson

end BlockWalk
