import BlockWalk.Codec.DagBinary
import BlockWalk.Proofs.Identifiers
import BlockWalk.Proofs.OrderedNodes
import Mathlib

/-!
# The binary form of a node

The form of a node is read back, whatever bytes stand behind it. A reader says of every part how
many bytes it takes before it takes them, so what it makes of a form does not depend on what comes
after (`DagBinary.Takes`), and forms that stand in a row are read one after the other.

* `DagBinary.length_form` — how long a form is, kind by kind.
* `DagBinary.Fits` — the lengths inside a node can be written.
* `DagBinary.takes_form` — the form of a node is read as the node with its maps in order.
* `DagBinary.decode_inverts_encode` — a node is encoded exactly if its form fits into a block, and
  then the bytes decode to it.
-/

namespace BlockWalk.DagBinary

/-! ## Sizes -/

/-- The number of bytes that a node takes: four for its kind, eight for a number or a length. -/
def size : Node → Nat
  | .null => 4
  | .bool _ => 5
  | .int _ => 12
  | .float _ => 12
  | .str s => 12 + s.utf8ByteSize
  | .bytes β => 12 + β.length
  | .list items => 12 + (items.map fun v => size v).sum
  | .map entries => 12 + (entries.map fun e => 8 + e.1.utf8ByteSize + size e.2).sum
  | .link χ => 12 + χ.toBytes.length
decreasing_by
  · decreasing_tactic
  · have := Fields.sizeOf_value_lt ‹_›
    simp only [Node.map.sizeOf_spec]
    omega

@[simp] theorem length_withLength (β : Bytes) : (withLength β).length = 8 + β.length := by
  simp [withLength, lengthBytes]

/-- The form of a node has the size of the node. -/
theorem length_form (v : Node) : (form v).length = size v := by
  induction v using Node.ind with
  | list items ih =>
    simp only [form, size, List.length_append, List.length_flatMap, kindBytes, lengthBytes,
      Bytes.length_littleEndian, Nat.reduceAdd]
    rw [List.map_congr_left ih]
  | map entries ih =>
    simp only [form, size, List.length_append, List.length_flatMap, kindBytes, lengthBytes,
      length_withLength, Bytes.length_littleEndian, Bytes.length_ofText, Nat.reduceAdd]
    rw [List.map_congr_left fun e he => by rw [ih e he]]
  | _ => simp [form, size, kindBytes, Bytes.length_ofText] <;> omega

/-- The items of a list are smaller than the list. -/
theorem size_item {items : List Node} {v : Node} (h : v ∈ items) :
    size v + 12 ≤ size (.list items) := by
  have := List.single_le_sum (fun _ _ => Nat.zero_le _) _
    (List.mem_map_of_mem (f := fun v => size v) h)
  rw [size]
  omega

/-- The keys and values of a map are smaller than the map. -/
theorem size_entry {entries : List (String × Node)} {e : String × Node} (h : e ∈ entries) :
    e.1.utf8ByteSize + size e.2 + 20 ≤ size (.map entries) := by
  have := List.single_le_sum (fun _ _ => Nat.zero_le _) _
    (List.mem_map_of_mem (f := fun e => 8 + e.1.utf8ByteSize + size e.2) h)
  rw [size]
  omega

/-- The tag alone is four bytes. -/
theorem four_le_size (v : Node) : 4 ≤ size v := by
  cases v <;> rw [size] <;> omega

/-- A list has no more items than bytes. -/
theorem length_le_size (items : List Node) : items.length ≤ size (.list items) := by
  have := List.length_le_sum_of_one_le (items.map fun v => size v) fun n hn => by
    obtain ⟨v, -, rfl⟩ := List.mem_map.1 hn
    have := four_le_size v
    omega
  rw [List.length_map] at this
  rw [size]
  omega

/-- A map has no more entries than bytes. -/
theorem length_entries_le_size (entries : List (String × Node)) :
    entries.length ≤ size (.map entries) := by
  have := List.length_le_sum_of_one_le
    (entries.map fun e => 8 + e.1.utf8ByteSize + size e.2) fun n hn => by
      obtain ⟨v, -, rfl⟩ := List.mem_map.1 hn
      omega
  rw [List.length_map] at this
  rw [size]
  omega

/-! ## Lengths -/

/-- The lengths and counts that are written inside the form of a node. -/
def lengths : Node → List Nat
  | .str s => [s.utf8ByteSize]
  | .bytes β => [β.length]
  | .list items => items.length :: items.flatMap fun v => lengths v
  | .map entries => entries.length :: entries.flatMap fun e => e.1.utf8ByteSize :: lengths e.2
  | .link χ => [χ.toBytes.length]
  | _ => []
decreasing_by
  · decreasing_tactic
  · have := Fields.sizeOf_value_lt ‹_›
    simp only [Node.map.sizeOf_spec]
    omega

/-- All lengths inside a node can be written in eight bytes. -/
def Fits (v : Node) : Prop := ∀ n ∈ lengths v, n < 2 ^ 64

theorem fits_str {s : String} : Fits (.str s) ↔ s.utf8ByteSize < 2 ^ 64 := by
  rw [Fits, lengths, List.forall_mem_singleton]

theorem fits_bytes {β : Bytes} : Fits (.bytes β) ↔ β.length < 2 ^ 64 := by
  rw [Fits, lengths, List.forall_mem_singleton]

theorem fits_link {χ : Cid} : Fits (.link χ) ↔ χ.toBytes.length < 2 ^ 64 := by
  rw [Fits, lengths, List.forall_mem_singleton]

theorem fits_list {items : List Node} :
    Fits (.list items) ↔ items.length < 2 ^ 64 ∧ ∀ v ∈ items, Fits v := by
  rw [Fits, lengths, List.forall_mem_cons, List.forall_mem_flatMap]
  rfl

theorem fits_map {entries : List (String × Node)} :
    Fits (.map entries)
      ↔ entries.length < 2 ^ 64 ∧ ∀ e ∈ entries, e.1.utf8ByteSize < 2 ^ 64 ∧ Fits e.2 := by
  rw [Fits, lengths, List.forall_mem_cons, List.forall_mem_flatMap]
  simp only [List.forall_mem_cons]
  rfl

/-- The lengths inside a node are no larger than the node. -/
theorem fits_of_size {v : Node} (h : size v < 2 ^ 64) : Fits v := by
  induction v using Node.ind with
  | str s => rw [size] at h; exact fits_str.2 (by omega)
  | bytes β => rw [size] at h; exact fits_bytes.2 (by omega)
  | link χ => rw [size] at h; exact fits_link.2 (by omega)
  | list items ih =>
    refine fits_list.2 ⟨Nat.lt_of_le_of_lt (length_le_size items) h, fun v hv => ?_⟩
    have := size_item hv
    exact ih v hv (by omega)
  | map entries ih =>
    refine fits_map.2 ⟨Nat.lt_of_le_of_lt (length_entries_le_size entries) h, fun e he => ?_⟩
    have := size_entry he
    exact ⟨by omega, ih e he (by omega)⟩
  | _ =>
    rw [Fits, lengths.eq_def]
    exact fun _ h => absurd h List.not_mem_nil

/-! ## Readings -/

/-- A reader takes the bytes `σ` and makes `a` of them, whatever stands behind them. -/
def Takes {α : Type} (read : Reader α) (σ : Bytes) (a : α) : Prop :=
  ∀ γ, read (σ ++ γ) = .ok (a, γ)

section

variable {α β : Type} {read : Reader α} {σ τ : Bytes} {a : α} {b : β}

theorem takes_pure (a : α) : Takes (pure a) [] a := fun _ => rfl

/-- Two readers, one after the other, take two parts, one after the other. -/
theorem Takes.bind {k : α → Reader β} (h : Takes read σ a) (hk : Takes (k a) τ b) :
    Takes (read >>= k) (σ ++ τ) b := by
  intro γ
  rw [List.append_assoc]
  exact bind_eq_ok_iff.2 ⟨_, h (τ ++ γ), hk γ⟩

/-- Something is made of what is read. -/
theorem Takes.pure_bind (h : Takes read σ a) (f : α → β) :
    Takes (read >>= fun a => pure (f a)) σ (f a) := by
  have := h.bind (k := fun a => pure (f a)) (takes_pure (f a))
  rwa [List.append_nil] at this

/-- Bytes are read as they are. -/
theorem takes_readBytes (σ : Bytes) : Takes (readBytes σ.length) σ σ := by
  intro γ
  rw [readBytes, Bytes.split?_append]

/-- A number is read from its bytes if there are enough for it. -/
theorem takes_readNat {w n : Nat} (h : n < Nat.pow 256 w) :
    Takes (readNat w) (Bytes.littleEndian w n) n := by
  have := (takes_readBytes (Bytes.littleEndian w n)).pure_bind Bytes.natValue
  rwa [Bytes.length_littleEndian, Bytes.natValue_littleEndian, Nat.mod_eq_of_lt h,
    bind_pure_comp] at this

/-- Bytes are read behind their length, if the length fits. -/
theorem takes_readWithLength {σ : Bytes} (h : σ.length < 2 ^ 64) :
    Takes readWithLength (withLength σ) σ :=
  (takes_readNat h).bind (takes_readBytes σ)

/-- A text is read from its bytes. -/
theorem takes_readText {s : String} (h : s.utf8ByteSize < 2 ^ 64) :
    Takes readText (withLength (Bytes.ofText s)) s := by
  rw [← Bytes.length_ofText] at h
  rw [readText, ← List.append_nil (withLength _)]
  refine (takes_readWithLength h).bind ?_
  rw [Bytes.toText?_ofText]
  exact takes_pure s

/-- An identifier is read from its bytes. -/
theorem takes_readLink {χ : Cid} (h : χ.toBytes.length < 2 ^ 64) :
    Takes readLink (withLength χ.toBytes) χ := by
  rw [readLink, ← List.append_nil (withLength _)]
  refine (takes_readWithLength h).bind ?_
  rw [Cid.ofBytes_eq_ok_iff.2 rfl]
  exact takes_pure χ

theorem takes_readBool (b : Bool) : Takes readBool [if b then 1 else 0] b := by
  cases b with
  | false => exact (takes_readNat (w := 1) (n := 0) (by decide)).bind (takes_pure false)
  | true => exact (takes_readNat (w := 1) (n := 1) (by decide)).bind (takes_pure true)

/-- Parts that are read one by one are read one after the other. -/
theorem takes_readMany {ρ : Type} {write : ρ → Bytes} {made : ρ → α} {parts : List ρ}
    (h : ∀ p ∈ parts, Takes read (write p) (made p)) (before : List α) :
    Takes (readMany read parts.length before) (parts.flatMap write)
      (before.reverse ++ parts.map made) := by
  induction parts generalizing before with
  | nil =>
    intro γ
    rw [List.map_nil, List.append_nil]
    rfl
  | cons p parts ih =>
    obtain ⟨hp, hparts⟩ := List.forall_mem_cons.1 h
    intro γ
    rw [List.length_cons, readMany, List.flatMap_cons, List.append_assoc, hp]
    have rest := ih hparts (made p :: before) γ
    rwa [List.reverse_cons, List.append_assoc] at rest

end

/-! ## Nodes -/

/-- **The form of a node is read as the node** with its maps in order, if the reader goes as deep as
the node and the lengths inside it fit into eight bytes. -/
theorem takes_form {v : Node} (fits : Fits v) {d : Nat} (deep : size v ≤ d) :
    Takes (readNode (d + 1)) (form v) v.ordered := by
  induction v using Node.ind generalizing d with
  | null =>
    rw [readNode, form, ← List.append_nil (kindBytes 0), Node.ordered_leaf rfl rfl]
    exact (takes_readNat (by decide)).bind (takes_pure Node.null)
  | bool b =>
    rw [readNode, form, Node.ordered_leaf rfl rfl]
    exact (takes_readNat (by decide)).bind ((takes_readBool b).pure_bind Node.bool)
  | int n =>
    have read := (takes_readNat (w := 8) n.toUInt64.toNat_lt).pure_bind
      fun k => Node.int k.toUInt64.toInt64
    rw [readNode, form, Node.ordered_leaf rfl rfl]
    refine (takes_readNat (by decide)).bind ?_
    simpa using read
  | float x =>
    have read := (takes_readNat (w := 8) x.bits.toNat_lt).pure_bind
      fun k => Node.float ⟨k.toUInt64⟩
    rw [readNode, form, Node.ordered_leaf rfl rfl]
    refine (takes_readNat (by decide)).bind ?_
    simpa using read
  | str s =>
    rw [readNode, form, Node.ordered_leaf rfl rfl]
    exact (takes_readNat (by decide)).bind ((takes_readText (fits_str.1 fits)).pure_bind Node.str)
  | bytes β =>
    rw [readNode, form, Node.ordered_leaf rfl rfl]
    exact (takes_readNat (by decide)).bind
      ((takes_readWithLength (fits_bytes.1 fits)).pure_bind Node.bytes)
  | link χ =>
    rw [readNode, form, Node.ordered_leaf rfl rfl]
    exact (takes_readNat (by decide)).bind
      ((takes_readLink (fits_link.1 fits)).pure_bind Node.link)
  | list items ih =>
    obtain ⟨few, fits⟩ := fits_list.1 fits
    have read : ∀ v ∈ items, Takes (readNode d) (form v) v.ordered := by
      intro v hv
      have := size_item hv
      obtain ⟨d, rfl⟩ : ∃ e, d = e + 1 := ⟨d - 1, by omega⟩
      exact ih v hv (fits v hv) (by omega)
    rw [readNode, form, List.append_assoc, Node.ordered]
    refine (takes_readNat (by decide)).bind ?_
    exact (takes_readNat few).bind ((takes_readMany read []).pure_bind Node.list)
  | map entries ih =>
    obtain ⟨few, fits⟩ := fits_map.1 fits
    have read : ∀ e ∈ entries, Takes (readEntry (readNode d))
        (withLength (Bytes.ofText e.1) ++ form e.2) (e.1, e.2.ordered) := by
      intro e he
      have := size_entry he
      obtain ⟨d, rfl⟩ : ∃ e, d = e + 1 := ⟨d - 1, by omega⟩
      refine (takes_readText (fits e he).1).bind (Takes.pure_bind ?_ (Prod.mk e.1))
      exact ih e he (fits e he).2 (by omega)
    rw [readNode, form, List.append_assoc, Node.ordered]
    refine (takes_readNat (by decide)).bind ?_
    exact (takes_readNat few).bind
      ((takes_readMany read []).pure_bind fun l => Node.map (Fields.ofList l))

/-! ## Encoding -/

/-- A form decodes to its node with the maps in order. -/
theorem decode_form_of_fits {v : Node} (fits : Fits v) : decode (form v) = .ok v.ordered := by
  have read := takes_form fits (d := (form v).length) (length_form v).ge []
  rw [List.append_nil] at read
  exact bind_eq_ok_iff.2 ⟨(v.ordered, []), read, rfl⟩

/-- A form decodes to its node, if its length can be written in eight bytes. -/
theorem decode_form {v : Node} (sorted : v.Sorted) (small : (form v).length < 2 ^ 64) :
    decode (form v) = .ok v := by
  rw [length_form] at small
  rw [decode_form_of_fits (fits_of_size small), Node.ordered_of_sorted sorted]

theorem encode_eq (v : Node) :
    encode v = if (form v).length ≤ 1048576 then .ok (form v) else .error .tooLarge := rfl

/-- The bytes that a node is encoded to decode to it. -/
theorem decode_of_encode {v : Node} (sorted : v.Sorted) {β : Bytes} (h : encode v = .ok β) :
    decode β = .ok v := by
  rw [encode_eq] at h
  split at h
  · obtain rfl := Except.ok.inj h
    exact decode_form sorted (by omega)
  · cases h

/-- **Bytes decode to the node that they encode**, and a node is encoded unless its form is too
large for a block. -/
theorem decode_inverts_encode {v : Node} (sorted : v.Sorted) :
    (form v).length = size v
      ∧ ((∃ β, encode v = .ok β) ↔ (form v).length ≤ 1048576)
      ∧ (∀ ε, encode v = .error ε → ε = .tooLarge)
      ∧ ∀ β, encode v = .ok β → β = form v ∧ decode β = .ok v := by
  rw [encode_eq]
  refine ⟨length_form v, ?_⟩
  split
  · next fits =>
    refine ⟨⟨fun _ => fits, fun _ => ⟨form v, rfl⟩⟩, nofun, ?_⟩
    rintro _ ⟨⟩
    exact ⟨rfl, decode_form sorted (by omega)⟩
  · next fits =>
    refine ⟨⟨nofun, fun h => absurd h fits⟩, ?_, nofun⟩
    rintro _ ⟨⟩
    rfl

/-- A map of a list, which holds a NaN and bytes, and of a link. -/
def nested : Node :=
  .map [("items", .list [.float ⟨0x7FF8000000000001⟩, .bytes [0, 255]]),
    ("next", .link ⟨.dagJson, ⟨List.replicate 32 7, List.length_replicate⟩⟩)]

theorem sorted_nested : nested.Sorted := by
  refine .map ?_ ?_
  · simp only [Fields.Sorted, List.pairwise_cons, List.mem_singleton, forall_eq, List.not_mem_nil]
    exact ⟨by decide, by simp, .nil⟩
  · simp only [List.mem_cons, List.not_mem_nil, or_false, forall_eq_or_imp, forall_eq]
    refine ⟨.list ?_, .link _⟩
    simp only [List.mem_cons, List.not_mem_nil, or_false, forall_eq_or_imp, forall_eq]
    exact ⟨.float _, .bytes _⟩

/-- The bytes of a NaN, of a link and of what holds them decode to the same bits. -/
theorem decode_inverts_encode_nested :
    nested.Sorted ∧ ∃ β, encode nested = .ok β ∧ β.length = 124 ∧ decode β = .ok nested := by
  obtain ⟨length, fits, -, decodes⟩ := decode_inverts_encode sorted_nested
  have bytes : size nested = 124 := by cbv
  obtain ⟨β, hβ⟩ := fits.2 (by omega)
  obtain ⟨rfl, h⟩ := decodes β hβ
  exact ⟨sorted_nested, form nested, hβ, length.trans bytes, h⟩

end BlockWalk.DagBinary
