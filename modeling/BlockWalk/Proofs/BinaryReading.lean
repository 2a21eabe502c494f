import BlockWalk.Proofs.BinaryForm
import BlockWalk.Proofs.TextOrder
import Mathlib

/-!
# What bytes are read from

Bytes that are read as a node are the form of a node, but for one thing: the entries of a map may
stand there in any order, and with one key twice. So there is a node of which they are the form, its
maps listed as they stand there, and what is read is this node with its maps in order. To write that
again loses the entries that are replaced and puts the others in order, and changes nothing else.

* `DagBinary.exists_form_of_readNode` — a node is read from a form only.
* `DagBinary.form_append_inj` — no form is the beginning of another, so bytes are the form of one
  node.
* `DagBinary.decode_eq_ok_iff` — bytes decode to a node if they are the form of a node that is this
  one in order.
* `DagBinary.encode_decode_canonical` — what it does to bytes to decode them and to encode the node.
-/

namespace BlockWalk

namespace Bytes

theorem natValue_lt (β : Bytes) : natValue β < Nat.pow 256 β.length := by
  induction β with
  | nil => exact Nat.one_pos
  | cons b β ih =>
    have one : b.toNat < 256 := b.toNat_lt
    have more : Nat.pow 256 (β.length + 1) = 256 * Nat.pow 256 β.length := Nat.pow_succ'
    rw [natValue, List.length_cons, more]
    omega

/-- Bytes are those of their number. -/
theorem littleEndian_natValue (β : Bytes) : littleEndian β.length (natValue β) = β := by
  induction β with
  | nil => rfl
  | cons b β ih =>
    have one : b.toNat < 256 := b.toNat_lt
    have low : (b.toNat + 256 * natValue β).toUInt8 = b := by
      rw [← UInt8.toNat_inj]
      simp
    have high : (b.toNat + 256 * natValue β) / 256 = natValue β := by omega
    rw [natValue, List.length_cons, littleEndian, low, high, ih]

/-- A text is spelled by its bytes only. -/
theorem toText?_eq_some_iff {β : Bytes} {s : String} : toText? β = some s ↔ β = ofText s := by
  refine ⟨fun h => ?_, fun h => h ▸ toText?_ofText s⟩
  rw [toText?, String.fromUTF8?] at h
  split at h
  · obtain rfl := Option.some.inj h
    simp [ofText, String.fromUTF8]
  · cases h

end Bytes

namespace DagBinary

/-! ## Readings and what they leave -/

section

variable {α : Type} {β γ : Bytes}

/-- A chain of readings goes on with what its first part leaves. -/
theorem bind_reads_iff {ρ : Type} {read : Reader ρ} {k : ρ → Reader α} {a : α} :
    (read >>= k) β = .ok (a, γ) ↔ ∃ r δ, read β = .ok (r, δ) ∧ k r δ = .ok (a, γ) := by
  refine Iff.trans bind_eq_ok_iff ⟨?_, ?_⟩
  · rintro ⟨⟨r, δ⟩, hr, hk⟩
    exact ⟨r, δ, hr, hk⟩
  · rintro ⟨r, δ, hr, hk⟩
    exact ⟨(r, δ), hr, hk⟩

/-- Something is made of what is read. -/
theorem pure_bind_reads_iff {ρ : Type} {read : Reader ρ} {f : ρ → α} {a : α} :
    (read >>= fun r => pure (f r)) β = .ok (a, γ) ↔ ∃ r, read β = .ok (r, γ) ∧ f r = a := by
  refine bind_reads_iff.trans ⟨?_, ?_⟩
  · rintro ⟨r, δ, hr, ⟨⟩⟩
    exact ⟨r, hr, rfl⟩
  · rintro ⟨r, hr, rfl⟩
    exact ⟨r, γ, hr, rfl⟩

theorem readBytes_eq_ok_iff {n : Nat} {σ : Bytes} :
    readBytes n β = .ok (σ, γ) ↔ β = σ ++ γ ∧ σ.length = n := by
  constructor
  · intro h
    rw [readBytes] at h
    split at h
    · next r hr =>
      obtain rfl := Except.ok.inj h
      exact Bytes.eq_append_of_split? hr
    · cases h
  · rintro ⟨rfl, rfl⟩
    exact takes_readBytes σ γ

theorem readNat_eq_ok_iff {w n : Nat} :
    readNat w β = .ok (n, γ) ↔ β = Bytes.littleEndian w n ++ γ ∧ n < Nat.pow 256 w := by
  constructor
  · intro h
    rw [readNat, ← bind_pure_comp, pure_bind_reads_iff] at h
    obtain ⟨σ, hσ, rfl⟩ := h
    obtain ⟨rfl, rfl⟩ := readBytes_eq_ok_iff.1 hσ
    exact ⟨by rw [Bytes.littleEndian_natValue], Bytes.natValue_lt σ⟩
  · rintro ⟨rfl, h⟩
    exact takes_readNat h γ

theorem readWithLength_eq_ok_iff {σ : Bytes} :
    readWithLength β = .ok (σ, γ) ↔ β = withLength σ ++ γ ∧ σ.length < 2 ^ 64 := by
  constructor
  · intro h
    rw [readWithLength, bind_reads_iff] at h
    obtain ⟨n, δ, hn, h⟩ := h
    obtain ⟨rfl, small⟩ := readNat_eq_ok_iff.1 hn
    obtain ⟨rfl, rfl⟩ := readBytes_eq_ok_iff.1 h
    exact ⟨(List.append_assoc ..).symm, small⟩
  · rintro ⟨rfl, h⟩
    exact takes_readWithLength h γ

theorem readText_eq_ok_iff {s : String} :
    readText β = .ok (s, γ)
      ↔ β = withLength (Bytes.ofText s) ++ γ ∧ s.utf8ByteSize < 2 ^ 64 := by
  constructor
  · intro h
    rw [readText, bind_reads_iff] at h
    obtain ⟨σ, δ, hσ, h⟩ := h
    obtain ⟨rfl, small⟩ := readWithLength_eq_ok_iff.1 hσ
    cases ht : Bytes.toText? σ with
    | none => rw [ht] at h; cases h
    | some t =>
      rw [ht] at h
      cases h
      obtain rfl := Bytes.toText?_eq_some_iff.1 ht
      exact ⟨rfl, Bytes.length_ofText s ▸ small⟩
  · rintro ⟨rfl, h⟩
    exact takes_readText h γ

theorem readLink_eq_ok_iff {χ : Cid} :
    readLink β = .ok (χ, γ) ↔ β = withLength χ.toBytes ++ γ ∧ χ.toBytes.length < 2 ^ 64 := by
  constructor
  · intro h
    rw [readLink, bind_reads_iff] at h
    obtain ⟨σ, δ, hσ, h⟩ := h
    obtain ⟨rfl, small⟩ := readWithLength_eq_ok_iff.1 hσ
    cases hψ : Cid.ofBytes σ with
    | error ε => rw [hψ] at h; cases h
    | ok ψ =>
      rw [hψ] at h
      cases h
      obtain rfl := Cid.ofBytes_eq_ok_iff.1 hψ
      exact ⟨rfl, small⟩
  · rintro ⟨rfl, h⟩
    exact takes_readLink h γ

theorem readBool_eq_ok_iff {b : Bool} :
    readBool β = .ok (b, γ) ↔ β = (if b then 1 else 0) :: γ := by
  constructor
  · intro h
    rw [readBool, bind_reads_iff] at h
    obtain ⟨n, δ, hn, h⟩ := h
    obtain ⟨rfl, -⟩ := readNat_eq_ok_iff.1 hn
    split at h
    · cases h; rfl
    · cases h; rfl
    · cases h
  · rintro rfl
    exact takes_readBool b γ

/-- Parts that are read one by one are read from their forms, if each is. -/
theorem exists_of_readMany {ρ : Type} {read : Reader α} {P : ρ → Prop} {write : ρ → Bytes}
    {made : ρ → α}
    (only : ∀ β a γ, read β = .ok (a, γ) → ∃ p, P p ∧ made p = a ∧ β = write p ++ γ) {n : Nat}
    {before l : List α} (h : readMany read n before β = .ok (l, γ)) :
    ∃ parts : List ρ, parts.length = n ∧ (∀ p ∈ parts, P p) ∧ l = before.reverse ++ parts.map made
      ∧ β = parts.flatMap write ++ γ := by
  induction n generalizing before β with
  | zero =>
    cases h
    exact ⟨[], rfl, nofun, (List.append_nil _).symm, rfl⟩
  | succ n ih =>
    rw [readMany] at h
    split at h
    · next a δ ha =>
      obtain ⟨p, hp, rfl, rfl⟩ := only _ _ _ ha
      obtain ⟨parts, rfl, hparts, rfl, rfl⟩ := ih h
      refine ⟨p :: parts, rfl, List.forall_mem_cons.2 ⟨hp, hparts⟩, ?_, ?_⟩
      · rw [List.reverse_cons, List.append_assoc]
        rfl
      · rw [List.flatMap_cons, List.append_assoc]
    · cases h

end

/-! ## Nodes -/

/-- An entry of a map is read from its key and the form of its value. -/
theorem exists_form_of_readEntry {read : Reader Node}
    (only : ∀ β v γ, read β = .ok (v, γ) → ∃ w, Fits w ∧ w.ordered = v ∧ β = form w ++ γ)
    {β γ : Bytes} {e : String × Node} (h : readEntry read β = .ok (e, γ)) :
    ∃ f : String × Node, (f.1.utf8ByteSize < 2 ^ 64 ∧ Fits f.2) ∧ (f.1, f.2.ordered) = e
      ∧ β = withLength (Bytes.ofText f.1) ++ form f.2 ++ γ := by
  obtain ⟨k, δ, hk, value⟩ := bind_reads_iff.1 h
  obtain ⟨rfl, small⟩ := readText_eq_ok_iff.1 hk
  obtain ⟨v, hv, rfl⟩ := pure_bind_reads_iff.1 value
  obtain ⟨w, fits, rfl, rfl⟩ := only _ _ _ hv
  exact ⟨(k, w), ⟨small, fits⟩, rfl, (List.append_assoc ..).symm⟩

/-- **A node is read from a form only**: from that of a node that is in order the one that is
read. -/
theorem exists_form_of_readNode {d : Nat} {β γ : Bytes} {v : Node}
    (h : readNode d β = .ok (v, γ)) : ∃ w, Fits w ∧ w.ordered = v ∧ β = form w ++ γ := by
  induction d generalizing β γ v with
  | zero => cases h
  | succ d ih =>
    rw [readNode, bind_reads_iff] at h
    obtain ⟨kind, δ, hkind, content⟩ := h
    obtain ⟨rfl, -⟩ := readNat_eq_ok_iff.1 hkind
    split at content
    · cases content
      refine ⟨.null, fits_of_size (by simp [size]), Node.ordered_leaf rfl rfl, ?_⟩
      rw [form]
      rfl
    · obtain ⟨b, hb, rfl⟩ := pure_bind_reads_iff.1 content
      obtain rfl := readBool_eq_ok_iff.1 hb
      refine ⟨.bool b, fits_of_size (by simp [size]), Node.ordered_leaf rfl rfl, ?_⟩
      rw [form, List.append_assoc]
      rfl
    · obtain ⟨n, hn, rfl⟩ := pure_bind_reads_iff.1 content
      obtain ⟨rfl, small⟩ := readNat_eq_ok_iff.1 hn
      have same : n.toUInt64.toInt64.toUInt64.toNat = n := by
        simpa using Nat.mod_eq_of_lt small
      refine ⟨.int _, fits_of_size (by simp [size]), Node.ordered_leaf rfl rfl, ?_⟩
      rw [form, same, List.append_assoc]
      rfl
    · obtain ⟨n, hn, rfl⟩ := pure_bind_reads_iff.1 content
      obtain ⟨rfl, small⟩ := readNat_eq_ok_iff.1 hn
      have same : n.toUInt64.toNat = n := by
        simpa using Nat.mod_eq_of_lt small
      refine ⟨.float _, fits_of_size (by simp [size]), Node.ordered_leaf rfl rfl, ?_⟩
      rw [form, same, List.append_assoc]
      rfl
    · obtain ⟨s, hs, rfl⟩ := pure_bind_reads_iff.1 content
      obtain ⟨rfl, small⟩ := readText_eq_ok_iff.1 hs
      refine ⟨.str s, fits_str.2 small, Node.ordered_leaf rfl rfl, ?_⟩
      rw [form, List.append_assoc]
      rfl
    · obtain ⟨σ, hσ, rfl⟩ := pure_bind_reads_iff.1 content
      obtain ⟨rfl, small⟩ := readWithLength_eq_ok_iff.1 hσ
      refine ⟨.bytes σ, fits_bytes.2 small, Node.ordered_leaf rfl rfl, ?_⟩
      rw [form, List.append_assoc]
      rfl
    · obtain ⟨n, ε, hn, parts⟩ := bind_reads_iff.1 content
      obtain ⟨rfl, few⟩ := readNat_eq_ok_iff.1 hn
      obtain ⟨l, hl, rfl⟩ := pure_bind_reads_iff.1 parts
      obtain ⟨items, rfl, fits, rfl, rfl⟩ := exists_of_readMany (fun β a γ ha => ih ha) hl
      refine ⟨.list items, fits_list.2 ⟨few, fits⟩, by rw [Node.ordered]; rfl, ?_⟩
      rw [form, List.append_assoc, List.append_assoc]
      rfl
    · obtain ⟨n, ε, hn, parts⟩ := bind_reads_iff.1 content
      obtain ⟨rfl, few⟩ := readNat_eq_ok_iff.1 hn
      obtain ⟨l, hl, rfl⟩ := pure_bind_reads_iff.1 parts
      obtain ⟨entries, rfl, fits, rfl, rfl⟩ :=
        exists_of_readMany (fun β a γ => exists_form_of_readEntry fun β a γ ha => ih ha) hl
      refine ⟨.map entries, fits_map.2 ⟨few, fits⟩, by rw [Node.ordered]; rfl, ?_⟩
      rw [form, List.append_assoc, List.append_assoc]
      rfl
    · obtain ⟨χ, hχ, rfl⟩ := pure_bind_reads_iff.1 content
      obtain ⟨rfl, small⟩ := readLink_eq_ok_iff.1 hχ
      refine ⟨.link χ, fits_link.2 small, Node.ordered_leaf rfl rfl, ?_⟩
      rw [form, List.append_assoc]
      rfl
    · cases content

/-- **Bytes decode to a node** if they are the form of a node that is this one in order. -/
theorem decode_eq_ok_iff {β : Bytes} {v : Node} :
    decode β = .ok v ↔ ∃ w, Fits w ∧ form w = β ∧ w.ordered = v := by
  constructor
  · intro h
    obtain ⟨⟨u, γ⟩, read, whole⟩ := bind_eq_ok_iff.1 h
    obtain ⟨w, fits, rfl, rfl⟩ := exists_form_of_readNode read
    dsimp only at whole
    split at whole
    · next empty =>
      obtain rfl := List.isEmpty_iff.1 empty
      exact ⟨w, fits, (List.append_nil _).symm, Except.ok.inj whole⟩
    · cases whole
  · rintro ⟨w, fits, rfl, rfl⟩
    exact decode_form_of_fits fits

/-! ## Where a form ends -/

/-- What a reader takes from the start of bytes, with what it leaves, is determined by them. -/
theorem Takes.append_inj {α : Type} {read : Reader α} {σ τ γ δ : Bytes} {a b : α}
    (h : Takes read σ a) (h' : Takes read τ b) (same : σ ++ γ = τ ++ δ) : a = b ∧ γ = δ := by
  have read := h γ
  rw [same, h' δ] at read
  obtain ⟨rfl, rfl⟩ := Prod.mk.inj (Except.ok.inj read)
  exact ⟨rfl, rfl⟩

/-- Parts that cannot be told apart in a row are the same, if there are as many. -/
theorem flatMap_inj {ρ : Type} {write : ρ → Bytes} {parts parts' : List ρ}
    (free : ∀ p ∈ parts, ∀ q ∈ parts', ∀ γ δ, write p ++ γ = write q ++ δ → p = q ∧ γ = δ)
    (length : parts.length = parts'.length)
    (same : parts.flatMap write = parts'.flatMap write) : parts = parts' := by
  induction parts generalizing parts' with
  | nil => exact (List.length_eq_zero_iff.1 length.symm).symm
  | cons p parts ih =>
    cases parts' with
    | nil => cases length
    | cons q parts' =>
      rw [List.flatMap_cons, List.flatMap_cons] at same
      obtain ⟨rfl, rest⟩ := free p List.mem_cons_self q List.mem_cons_self _ _ same
      refine congrArg (p :: ·) (ih (fun p' hp' q hq => ?_) (Nat.succ.inj length) rest)
      exact free p' (List.mem_cons_of_mem p hp') q (List.mem_cons_of_mem p hq)

/-- Nodes of one form are in order the same. -/
theorem ordered_eq_of_append {v w : Node} (hv : Fits v) (hw : Fits w) {γ δ : Bytes}
    (same : form v ++ γ = form w ++ δ) : v.ordered = w.ordered ∧ γ = δ :=
  (takes_form hv (Nat.le_max_left (size v) (size w))).append_inj
    (takes_form hw (Nat.le_max_right (size v) (size w))) same

/-- Bytes are the form of one node. -/
theorem form_inj {v w : Node} (hv : Fits v) (hw : Fits w) (same : form v = form w) : v = w := by
  induction v using Node.ind generalizing w with
  | list items ih =>
    obtain ⟨inOrder, -⟩ := ordered_eq_of_append hv hw (congrArg (· ++ []) same)
    obtain ⟨items', rfl⟩ := Node.exists_list_of_ordered (inOrder.symm.trans (by rw [Node.ordered]))
    obtain ⟨few, fits⟩ := fits_list.1 hv
    obtain ⟨few', fits'⟩ := fits_list.1 hw
    rw [form, form, List.append_assoc, List.append_assoc] at same
    obtain ⟨length, parts⟩ := (takes_readNat few).append_inj (takes_readNat few')
      (List.append_cancel_left same)
    refine congrArg Node.list (flatMap_inj (fun p hp q hq γ δ h => ?_) length parts)
    obtain ⟨-, rfl⟩ := ordered_eq_of_append (fits p hp) (fits' q hq) h
    exact ⟨ih p hp (fits p hp) (fits' q hq) (List.append_cancel_right h), rfl⟩
  | map entries ih =>
    obtain ⟨inOrder, -⟩ := ordered_eq_of_append hv hw (congrArg (· ++ []) same)
    obtain ⟨entries', rfl⟩ := Node.exists_map_of_ordered (inOrder.symm.trans (by rw [Node.ordered]))
    obtain ⟨few, fits⟩ := fits_map.1 hv
    obtain ⟨few', fits'⟩ := fits_map.1 hw
    rw [form, form, List.append_assoc, List.append_assoc] at same
    obtain ⟨length, parts⟩ := (takes_readNat few).append_inj (takes_readNat few')
      (List.append_cancel_left same)
    refine congrArg Node.map (flatMap_inj (fun p hp q hq γ δ h => ?_) length parts)
    rw [List.append_assoc, List.append_assoc] at h
    obtain ⟨key, h⟩ := (takes_readText (fits p hp).1).append_inj (takes_readText (fits' q hq).1) h
    obtain ⟨-, rfl⟩ := ordered_eq_of_append (fits p hp).2 (fits' q hq).2 h
    have value := ih p hp (fits p hp).2 (fits' q hq).2 (List.append_cancel_right h)
    exact ⟨Prod.ext key value, rfl⟩
  | _ =>
    obtain ⟨inOrder, -⟩ := ordered_eq_of_append hv hw (congrArg (· ++ []) same)
    rw [Node.ordered_leaf rfl rfl] at inOrder
    exact (Node.eq_of_ordered_leaf rfl rfl inOrder.symm).symm

/-- **No form is the beginning of another.** -/
theorem form_append_inj {v w : Node} (hv : Fits v) (hw : Fits w) {γ δ : Bytes}
    (same : form v ++ γ = form w ++ δ) : v = w ∧ γ = δ := by
  obtain ⟨-, rfl⟩ := ordered_eq_of_append hv hw same
  exact ⟨form_inj hv hw (List.append_cancel_right same), rfl⟩

/-! ## Nodes in order -/

/-- A node is no larger in order. -/
theorem size_ordered_le (v : Node) : size v.ordered ≤ size v := by
  induction v using Node.ind with
  | list items ih =>
    have parts : (items.map fun v => size v.ordered).sum ≤ (items.map fun v => size v).sum :=
      List.sum_le_sum ih
    rw [Node.ordered, size, size, List.map_map]
    exact Nat.add_le_add_left parts 12
  | map entries ih =>
    have kept := sum_map_le_of_subperm
      (Fields.ofList_subperm (entries.map fun e => (e.1, e.2.ordered)))
      fun e => 8 + e.1.utf8ByteSize + size e.2
    have parts : (entries.map fun e => 8 + e.1.utf8ByteSize + size e.2.ordered).sum
        ≤ (entries.map fun e => 8 + e.1.utf8ByteSize + size e.2).sum :=
      List.sum_le_sum fun e he => Nat.add_le_add_left (ih e he) _
    rw [List.map_map] at kept
    rw [Node.ordered, size, size]
    exact Nat.add_le_add_left (kept.trans parts) 12
  | _ => rw [Node.ordered_leaf rfl rfl]

theorem fits_ordered {v : Node} (h : Fits v) : Fits v.ordered := by
  induction v using Node.ind with
  | list items ih =>
    obtain ⟨few, fits⟩ := fits_list.1 h
    rw [Node.ordered, fits_list, List.length_map, List.forall_mem_map]
    exact ⟨few, fun v hv => ih v hv (fits v hv)⟩
  | map entries ih =>
    obtain ⟨few, fits⟩ := fits_map.1 h
    have fewer := (Fields.ofList_subperm (entries.map fun e => (e.1, e.2.ordered))).length_le
    rw [List.length_map] at fewer
    rw [Node.ordered, fits_map]
    refine ⟨Nat.lt_of_le_of_lt fewer few, fun e he => ?_⟩
    obtain ⟨f, hf, rfl⟩ := Node.exists_of_mem_ofList he
    exact ⟨(fits f hf).1, ih f hf (fits f hf).2⟩
  | _ => rwa [Node.ordered_leaf rfl rfl]

/-- Every map inside a node lists its keys in increasing order of their bytes, each once. -/
def KeysIncrease (v : Node) : Prop :=
  ∀ entries ∈ v.maps, (entries.map fun e => Bytes.ofText e.1).Pairwise (· < ·)

theorem keysIncrease_iff {v : Node} : KeysIncrease v ↔ v.Sorted := by
  rw [KeysIncrease, Node.sorted_iff_maps]
  simp only [List.pairwise_map, Bytes.ofText_lt_iff, Fields.Sorted]

/-- A node is in order if its form is that of the node in order. -/
theorem form_ordered_eq_iff {v : Node} (fits : Fits v) :
    form v.ordered = form v ↔ KeysIncrease v := by
  rw [keysIncrease_iff]
  constructor
  · intro same
    exact form_inj (fits_ordered fits) fits same ▸ Node.sorted_ordered v
  · intro sorted
    rw [Node.ordered_of_sorted sorted]

/-- **Bytes that decode are encoded again in their one form.** They are the form of one node, and
decode to this node with its maps in order. The form of what is decoded is no longer than they are,
and the same if every map inside them lists its keys in increasing order. So if they fit into a
block, what they decode to is encoded, to bytes that decode to it again. If they do not, and are in
order, it is too large. -/
theorem encode_decode_canonical {β : Bytes} {v : Node} (h : decode β = .ok v) :
    ∃ listed, (Fits listed ∧ form listed = β ∧ listed.ordered = v)
      ∧ (∀ other, Fits other → form other = β → other = listed)
      ∧ (form v).length ≤ β.length
      ∧ (form v = β ↔ KeysIncrease listed)
      ∧ (β.length ≤ 1048576 → ∃ β', encode v = .ok β' ∧ (β' = β ↔ KeysIncrease listed)
        ∧ decode β' = .ok v)
      ∧ (1048576 < β.length → KeysIncrease listed → encode v = .error .tooLarge) := by
  obtain ⟨listed, fits, rfl, rfl⟩ := decode_eq_ok_iff.1 h
  have shorter : (form listed.ordered).length ≤ (form listed).length := by
    rw [length_form, length_form]
    exact size_ordered_le listed
  have same := form_ordered_eq_iff fits
  refine ⟨listed, ⟨fits, rfl, rfl⟩, fun other hother => form_inj hother fits, shorter, same, ?_, ?_⟩
  · intro small
    refine ⟨form listed.ordered, ?_, same, decode_form (Node.sorted_ordered listed) (by omega)⟩
    rw [encode_eq, if_pos (shorter.trans small)]
  · intro large increase
    rw [encode_eq, same.2 increase, if_neg (Nat.not_le.2 large)]

/-- A map that lists its keys out of order, and one of them twice. -/
def outOfOrder : Node := .map [("b", .null), ("a", .null), ("a", .bool true)]

/-- Its entry of the key that is there twice is the last one. -/
theorem ordered_outOfOrder : outOfOrder.ordered = .map [("a", .bool true), ("b", .null)] := by
  have null : Node.null.ordered = .null := Node.ordered_leaf rfl rfl
  have bool : (Node.bool true).ordered = .bool true := Node.ordered_leaf rfl rfl
  rw [outOfOrder, Node.ordered, List.map_cons, List.map_cons, List.map_singleton, null, bool]
  rfl

/-- A map out of order is encoded in order, to other bytes, which decode to the same node. -/
theorem encode_decode_canonical_outOfOrder :
    decode (form outOfOrder) = .ok (.map [("a", .bool true), ("b", .null)])
      ∧ ∃ β, encode (.map [("a", .bool true), ("b", .null)]) = .ok β ∧ β ≠ form outOfOrder
        ∧ decode β = .ok (.map [("a", .bool true), ("b", .null)]) := by
  have fits : Fits outOfOrder := fits_of_size (by cbv)
  have decodes := decode_form_of_fits fits
  rw [ordered_outOfOrder] at decodes
  obtain ⟨listed, -, unique, -, -, small, -⟩ := encode_decode_canonical decodes
  obtain rfl := unique outOfOrder fits rfl
  obtain ⟨β, hβ, same, again⟩ := small (by rw [length_form]; cbv)
  refine ⟨decodes, β, hβ, fun h => ?_, again⟩
  have sorted := keysIncrease_iff.1 (same.1 h)
  cases sorted with
  | map inOrder =>
    have first : "b" < "a" := (List.pairwise_cons.1 inOrder).1 ("a", .null) List.mem_cons_self
    exact absurd first (by decide)

end DagBinary

end BlockWalk
