import BlockWalk.Bytes.Base64
import BlockWalk.Proofs.Readers
import Mathlib.Algebra.Group.Nat.Defs

/-!
# Byte strings in symbols

A byte string has one form in base sixty-four, and a reader takes nothing else:
`Bytes.Base64.decode_eq_ok_iff`. Between bytes and symbols stand the values of the symbols, six bits
each (`Bytes.Base64.sextets`): symbols and their values correspond by a table, values and bytes by
arithmetic.
-/

namespace BlockWalk.Bytes.Base64

/-! ## Symbols and their values -/

/-- The values of the symbols of a byte string. -/
def sextets : Bytes → List Nat
  | [] => []
  | [a] => [a.toNat / 4, a.toNat % 4 * 16]
  | [a, b] => [a.toNat / 4, a.toNat % 4 * 16 + b.toNat / 16, b.toNat % 16 * 4]
  | a :: b :: c :: β =>
    a.toNat / 4 :: (a.toNat % 4 * 16 + b.toNat / 16) :: (b.toNat % 16 * 4 + c.toNat / 64) ::
      c.toNat % 64 :: sextets β

theorem symbols_eq (β : Bytes) : symbols β = (sextets β).map symbol := by
  fun_induction sextets β with
  | case4 a b c β ih => rw [symbols, ih, List.map_cons, List.map_cons, List.map_cons, List.map_cons]
  | _ => rfl

/-- The values of symbols have six bits. -/
theorem lt_of_mem_sextets {β : Bytes} {n : Nat} (h : n ∈ sextets β) : n < 64 := by
  have byte (b : UInt8) : b.toNat < 256 := b.toNat_lt
  fun_induction sextets β with
  | case1 => cases h
  | case2 a =>
    have := byte a
    simp only [List.mem_cons, List.not_mem_nil, or_false] at h
    omega
  | case3 a b =>
    have := byte a
    have := byte b
    simp only [List.mem_cons, List.not_mem_nil, or_false] at h
    omega
  | case4 a b c β ih =>
    have := byte a
    have := byte b
    have := byte c
    simp only [List.mem_cons] at h
    rcases h with h | h | h | h | h
    · omega
    · omega
    · omega
    · omega
    · exact ih h

/-- A symbol is one byte, no sign of padding, and has its value. -/
theorem symbol_spec {n : Nat} (h : n < 64) :
    (symbol n).utf8Size = 1 ∧ symbol n ≠ '=' ∧ value? (symbol n).toUInt8 = some n := by
  have all : ∀ k : Fin 64,
      (symbol k).utf8Size = 1 ∧ symbol k ≠ '=' ∧ value? (symbol k).toUInt8 = some k.val := by
    decide
  exact all ⟨n, h⟩

/-- A byte with a value is the symbol of that value. -/
theorem value?_eq_some_iff {b : UInt8} {n : Nat} :
    value? b = some n ↔ n < 64 ∧ b = (symbol n).toUInt8 := by
  have all : ∀ k : Fin 256, ∀ m ∈ value? (UInt8.ofNat k),
      m < 64 ∧ UInt8.ofNat k = (symbol m).toUInt8 := by
    decide +kernel
  constructor
  · intro h
    have := all ⟨b.toNat, b.toNat_lt⟩
    rw [UInt8.ofNat_toNat] at this
    exact this n h
  · rintro ⟨hn, rfl⟩
    exact (symbol_spec hn).2.2

/-- The bytes of the symbols of a byte string. -/
def symbolBytes (σ : List Nat) : Bytes := σ.map fun n => (symbol n).toUInt8

theorem ofText_encode (β : Bytes) : ofText (encode β) = symbolBytes (sextets β) := by
  rw [encode, ofText_ofList, symbols_eq, List.map_map]
  · rfl
  · intro c hc
    rw [symbols_eq] at hc
    obtain ⟨n, hn, rfl⟩ := List.mem_map.1 hc
    exact (symbol_spec (lt_of_mem_sextets hn)).1

/-- Values are read from the symbols that they have. -/
theorem values_eq_ok_iff {place : Nat} {β : Bytes} {σ : List Nat} :
    values place β = .ok σ ↔ β = symbolBytes σ ∧ ∀ n ∈ σ, n < 64 := by
  induction β generalizing place σ with
  | nil =>
    cases σ with
    | nil => simp [values, symbolBytes]
    | cons n σ => simp [values, symbolBytes]
  | cons b β ih =>
    rw [values]
    constructor
    · intro h
      split at h
      · cases h
      · next n hn =>
        obtain ⟨τ, hτ, h⟩ := bind_eq_ok_iff.1 h
        obtain rfl := Except.ok.inj h
        obtain ⟨lt, rfl⟩ := value?_eq_some_iff.1 hn
        obtain ⟨rfl, small⟩ := ih.1 hτ
        exact ⟨rfl, List.forall_mem_cons.2 ⟨lt, small⟩⟩
    · rintro ⟨h, hσ⟩
      cases σ with
      | nil => cases h
      | cons n σ =>
        obtain ⟨hn, hσ⟩ := List.forall_mem_cons.1 hσ
        obtain ⟨rfl, rfl⟩ := List.cons.inj h
        rw [(symbol_spec hn).2.2]
        exact bind_eq_ok_iff.2 ⟨σ, ih.2 ⟨rfl, hσ⟩, rfl⟩

/-! ## Values and bytes -/

/-- A byte is put together from the bits that two values have of it. -/
theorem toUInt8_eq {n : Nat} {b : UInt8} (h : n = b.toNat) : n.toUInt8 = b := by
  rw [h]
  exact UInt8.ofNat_toNat

/-- Bytes are joined from their values. -/
theorem join?_sextets (β : Bytes) : join? (sextets β) = some β := by
  fun_induction sextets β with
  | case1 => rfl
  | case2 a =>
    have ha : (a.toNat / 4 * 4 + a.toNat % 4 * 16 / 16).toUInt8 = a := toUInt8_eq (by omega)
    rw [join?, if_pos (by omega), ha]
  | case3 a b =>
    have hb := b.toNat_lt
    have ha : (a.toNat / 4 * 4 + (a.toNat % 4 * 16 + b.toNat / 16) / 16).toUInt8 = a :=
      toUInt8_eq (by omega)
    have hb : ((a.toNat % 4 * 16 + b.toNat / 16) % 16 * 16 + b.toNat % 16 * 4 / 4).toUInt8 = b :=
      toUInt8_eq (by omega)
    rw [join?, if_pos (by omega), ha, hb]
  | case4 a b c β ih =>
    have hb := b.toNat_lt
    have hc := c.toNat_lt
    have ha : (a.toNat / 4 * 4 + (a.toNat % 4 * 16 + b.toNat / 16) / 16).toUInt8 = a :=
      toUInt8_eq (by omega)
    have hb : ((a.toNat % 4 * 16 + b.toNat / 16) % 16 * 16
        + (b.toNat % 16 * 4 + c.toNat / 64) / 4).toUInt8 = b :=
      toUInt8_eq (by omega)
    have hc : ((b.toNat % 16 * 4 + c.toNat / 64) % 4 * 64 + c.toNat % 64).toUInt8 = c :=
      toUInt8_eq (by omega)
    rw [join?, ih, ha, hb, hc]
    rfl

theorem toNat_toUInt8 {n : Nat} (h : n < 256) : n.toUInt8.toNat = n := by
  simp [Nat.mod_eq_of_lt h]

/-- Values that join are those of the bytes that they join to. -/
theorem eq_sextets_of_join? {σ : List Nat} {γ : Bytes} (hσ : ∀ n ∈ σ, n < 64)
    (h : join? σ = some γ) : σ = sextets γ := by
  fun_induction join? σ generalizing γ with
  | case1 =>
    obtain rfl := Option.some.inj h
    rfl
  | case2 => cases h
  | case3 a b hb =>
    obtain rfl := Option.some.inj h
    simp only [List.forall_mem_cons] at hσ
    obtain ⟨ha, hb', -⟩ := hσ
    rw [sextets, toNat_toUInt8 (by omega)]
    congr 2 <;> omega
  | case4 => cases h
  | case5 a b c hc =>
    obtain rfl := Option.some.inj h
    simp only [List.forall_mem_cons] at hσ
    obtain ⟨ha, hb, hc', -⟩ := hσ
    rw [sextets, toNat_toUInt8 (by omega), toNat_toUInt8 (by omega)]
    congr 3 <;> omega
  | case6 => cases h
  | case7 a b c d σ ih =>
    obtain ⟨β, hβ, h⟩ := Option.bind_eq_some_iff.1 h
    obtain rfl := Option.some.inj h
    simp only [List.forall_mem_cons] at hσ
    obtain ⟨ha, hb, hc, hd, hσ⟩ := hσ
    rw [sextets, toNat_toUInt8 (by omega), toNat_toUInt8 (by omega), toNat_toUInt8 (by omega),
      ← ih hσ hβ]
    congr 4 <;> omega

/-- No byte string has one symbol more than whole groups. -/
theorem length_sextets (β : Bytes) : (sextets β).length % 4 ≠ 1 := by
  fun_induction sextets β with
  | case4 a b c β ih =>
    simp only [List.length_cons]
    omega
  | _ => simp

/-- Reading symbols, check by check. -/
theorem decode_eq (β : Bytes) :
    decode β =
      if β.length % 4 = 1 ∧ β.getLastD 0 ≠ 61 ∧ value? (β.getLastD 0) = none then
        .error (.badSymbol (β.getLastD 0) (β.length - 1))
      else values 0 β >>= fun σ =>
        if β.length % 4 = 1 then .error (.badLength β.length)
        else match join? σ with
          | some γ => .ok γ
          | none => .error (.badEnd (β.getLastD 0) (β.length - 1)) := by
  rfl

/-- **A reader accepts exactly the symbols of a byte string.** -/
theorem decode_eq_ok_iff {β γ : Bytes} : decode β = .ok γ ↔ β = ofText (encode γ) := by
  simp only [decode_eq, check_eq_ok_iff, bind_eq_ok_iff, values_eq_ok_iff, ofText_encode]
  constructor
  · rintro ⟨-, σ, ⟨rfl, hσ⟩, -, h⟩
    split at h
    · next δ hδ =>
      obtain rfl := Except.ok.inj h
      rw [← eq_sextets_of_join? hσ hδ]
    · cases h
  · rintro rfl
    have groups : (symbolBytes (sextets γ)).length % 4 ≠ 1 := by
      rw [symbolBytes, List.length_map]
      exact length_sextets γ
    refine ⟨fun h => groups h.1, sextets γ, ⟨rfl, fun n => lt_of_mem_sextets⟩, groups, ?_⟩
    rw [join?_sextets]

/-- There is no sign of padding among the symbols of a byte string. -/
theorem ne_of_mem_encode {β : Bytes} {c : Char} (h : c ∈ (encode β).toList) : c ≠ '=' := by
  rw [encode, String.toList_ofList, symbols_eq] at h
  obtain ⟨n, hn, rfl⟩ := List.mem_map.1 h
  exact (symbol_spec (lt_of_mem_sextets hn)).2.1

end BlockWalk.Bytes.Base64
