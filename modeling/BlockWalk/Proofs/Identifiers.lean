import BlockWalk.Cid.Form
import BlockWalk.Proofs.Readers
import Mathlib.Algebra.Group.Nat.Defs

/-!
# The forms of an identifier

An identifier has one binary form and one text form, and each form is that of one identifier. Both
readers are said to accept exactly what is written: every part of a form has a statement of this
kind, and they are put together.

* `Bytes.Varint.read_eq_ok_iff` — a number below `2 ^ 64` and the bytes behind it.
* `Bytes.Base16.decode_eq_ok_iff` — digits of bytes.
* `Cid.ofBytes_eq_ok_iff` and `Cid.ofText_eq_ok_iff` — identifiers.
* `Cid.forms_bijective` — the forms and the identifiers correspond one to one.
-/

namespace BlockWalk

namespace Bytes

/-! ## Numbers of variable length -/

namespace Varint

/-- A small number is one byte. -/
theorem write_of_lt {n : Nat} (h : n < 128) : write n = [n.toUInt8] := by rw [write, if_pos h]

/-- Any other number is its lowest seven bits and the rest. -/
theorem write_of_ge {n : Nat} (h : 128 ≤ n) :
    write n = (n % 128 + 128).toUInt8 :: write (n / 128) := by
  rw [write, if_neg (Nat.not_lt.2 h)]

/-- A number of `7 * k + 7` bits takes `k + 1` bytes at most. -/
theorem length_write_le {k n : Nat} (h : n < 128 ^ (k + 1)) : (write n).length ≤ k + 1 := by
  induction k generalizing n with
  | zero =>
    rw [write_of_lt h]
    exact Nat.le_refl 1
  | succ k ih =>
    by_cases small : n < 128
    · rw [write_of_lt small, List.length_singleton]
      omega
    · have rest : n / 128 < 128 ^ (k + 1) := Nat.div_lt_of_lt_mul (by rwa [← Nat.pow_succ'])
      rw [write_of_ge (Nat.not_lt.1 small), List.length_cons]
      have := ih rest
      omega

/-- What a reader makes of the next group. -/
theorem readFrom_cons_eq_ok_iff {place n : Nat} {b : UInt8} {β γ : Bytes} :
    readFrom place (b :: β) = .ok (n, γ) ↔
      (place = 9 → b.toNat ≤ 1)
        ∧ (b.toNat < 128 ∧ (0 < place → 0 < b.toNat) ∧ n = b.toNat ∧ γ = β
          ∨ 128 ≤ b.toNat ∧ ∃ m, readFrom (place + 1) β = .ok (m, γ)
              ∧ n = b.toNat - 128 + 128 * m) := by
  have one : 1 < b ↔ 1 < b.toNat := UInt8.lt_iff_toNat_lt
  have last : b < 128 ↔ b.toNat < 128 := UInt8.lt_iff_toNat_lt
  have zero : b = 0 ↔ b.toNat = 0 := UInt8.toNat_inj.symm
  rw [readFrom, check_eq_ok_iff, one, not_and]
  refine and_congr ⟨fun h hp => Nat.not_lt.1 (h hp), fun h hp => Nat.not_lt.2 (h hp)⟩ ?_
  by_cases hb : b.toNat < 128
  · rw [if_pos (last.2 hb), check_eq_ok_iff, zero]
    simp only [Except.ok.injEq, Prod.mk.injEq, hb, true_and, Nat.not_le.2 hb, false_and, or_false]
    constructor
    · rintro ⟨ne, rfl, rfl⟩
      exact ⟨by omega, rfl, rfl⟩
    · rintro ⟨pos, rfl, rfl⟩
      exact ⟨by omega, rfl, rfl⟩
  · rw [if_neg fun h => hb (last.1 h), bind_eq_ok_iff]
    simp only [hb, false_and, false_or, Nat.not_lt.1 hb, true_and]
    constructor
    · rintro ⟨⟨m, δ⟩, hm, h⟩
      obtain ⟨rfl, rfl⟩ := Prod.mk.inj (Except.ok.inj h)
      exact ⟨m, hm, rfl⟩
    · rintro ⟨m, hm, rfl⟩
      exact ⟨(m, γ), hm, rfl⟩

/-- What is written is read back, from any place, if there is room for it: with `k` more groups to
come after this one a number may have `7 * k + 1` bits. Behind the first group a number that is zero
would not have been written. -/
theorem readFrom_write {k place n : Nat} (hk : place + k = 9) (hn : n < 2 * 128 ^ k)
    (pos : 0 < place → 0 < n) (β : Bytes) : readFrom place (write n ++ β) = .ok (n, β) := by
  induction k generalizing place n with
  | zero =>
    have hb : n.toUInt8.toNat = n := by simp; omega
    rw [write_of_lt (by omega), List.singleton_append, readFrom_cons_eq_ok_iff, hb]
    exact ⟨by omega, .inl ⟨by omega, pos, rfl, rfl⟩⟩
  | succ k ih =>
    rcases Nat.lt_or_ge n 128 with small | large
    · have hb : n.toUInt8.toNat = n := by simp; omega
      rw [write_of_lt small, List.singleton_append, readFrom_cons_eq_ok_iff, hb]
      exact ⟨by omega, .inl ⟨small, pos, rfl, rfl⟩⟩
    · have hb : (n % 128 + 128).toUInt8.toNat = n % 128 + 128 := by simp; omega
      rw [Nat.pow_succ] at hn
      have rest : readFrom (place + 1) (write (n / 128) ++ β) = .ok (n / 128, β) :=
        ih (by omega) (by omega) (by omega)
      rw [write_of_ge large, List.cons_append, readFrom_cons_eq_ok_iff, hb]
      exact ⟨by omega, .inr ⟨by omega, n / 128, rest, by omega⟩⟩

/-- What is read was written, and there was room for it. -/
theorem eq_write_of_readFrom {k place n : Nat} {β γ : Bytes} (hk : place + k = 9)
    (h : readFrom place β = .ok (n, γ)) :
    β = write n ++ γ ∧ n < 2 * 128 ^ k ∧ (0 < place → 0 < n) := by
  induction β generalizing k place n with
  | nil => cases h
  | cons b β ih =>
    have hlt := b.toNat_lt
    obtain ⟨fits, ⟨small, pos, rfl, rfl⟩ | ⟨large, m, hm, rfl⟩⟩ := readFrom_cons_eq_ok_iff.1 h
    · have hw : write b.toNat = [b] := by rw [write_of_lt small]; simp
      refine ⟨by rw [hw]; rfl, ?_, pos⟩
      cases k with
      | zero => omega
      | succ k =>
        have : 0 < 128 ^ k := Nat.pow_pos (by omega)
        rw [Nat.pow_succ]
        omega
    · obtain ⟨k, rfl⟩ : ∃ j, k = j + 1 := ⟨k - 1, by omega⟩
      obtain ⟨hβ, hm, pos⟩ := ih (k := k) (by omega) hm
      have := pos (by omega)
      have ge : 128 ≤ b.toNat - 128 + 128 * m := by omega
      have byte : (b.toNat - 128 + 128 * m) % 128 + 128 = b.toNat := by omega
      have rest : (b.toNat - 128 + 128 * m) / 128 = m := by omega
      refine ⟨?_, ?_, by omega⟩
      · rw [write_of_ge ge, byte, rest, hβ]
        simp
      · rw [Nat.pow_succ]
        omega

/-- **A reader accepts the form of a number below `2 ^ 64`**, and whatever bytes behind it. -/
theorem read_eq_ok_iff {n : Nat} {β γ : Bytes} :
    read β = .ok (n, γ) ↔ β = write n ++ γ ∧ n < 2 ^ 64 := by
  constructor
  · intro h
    obtain ⟨hβ, hn, -⟩ := eq_write_of_readFrom (k := 9) rfl h
    exact ⟨hβ, hn⟩
  · rintro ⟨rfl, hn⟩
    exact readFrom_write (k := 9) rfl hn nofun γ

end Varint

/-! ## Digits -/

namespace Base16

/-- The number of a digit among the characters. -/
theorem toNat_toUInt8_digit {n : Nat} (h : n < 16) :
    (digit n).toUInt8.toNat = if n < 10 then 48 + n else 87 + n := by
  have all : ∀ k : Fin 16,
      (digit k).toUInt8.toNat = if k.val < 10 then 48 + k.val else 87 + k.val := by
    decide
  exact all ⟨n, h⟩

/-- A digit is one byte, and not in upper case. -/
theorem utf8Size_digit {n : Nat} (h : n < 16) :
    (digit n).utf8Size = 1 ∧ (digit n).isUpper = false := by
  have all : ∀ k : Fin 16, (digit k).utf8Size = 1 ∧ (digit k).isUpper = false := by decide
  exact all ⟨n, h⟩

/-- The value of a byte, by its number. -/
theorem value_eq (b : UInt8) (place : Nat) :
    value b place =
      if 48 ≤ b.toNat ∧ b.toNat ≤ 57 then .ok (b.toNat - 48)
      else if 97 ≤ b.toNat ∧ b.toNat ≤ 102 then .ok (b.toNat - 87)
      else .error (.badDigit b place) := by
  simp [value, UInt8.le_iff_toNat_le]

/-- A byte has the value of the digit that it is. -/
theorem value_eq_ok_iff {b : UInt8} {place n : Nat} :
    value b place = .ok n ↔ n < 16 ∧ b = (digit n).toUInt8 := by
  rw [value_eq, ← UInt8.toNat_inj]
  constructor
  · intro h
    have hn : n < 16 ∧ b.toNat = if n < 10 then 48 + n else 87 + n := by
      split at h
      · have := Except.ok.inj h
        rw [if_pos] <;> omega
      · split at h
        · have := Except.ok.inj h
          rw [if_neg] <;> omega
        · cases h
    exact ⟨hn.1, hn.2.trans (toNat_toUInt8_digit hn.1).symm⟩
  · rintro ⟨hn, hb⟩
    rw [hb, toNat_toUInt8_digit hn]
    by_cases small : n < 10
    · rw [if_pos small, if_pos (by omega), Nat.add_sub_cancel_left]
    · rw [if_neg small, if_neg (by omega), if_pos (by omega), Nat.add_sub_cancel_left]

/-- The bytes of the digits of a byte string. -/
def digits (β : Bytes) : Bytes := β.flatMap fun b => (pair b).map Char.toUInt8

theorem digits_cons (b : UInt8) (β : Bytes) :
    digits (b :: β) =
      (digit (b.toNat / 16)).toUInt8 :: (digit (b.toNat % 16)).toUInt8 :: digits β := rfl

theorem length_digits (β : Bytes) : (digits β).length = 2 * β.length := by
  induction β with
  | nil => rfl
  | cons b β ih =>
    rw [digits_cons, List.length_cons, List.length_cons, ih, List.length_cons]
    omega

/-- Every character of a digit string is a digit. -/
theorem exists_digit_of_mem {β : Bytes} {c : Char} (h : c ∈ β.flatMap pair) :
    ∃ n, n < 16 ∧ c = digit n := by
  obtain ⟨b, -, hc⟩ := List.mem_flatMap.1 h
  have hb := b.toNat_lt
  have hc : c = digit (b.toNat / 16) ∨ c = digit (b.toNat % 16) := by simpa [pair] using hc
  rcases hc with rfl | rfl
  · exact ⟨b.toNat / 16, by omega, rfl⟩
  · exact ⟨b.toNat % 16, by omega, rfl⟩

theorem ofText_encode (β : Bytes) : ofText (encode β) = digits β := by
  rw [encode, ofText_ofList, List.map_flatMap, digits]
  intro c hc
  obtain ⟨n, hn, rfl⟩ := exists_digit_of_mem hc
  exact (utf8Size_digit hn).1

/-- The digits of a byte string are read back. -/
theorem decodeFrom_digits (place : Nat) (β : Bytes) : decodeFrom place (digits β) = .ok β := by
  induction β generalizing place with
  | nil => rfl
  | cons b β ih =>
    have hb := b.toNat_lt
    have high : value (digit (b.toNat / 16)).toUInt8 place = .ok (b.toNat / 16) :=
      value_eq_ok_iff.2 ⟨by omega, rfl⟩
    have low : value (digit (b.toNat % 16)).toUInt8 (place + 1) = .ok (b.toNat % 16) :=
      value_eq_ok_iff.2 ⟨by omega, rfl⟩
    rw [digits_cons, decodeFrom, high, low, ih]
    show Except.ok (_ :: _) = _
    rw [Nat.div_add_mod]
    simp

/-- What is read is the digits of what they are read as. -/
theorem eq_digits_of_decodeFrom {place : Nat} {β γ : Bytes} (h : decodeFrom place β = .ok γ) :
    β = digits γ := by
  fun_induction decodeFrom place β generalizing γ with
  | case1 => exact (Except.ok.inj h) ▸ rfl
  | case2 => cases h
  | case3 place high low β ih =>
    obtain ⟨m, hm, h⟩ := bind_eq_ok_iff.1 h
    obtain ⟨n, hn, h⟩ := bind_eq_ok_iff.1 h
    obtain ⟨δ, hδ, h⟩ := bind_eq_ok_iff.1 h
    obtain rfl := Except.ok.inj h
    obtain ⟨hm, rfl⟩ := value_eq_ok_iff.1 hm
    obtain ⟨hn, rfl⟩ := value_eq_ok_iff.1 hn
    have byte : (16 * m + n).toUInt8.toNat = 16 * m + n := by simp; omega
    have h₁ : (16 * m + n) / 16 = m := by omega
    have h₂ : (16 * m + n) % 16 = n := by omega
    rw [digits_cons, byte, h₁, h₂, ← ih hδ]

/-- **A reader accepts exactly the digits of a byte string.** -/
theorem decode_eq_ok_iff {β γ : Bytes} : decode β = .ok γ ↔ β = ofText (encode γ) := by
  rw [decode, check_eq_ok_iff, ofText_encode]
  constructor
  · exact fun h => eq_digits_of_decodeFrom h.2
  · rintro rfl
    refine ⟨?_, decodeFrom_digits 0 γ⟩
    rw [length_digits]
    omega

end Base16

end Bytes

/-! ## Identifiers -/

namespace Cid

theorem digestOfMultihash_eq_ok_iff {γ : Bytes} {δ : Digest} :
    digestOfMultihash γ = .ok δ ↔ γ = sha256Code :: digestLength :: δ.bytes := by
  match γ with
  | [] => exact ⟨nofun, nofun⟩
  | [h] => exact ⟨nofun, nofun⟩
  | h :: n :: β =>
    simp only [digestOfMultihash, check_eq_ok_iff, Decidable.not_not, List.cons.injEq]
    refine and_congr_right fun _ => and_congr_right fun _ => ?_
    constructor
    · intro h
      split at h
      · next δ' hδ => exact (Except.ok.inj h) ▸ (Digest.bytes_of_ofBytes? hδ).symm
      · cases h
    · rintro rfl
      rw [Digest.ofBytes?_bytes]

/-- Reading bytes, check by check. -/
theorem ofBytes_cons (v : UInt8) (β : Bytes) :
    ofBytes (v :: β) =
      if v ≠ version then .error (.version v) else
        (Bytes.Varint.read β).mapError Error.ofVarint >>= fun (n, γ) =>
          digestOfMultihash γ >>= fun δ => .ok ⟨⟨n.toUInt64⟩, δ⟩ := by
  rw [ofBytes]
  split <;> rfl

/-- **Bytes are read as an identifier exactly if they are its binary form.** -/
theorem ofBytes_eq_ok_iff {β : Bytes} {χ : Cid} : ofBytes β = .ok χ ↔ β = χ.toBytes := by
  cases β with
  | nil => exact ⟨nofun, nofun⟩
  | cons v β =>
    rw [ofBytes_cons, check_eq_ok_iff, Decidable.not_not, toBytes, List.cons.injEq]
    refine and_congr_right fun _ => ?_
    simp only [bind_eq_ok_iff, mapError_eq_ok_iff, Prod.exists, Bytes.Varint.read_eq_ok_iff,
      digestOfMultihash_eq_ok_iff]
    constructor
    · rintro ⟨n, γ, ⟨rfl, hn⟩, δ, rfl, h⟩
      obtain rfl := Except.ok.inj h
      have code : n.toUInt64.toNat = n := by simp; omega
      simp only [code]
    · rintro rfl
      refine ⟨χ.codec.code.toNat, _, ⟨rfl, χ.codec.code.toNat_lt⟩, χ.digest, rfl, ?_⟩
      simp

/-- The digits of a text form are not in upper case. -/
theorem any_isUpper_encode (β : Bytes) :
    (Bytes.Base16.encode β).toList.any Char.isUpper = false := by
  rw [List.any_eq_false]
  intro c hc
  rw [Bytes.Base16.encode, String.toList_ofList] at hc
  obtain ⟨n, hn, rfl⟩ := Bytes.Base16.exists_digit_of_mem hc
  rw [(Bytes.Base16.utf8Size_digit hn).2]
  exact Bool.false_ne_true

/-- A text form takes ninety-one bytes at most, since the number of a codec takes ten. -/
theorem utf8ByteSize_toText_le (χ : Cid) : χ.toText.utf8ByteSize ≤ 91 := by
  have code : χ.codec.code.toNat < 128 ^ (9 + 1) :=
    Nat.lt_trans χ.codec.code.toNat_lt (by decide)
  have number := Bytes.Varint.length_write_le code
  have digits : (Bytes.Base16.encode χ.toBytes).utf8ByteSize = 2 * χ.toBytes.length := by
    rw [← Bytes.length_ofText, Bytes.Base16.ofText_encode, Bytes.Base16.length_digits]
  rw [toText, String.utf8ByteSize_append, digits, toBytes]
  simp only [List.length_cons, List.length_append, χ.digest.length_bytes]
  have letter : "f".utf8ByteSize = 1 := rfl
  omega

/-- Reading a text, check by check. -/
theorem ofText_of_toList {s : String} {c : Char} {σ : List Char} (h : s.toList = c :: σ) :
    ofText s =
      if c ≠ 'f' then .error (.multibase c) else
        if σ.any Char.isUpper then .error .upperCase else
          (Bytes.Base16.decode (Bytes.ofText (String.ofList σ))).mapError .base16 >>= ofBytes := by
  rw [ofText, h]
  dsimp only
  split
  · rfl
  · split <;> rfl

/-- **A text is read as an identifier exactly if it is its text form.** -/
theorem ofText_eq_ok_iff {s : String} {χ : Cid} : ofText s = .ok χ ↔ s = χ.toText := by
  have text : χ.toText.toList = 'f' :: (Bytes.Base16.encode χ.toBytes).toList := by
    simp [toText]
  rw [← String.toList_inj, text]
  cases h : s.toList with
  | nil =>
    rw [ofText, h]
    exact ⟨nofun, nofun⟩
  | cons c σ =>
    rw [ofText_of_toList h, check_eq_ok_iff, check_eq_ok_iff, Decidable.not_not, List.cons.injEq]
    refine and_congr_right fun _ => ?_
    simp only [bind_eq_ok_iff, mapError_eq_ok_iff, Bytes.Base16.decode_eq_ok_iff, ofBytes_eq_ok_iff,
      Bytes.ofText_injective.eq_iff]
    constructor
    · rintro ⟨-, β, hσ, rfl⟩
      rw [← hσ, String.toList_ofList]
    · rintro rfl
      refine ⟨?_, χ.toBytes, String.ofList_toList, rfl⟩
      rw [any_isUpper_encode]
      exact Bool.false_ne_true

/-- **Identifiers and their forms correspond one to one.** Bytes are read as an identifier exactly
if they are its binary form, and a text exactly if it is its text form; so no two byte strings and
no two texts are read as one identifier, and no two identifiers have one form. -/
theorem forms_bijective :
    (∀ β χ, ofBytes β = .ok χ ↔ β = χ.toBytes)
      ∧ (∀ s χ, ofText s = .ok χ ↔ s = χ.toText)
      ∧ (∀ β γ χ, ofBytes β = .ok χ → ofBytes γ = .ok χ → β = γ)
      ∧ (∀ s t χ, ofText s = .ok χ → ofText t = .ok χ → s = t)
      ∧ Function.Injective toBytes ∧ Function.Injective toText := by
  refine ⟨fun _ _ => ofBytes_eq_ok_iff, fun _ _ => ofText_eq_ok_iff, ?_, ?_, ?_, ?_⟩
  · intro β γ χ hβ hγ
    rw [ofBytes_eq_ok_iff.1 hβ, ofBytes_eq_ok_iff.1 hγ]
  · intro s t χ hs ht
    rw [ofText_eq_ok_iff.1 hs, ofText_eq_ok_iff.1 ht]
  · intro χ ψ h
    exact Except.ok.inj ((ofBytes_eq_ok_iff.2 rfl).symm.trans (ofBytes_eq_ok_iff.2 h))
  · intro χ ψ h
    exact Except.ok.inj ((ofText_eq_ok_iff.2 rfl).symm.trans (ofText_eq_ok_iff.2 h))

end Cid

end BlockWalk
