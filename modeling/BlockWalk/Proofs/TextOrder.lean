import BlockWalk.Proofs.Readers
import Mathlib.Data.List.Basic

/-!
# The order of texts

Texts are in the order of their characters, and the members of a map in the order of their names.
The bytes of the texts are in the same order: the first byte of a character tells how many there
are, more for higher characters, and the digits of its number follow from the highest to the lowest.

* `Bytes.utf8EncodeChar_append_lt` — a lower character has lower bytes.
* `Bytes.ofText_lt_iff` — texts are in the order of their bytes.
-/

namespace BlockWalk.Bytes

/-- Bytes are in the order of the numbers that they are made of. -/
theorem ofNat_lt_iff {m n : Nat} (hm : m < 256) (hn : n < 256) :
    UInt8.ofNat m < UInt8.ofNat n ↔ m < n := by
  rw [UInt8.lt_iff_toNat_lt, UInt8.toNat_ofNat_of_lt' hm, UInt8.toNat_ofNat_of_lt' hn]

theorem ofNat_inj {m n : Nat} (hm : m < 256) (hn : n < 256) :
    UInt8.ofNat m = UInt8.ofNat n ↔ m = n := by
  rw [← UInt8.toNat_inj, UInt8.toNat_ofNat_of_lt' hm, UInt8.toNat_ofNat_of_lt' hn]

/-- Numbers are in the order of their digits to the base sixty-four. -/
theorem digits_lt {m n : Nat} (h : m < n) :
    m / 64 < n / 64 ∨ m / 64 = n / 64 ∧ m % 64 < n % 64 := by
  omega

/-- **A lower character has lower bytes**, whatever stands behind them. -/
theorem utf8EncodeChar_append_lt {c d : Char} (h : c < d) (γ δ : Bytes) :
    String.utf8EncodeChar c ++ γ < String.utf8EncodeChar d ++ δ := by
  have bound (c : Char) : c.val.toNat < 0x110000 := by
    have := c.valid
    simp only [UInt32.isValidChar, Nat.isValidChar] at this
    omega
  have hc := bound c
  have hd := bound d
  have lower : c.val.toNat < d.val.toNat := h
  rw [String.utf8EncodeChar, String.utf8EncodeChar]
  generalize c.val.toNat = m at *
  generalize d.val.toNat = n at *
  -- the digits of both, from the lowest to the highest
  have first := digits_lt lower
  have second := @digits_lt (m / 64) (n / 64)
  have third := @digits_lt (m / 64 / 64) (n / 64 / 64)
  have places (k : Nat) : k / 4096 = k / 64 / 64 ∧ k / 262144 = k / 64 / 64 / 64 := by omega
  simp only [places]
  split_ifs <;>
    simp (disch := omega) only [List.cons_append, List.nil_append, List.cons_lt_cons_iff,
      ofNat_lt_iff, ofNat_inj] <;>
    omega

/-- The bytes of a text are those of its characters. -/
theorem ofText_eq_flatMap (s : String) : ofText s = s.toList.flatMap String.utf8EncodeChar := by
  rw [ofText, String.toUTF8_eq_toByteArray, ← String.ofList_toList (s := s),
    String.toByteArray_ofList, String.toList_ofList]
  induction s.toList with
  | nil => rfl
  | cons c cs ih =>
    rw [List.utf8Encode_cons, List.utf8Encode_singleton, ByteArray.data_append,
      Array.toList_append, ih]
    simp

/-- A lower text has lower bytes. -/
theorem ofText_lt_of_lt {s t : String} (h : s < t) : ofText s < ofText t := by
  have lower : s.toList < t.toList := String.lt_iff.1 h
  rw [ofText_eq_flatMap, ofText_eq_flatMap]
  generalize s.toList = cs at lower
  generalize t.toList = ds at lower
  induction cs generalizing ds with
  | nil =>
    cases ds with
    | nil => cases lower
    | cons d ds =>
      have some : 0 < (String.utf8EncodeChar d).length :=
        String.length_utf8EncodeChar d ▸ d.utf8Size_pos
      obtain ⟨b, β, hb⟩ := List.exists_cons_of_length_pos some
      rw [List.flatMap_nil, List.flatMap_cons, hb]
      exact List.nil_lt_cons b _
  | cons c cs ih =>
    cases ds with
    | nil => cases lower
    | cons d ds =>
      rw [List.flatMap_cons, List.flatMap_cons]
      rcases List.cons_lt_cons_iff.1 lower with first | ⟨rfl, rest⟩
      · exact utf8EncodeChar_append_lt first _ _
      · exact List.append_left_lt (ih ds rest)

/-- **Texts are in the order of their bytes.** -/
theorem ofText_lt_iff {s t : String} : ofText s < ofText t ↔ s < t := by
  refine ⟨fun h => ?_, ofText_lt_of_lt⟩
  refine Decidable.byContradiction fun notLower => ?_
  by_cases higher : t < s
  · exact List.lt_asymm h (ofText_lt_of_lt higher)
  · obtain rfl : s = t := String.le_antisymm (String.not_lt.1 higher) (String.not_lt.1 notLower)
    exact List.lt_irrefl _ h

end BlockWalk.Bytes
