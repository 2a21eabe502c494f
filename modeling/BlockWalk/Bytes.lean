/-!
# Byte strings

Blocks, identifiers and files are byte strings. They are lists, so that every reader and writer of
this library recurses on the data; a text is stored as its UTF-8 bytes.

* `Bytes.ofText` and `Bytes.toText?` — the UTF-8 form of a text, and the text that bytes spell.
* `Bytes.littleEndian` and `Bytes.natValue` — a number in a fixed count of bytes, lowest first.
* `Bytes.split?` — the first bytes of a string, if there are that many.
-/

namespace BlockWalk

/-- A byte string. -/
abbrev Bytes : Type := List UInt8

namespace Bytes

/-! ## Text -/

/-- The UTF-8 bytes of a text. -/
def ofText (s : String) : Bytes := s.toUTF8.data.toList

/-- The text that `β` spells in UTF-8, if it spells one. -/
def toText? (β : Bytes) : Option String := String.fromUTF8? ⟨β.toArray⟩

/-! ## Fixed width numbers -/

/-- The lowest `w` bytes of `n`, lowest first. -/
def littleEndian : (w : Nat) → (n : Nat) → Bytes
  | 0, _ => []
  | w + 1, n => n.toUInt8 :: littleEndian w (n / 256)

/-- The number whose bytes are `β`, lowest first. -/
def natValue : Bytes → Nat
  | [] => 0
  | b :: β => b.toNat + 256 * natValue β

/-- A number below `256 ^ w` is read back from its `w` bytes. -/
theorem natValue_littleEndian (w n : Nat) : natValue (littleEndian w n) = n % Nat.pow 256 w := by
  induction w generalizing n with
  | zero => simp [littleEndian, natValue, Nat.mod_one]
  | succ w ih =>
    have h : n.toUInt8.toNat = n % 256 := by simp
    have e : Nat.pow 256 (w + 1) = 256 * Nat.pow 256 w := Nat.pow_succ'
    rw [littleEndian, natValue, ih, h, e, Nat.mod_mul]

@[simp] theorem length_littleEndian (w n : Nat) : (littleEndian w n).length = w := by
  induction w generalizing n with
  | zero => rfl
  | succ w ih => simp [littleEndian, ih]

/-! ## Cutting -/

/-- The first `n` bytes of `β` and the bytes after them, if there are that many. -/
def split? (n : Nat) (β : Bytes) : Option (Bytes × Bytes) :=
  let (α, γ) := β.splitAt n
  if α.length = n then some (α, γ) else none

/-- A string is cut after a part of the asked length. -/
theorem split?_append (α γ : Bytes) : split? α.length (α ++ γ) = some (α, γ) := by
  simp [split?, List.splitAt_eq]

/-- What is cut off is put back by appending. -/
theorem eq_append_of_split? {n : Nat} {β α γ : Bytes} (h : split? n β = some (α, γ)) :
    β = α ++ γ ∧ α.length = n := by
  simp only [split?, List.splitAt_eq] at h
  split at h
  · next hn =>
    obtain ⟨rfl, rfl⟩ := Prod.mk.inj (Option.some.inj h)
    exact ⟨(List.take_append_drop n β).symm, hn⟩
  · cases h

end Bytes

end BlockWalk
