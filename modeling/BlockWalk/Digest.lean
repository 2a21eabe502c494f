import BlockWalk.Bytes

/-!
# Digests

A digest is thirty-two bytes. Digests are compared byte by byte from the first.
-/

namespace BlockWalk

/-- The thirty-two bytes that stand for the content of a block. -/
structure Digest where
  /-- the bytes, first to last -/
  bytes : Bytes
  /-- there are thirty-two of them -/
  length_bytes : bytes.length = 32
  deriving DecidableEq, Repr

namespace Digest

/-- The digest with the given bytes, if there are thirty-two. -/
def ofBytes? (β : Bytes) : Option Digest := if h : β.length = 32 then some ⟨β, h⟩ else none

@[simp] theorem ofBytes?_bytes (δ : Digest) : ofBytes? δ.bytes = some δ := by
  simp [ofBytes?, δ.length_bytes]

/-- A digest that was read has the bytes it was read from. -/
theorem bytes_of_ofBytes? {β : Bytes} {δ : Digest} (h : ofBytes? β = some δ) : δ.bytes = β := by
  unfold ofBytes? at h
  split at h
  · exact (Option.some.inj h) ▸ rfl
  · cases h

instance : Ord Digest := ⟨fun δ ε => compare δ.bytes ε.bytes⟩

end Digest

end BlockWalk
