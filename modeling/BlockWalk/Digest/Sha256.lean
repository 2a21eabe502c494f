import BlockWalk.Digest

/-!
# SHA-256

The hash that addresses blocks. A message is padded to whole blocks of sixty-four bytes: a byte
`0x80`, zeros, and the length in bits as eight bytes, highest first. Each block in turn is mixed
into eight words of thirty-two bits, whose bytes at the end are the digest; that there are
thirty-two of them is the type of `sha256`.
-/

namespace BlockWalk.Digest

namespace Sha256

/-! ## Words -/

/-- The number that four bytes spell, highest first. -/
def word (β : Bytes) : UInt32 := (Bytes.natValue β.reverse).toUInt32

/-- The four bytes of a word, highest first. -/
def wordBytes (w : UInt32) : Bytes := (Bytes.littleEndian 4 w.toNat).reverse

@[simp] theorem length_wordBytes (w : UInt32) : (wordBytes w).length = 4 := by simp [wordBytes]

/-- Rotation to the right. -/
def rotate (w : UInt32) (n : UInt32) : UInt32 := (w >>> n) ||| (w <<< (32 - n))

/-! ## The schedule of a block -/

/-- The sixty-four round constants. -/
def constants : List UInt32 :=
  [0x428a2f98, 0x71374491, 0xb5c0fbcf, 0xe9b5dba5, 0x3956c25b, 0x59f111f1, 0x923f82a4, 0xab1c5ed5,
   0xd807aa98, 0x12835b01, 0x243185be, 0x550c7dc3, 0x72be5d74, 0x80deb1fe, 0x9bdc06a7, 0xc19bf174,
   0xe49b69c1, 0xefbe4786, 0x0fc19dc6, 0x240ca1cc, 0x2de92c6f, 0x4a7484aa, 0x5cb0a9dc, 0x76f988da,
   0x983e5152, 0xa831c66d, 0xb00327c8, 0xbf597fc7, 0xc6e00bf3, 0xd5a79147, 0x06ca6351, 0x14292967,
   0x27b70a85, 0x2e1b2138, 0x4d2c6dfc, 0x53380d13, 0x650a7354, 0x766a0abb, 0x81c2c92e, 0x92722c85,
   0xa2bfe8a1, 0xa81a664b, 0xc24b8b70, 0xc76c51a3, 0xd192e819, 0xd6990624, 0xf40e3585, 0x106aa070,
   0x19a4c116, 0x1e376c08, 0x2748774c, 0x34b0bcb5, 0x391c0cb3, 0x4ed8aa4a, 0x5b9cca4f, 0x682e6ff3,
   0x748f82ee, 0x78a5636f, 0x84c87814, 0x8cc70208, 0x90befffa, 0xa4506ceb, 0xbef9a3f7, 0xc67178f2]

/-- The words of a block, four bytes each. -/
def words : (n : Nat) → Bytes → Array UInt32 → Array UInt32
  | 0, _, σ => σ
  | n + 1, β, σ => words n (β.drop 4) (σ.push (word (β.take 4)))

/-- Adds `n` words to a schedule, each mixed from four earlier ones. -/
def extend : (n : Nat) → Array UInt32 → Array UInt32
  | 0, σ => σ
  | n + 1, σ =>
    let near := σ.getD (σ.size - 2) 0
    let far := σ.getD (σ.size - 15) 0
    let s₁ := rotate near 17 ^^^ rotate near 19 ^^^ (near >>> 10)
    let s₀ := rotate far 7 ^^^ rotate far 18 ^^^ (far >>> 3)
    extend n (σ.push (s₁ + σ.getD (σ.size - 7) 0 + s₀ + σ.getD (σ.size - 16) 0))

/-- The sixty-four words that the rounds on a block take in. -/
def schedule (block : Bytes) : Array UInt32 := extend 48 (words 16 block #[])

/-! ## Mixing -/

/-- The eight words that carry the hash from block to block. -/
structure State where
  /-- first word -/
  a : UInt32
  /-- second word -/
  b : UInt32
  /-- third word -/
  c : UInt32
  /-- fourth word -/
  d : UInt32
  /-- fifth word -/
  e : UInt32
  /-- sixth word -/
  f : UInt32
  /-- seventh word -/
  g : UInt32
  /-- eighth word -/
  h : UInt32

/-- The words before any block. -/
def State.start : State :=
  ⟨0x6a09e667, 0xbb67ae85, 0x3c6ef372, 0xa54ff53a, 0x510e527f, 0x9b05688c, 0x1f83d9ab, 0x5be0cd19⟩

/-- One round, with its constant and its word of the schedule. -/
def State.round (s : State) (k w : UInt32) : State :=
  let t₁ := s.h + (rotate s.e 6 ^^^ rotate s.e 11 ^^^ rotate s.e 25)
    + ((s.e &&& s.f) ^^^ (~~~s.e &&& s.g)) + k + w
  let t₂ := (rotate s.a 2 ^^^ rotate s.a 13 ^^^ rotate s.a 22)
    + ((s.a &&& s.b) ^^^ (s.a &&& s.c) ^^^ (s.b &&& s.c))
  ⟨t₁ + t₂, s.a, s.b, s.c, s.d + t₁, s.e, s.f, s.g⟩

/-- Word by word sum. -/
def State.add (s t : State) : State :=
  ⟨s.a + t.a, s.b + t.b, s.c + t.c, s.d + t.d, s.e + t.e, s.f + t.f, s.g + t.g, s.h + t.h⟩

/-- Mixes one block in. -/
def State.absorb (s : State) (block : Bytes) : State :=
  s.add ((constants.zip (schedule block).toList).foldl (fun s (k, w) => s.round k w) s)

/-- Mixes `n` blocks in. -/
def State.absorbAll : (n : Nat) → State → Bytes → State
  | 0, s, _ => s
  | n + 1, s, β => absorbAll n (s.absorb (β.take 64)) (β.drop 64)

/-- The bytes of the eight words. -/
def State.bytes (s : State) : Bytes := [s.a, s.b, s.c, s.d, s.e, s.f, s.g, s.h].flatMap wordBytes

@[simp] theorem State.length_bytes (s : State) : s.bytes.length = 32 := by simp [State.bytes]

/-! ## Padding -/

/-- A message followed by its padding. -/
def pad (β : Bytes) : Bytes :=
  β ++ 0x80 :: List.replicate ((119 - β.length % 64) % 64) 0
    ++ (Bytes.littleEndian 8 (8 * β.length)).reverse

end Sha256

/-- The SHA-256 digest of a byte string. -/
def sha256 (β : Bytes) : Digest :=
  let message := Sha256.pad β
  ⟨(Sha256.State.start.absorbAll (message.length / 64) message).bytes, by simp⟩

end BlockWalk.Digest
