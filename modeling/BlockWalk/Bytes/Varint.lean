import BlockWalk.Bytes

/-!
# Variable length numbers

A number is written as groups of seven bits, lowest first; every byte but the last has its high bit
set. A reader takes the one shortest form of a number below `2 ^ 64` and refuses all others, so a
number has exactly one form.
-/

namespace BlockWalk.Bytes.Varint

/-- Why bytes do not start with a number in its shortest form. -/
inductive Error where
  /-- the bytes end inside the number -/
  | truncated
  /-- the number is `2 ^ 64` or more -/
  | overflow
  /-- the last group is zero and could have been left out -/
  | notMinimal
  deriving DecidableEq, Repr

/-- The groups of `n`, lowest first. -/
def write (n : Nat) : Bytes :=
  if n < 128 then [n.toUInt8] else (n % 128 + 128).toUInt8 :: write (n / 128)

/-- Reads on from the group at `place`. Ten groups reach beyond sixty-four bits: of the tenth only
the lowest bit may be set, which also ends the number. -/
def readFrom (place : Nat) : Bytes → Except Error (Nat × Bytes)
  | [] => .error .truncated
  | b :: β =>
    if place = 9 ∧ 1 < b then .error .overflow
    else if b < 128 then
      if b = 0 ∧ 0 < place then .error .notMinimal else .ok (b.toNat, β)
    else do
      let (n, γ) ← readFrom (place + 1) β
      return (b.toNat - 128 + 128 * n, γ)

/-- The number at the start of `β`, and the bytes after it. -/
def read (β : Bytes) : Except Error (Nat × Bytes) := readFrom 0 β

end BlockWalk.Bytes.Varint
