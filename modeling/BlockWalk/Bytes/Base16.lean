import BlockWalk.Bytes

/-!
# Base 16

Two lowercase digits a byte, high half first. A reader works on the bytes of a text, and says which
byte it cannot read.
-/

namespace BlockWalk.Bytes.Base16

/-- Why bytes are not the digits of a byte string. -/
inductive Error where
  /-- an odd number of digits -/
  | oddLength
  /-- a byte, at `place`, that is no lowercase digit -/
  | badDigit (byte : UInt8) (place : Nat)
  deriving DecidableEq, Repr

/-- The digit of a value below sixteen. -/
def digit (n : Nat) : Char := if n < 10 then Char.ofNat (48 + n) else Char.ofNat (87 + n)

/-- The two digits of a byte. -/
def pair (b : UInt8) : List Char := [digit (b.toNat / 16), digit (b.toNat % 16)]

/-- The digits of a byte string. -/
def encode (β : Bytes) : String := String.ofList (β.flatMap pair)

/-- The value of the digit `b` found at `place`. -/
def value (b : UInt8) (place : Nat) : Except Error Nat :=
  if 48 ≤ b ∧ b ≤ 57 then .ok (b.toNat - 48)
  else if 97 ≤ b ∧ b ≤ 102 then .ok (b.toNat - 87)
  else .error (.badDigit b place)

/-- Reads pairs of digits, the first of them at `place`. -/
def decodeFrom (place : Nat) : Bytes → Except Error Bytes
  | [] => .ok []
  | [_] => .error .oddLength
  | high :: low :: β => do
    let h ← value high place
    let l ← value low (place + 1)
    return (16 * h + l).toUInt8 :: (← decodeFrom (place + 2) β)

/-- The byte string whose digits are `β`. An odd number of digits is found before a bad digit. -/
def decode (β : Bytes) : Except Error Bytes :=
  if β.length % 2 = 1 then .error .oddLength else decodeFrom 0 β

end BlockWalk.Bytes.Base16
