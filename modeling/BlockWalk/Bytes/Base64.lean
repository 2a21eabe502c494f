import BlockWalk.Bytes

/-!
# Base 64

Four symbols of six bits for three bytes, from the standard alphabet and without padding. One or two
bytes at the end take two or three symbols, whose unused low bits are zero; a reader refuses other
bits there, so a byte string has exactly one form.
-/

namespace BlockWalk.Bytes.Base64

/-- Why bytes are not the symbols of a byte string. -/
inductive Error where
  /-- a byte, at `place`, that is no symbol -/
  | badSymbol (byte : UInt8) (place : Nat)
  /-- one symbol stands alone at the end -/
  | badLength (length : Nat)
  /-- the last symbol, at `place`, sets bits that no byte takes -/
  | badEnd (byte : UInt8) (place : Nat)
  deriving DecidableEq, Repr

/-! ## Symbols -/

/-- The symbol of a value below sixty-four. -/
def symbol (n : Nat) : Char :=
  if n < 26 then Char.ofNat (65 + n)
  else if n < 52 then Char.ofNat (71 + n)
  else if n < 62 then Char.ofNat (n - 4)
  else if n = 62 then '+' else '/'

/-- The value of a symbol. -/
def value? (b : UInt8) : Option Nat :=
  if 65 ≤ b ∧ b ≤ 90 then some (b.toNat - 65)
  else if 97 ≤ b ∧ b ≤ 122 then some (b.toNat - 71)
  else if 48 ≤ b ∧ b ≤ 57 then some (b.toNat + 4)
  else if b = 43 then some 62
  else if b = 47 then some 63
  else none

/-! ## Writing -/

/-- The symbols of a byte string. -/
def symbols : Bytes → List Char
  | [] => []
  | [a] => [symbol (a.toNat / 4), symbol (a.toNat % 4 * 16)]
  | [a, b] =>
    [symbol (a.toNat / 4), symbol (a.toNat % 4 * 16 + b.toNat / 16), symbol (b.toNat % 16 * 4)]
  | a :: b :: c :: β =>
    symbol (a.toNat / 4) :: symbol (a.toNat % 4 * 16 + b.toNat / 16) ::
      symbol (b.toNat % 16 * 4 + c.toNat / 64) :: symbol (c.toNat % 64) :: symbols β

/-- The text form of a byte string. -/
def encode (β : Bytes) : String := String.ofList (symbols β)

/-! ## Reading -/

/-- The values of the symbols `β`, the first of them at `place`. -/
def values (place : Nat) : Bytes → Except Error (List Nat)
  | [] => .ok []
  | b :: β =>
    match value? b with
    | none => .error (.badSymbol b place)
    | some n => do return n :: (← values (place + 1) β)

/-- The bytes that symbol values stand for; none if a symbol stands alone, or if
bits that no byte takes are set. -/
def join? : List Nat → Option Bytes
  | [] => some []
  | [_] => none
  | [a, b] => if b % 16 = 0 then some [(a * 4 + b / 16).toUInt8] else none
  | [a, b, c] =>
    if c % 4 = 0 then some [(a * 4 + b / 16).toUInt8, (b % 16 * 16 + c / 4).toUInt8] else none
  | a :: b :: c :: d :: σ => do
    let β ← join? σ
    return (a * 4 + b / 16).toUInt8 :: (b % 16 * 16 + c / 4).toUInt8 ::
      (c % 4 * 64 + d).toUInt8 :: β

/-- The byte string whose symbols are `β`. A last symbol beyond whole groups is looked at first,
then every symbol from the start, then the length, then the unused bits. -/
def decode (β : Bytes) : Except Error Bytes := do
  let place := β.length - 1
  let last := β.getLastD 0
  let single := β.length % 4 = 1
  if single ∧ last ≠ 61 ∧ value? last = none then throw (.badSymbol last place)
  let σ ← values 0 β
  if single then throw (.badLength β.length)
  match join? σ with
  | some γ => return γ
  | none => throw (.badEnd last place)

end BlockWalk.Bytes.Base64
