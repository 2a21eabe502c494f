import BlockWalk.Decimal.Layout
import BlockWalk.Decimal.Reading

/-!
# Numbers of JSON

A number is an integer, from `-2 ^ 63` up to but not including `2 ^ 64`, or a finite floating point
number. A numeral without a point or a power of ten is an integer if it is in that range; all other
numerals are floating point numbers, and so is a zero with a minus sign.
-/

namespace BlockWalk.Json

/-- A number. -/
inductive Number where
  /-- an integer in range -/
  | int (n : Int) (lower : -0x8000000000000000 ≤ n) (upper : n < 0x10000000000000000)
  /-- a finite floating point number -/
  | float (x : Binary64) (finite : x.isFinite = true)
  deriving DecidableEq, Repr

namespace Number

/-- The integer `n`, if it is in range. -/
def ofInt? (n : Int) : Option Number :=
  if h : -0x8000000000000000 ≤ n ∧ n < 0x10000000000000000 then some (int n h.1 h.2) else none

/-- The floating point number `x`, if it is finite. -/
def ofBinary64? (x : Binary64) : Option Number :=
  if h : x.isFinite = true then some (float x h) else none

/-- The integer that a numeral is read as, if it is one. -/
def intOfNumeral? (ν : Numeral) : Option Number :=
  if ν.fraction ≠ [] ∨ ν.power.isSome then none
  else
    match Numeral.natBelow? 0x10000000000000000 ν.whole with
    | some n => if ν.negative then if n = 0 then none else ofInt? (-(n : Int)) else ofInt? n
    | none => none

/-- The number that a numeral is read as; none if it is out of range. -/
def ofNumeral? (ν : Numeral) : Option Number :=
  intOfNumeral? ν <|> (ν.toBinary64? >>= ofBinary64?)

/-- A finite floating point number, in the fewest digits that read back. The point is in place for
first digits from the fifth place behind it to the sixteenth before it. -/
def floatText (x : Binary64) : String :=
  let d := x.shortest
  let text := if -5 ≤ d.leading ∧ d.leading ≤ 15 then d.positional else d.scientific
  if x.isNegative then "-" ++ text else text

/-- How a number is written. -/
def text : Number → String
  | int n _ _ => Text.signedDecimal n
  | float x _ => floatText x

/-! ## Grammar

`-`, digits without a needless zero in front, a point with digits behind it, and `e` or `E` with a
sign or not and digits. -/

/-- The value of a digit. -/
def digit? (c : Char) : Option Nat := if c.isDigit then some (c.toNat - 48) else none

/-- The digits that `σ` starts with, and what follows them. -/
def spanDigits (σ : List Char) : List Nat × List Char :=
  ((σ.takeWhile Char.isDigit).map fun c => c.toNat - 48, σ.dropWhile Char.isDigit)

/-- The power of ten at the end of a numeral. -/
def power? : List Char → Option (Option (Bool × List Nat))
  | [] => some none
  | c :: σ =>
    if c ≠ 'e' ∧ c ≠ 'E' then none
    else
      let (negative, τ) := match σ with
        | '-' :: τ => (true, τ)
        | '+' :: τ => (false, τ)
        | τ => (false, τ)
      match spanDigits τ with
      | (d :: ds, []) => some (some (negative, d :: ds))
      | _ => none

/-- The fraction and the power of ten at the end of a numeral. -/
def tail? : List Char → Option (List Nat × Option (Bool × List Nat))
  | '.' :: σ =>
    match spanDigits σ with
    | ([], _) => none
    | (ds, τ) => (power? τ).map fun p => (ds, p)
  | σ => (power? σ).map fun p => ([], p)

/-- The numeral that a text spells. -/
def numeral? (σ : List Char) : Option Numeral :=
  let (negative, σ) := match σ with
    | '-' :: σ => (true, σ)
    | σ => (false, σ)
  match spanDigits σ with
  | ([], _) => none
  | (0 :: _ :: _, _) => none
  | (ds, σ) => (tail? σ).map fun (fraction, power) => ⟨negative, ds, fraction, power⟩

/-- The number that a text spells. -/
def ofChars? (σ : List Char) : Option Number := numeral? σ >>= ofNumeral?

end Number

end BlockWalk.Json
