import BlockWalk.Decimal.Binary64

/-!
# Reading decimals

How a numeral becomes a floating point number. The digits are gathered into a significand below
`2 ^ 64`; digits that no longer fit only count. The significand is rounded to a floating point
number once, and scaled by a power of ten once more. The result can therefore differ from the
nearest number in its last bits, and every reader of this format differs in the same way.
-/

namespace BlockWalk

/-- A number as it is written, digit by digit. -/
structure Numeral where
  /-- is there a minus sign? -/
  negative : Bool
  /-- the digits before the point -/
  whole : List Nat
  /-- the digits behind the point, none if there is no point -/
  fraction : List Nat
  /-- whether the power of ten has a minus sign, and its digits -/
  power : Option (Bool × List Nat)
  deriving DecidableEq, Repr

namespace Numeral

/-- The number that digits spell, if it is below `limit`. It never falls from one digit to the next,
so the first digit that brings it to the limit decides. -/
def natBelow? (limit : Nat) (σ : List Nat) : Option Nat :=
  σ.foldlM (fun n d => if 10 * n + d < limit then some (10 * n + d) else none) 0

/-- Appends digits to the significand `s` until one would reach `2 ^ 64`; also gives the number of
digits that are left. -/
def gather (s : Nat) : List Nat → Nat × Nat
  | [] => (s, 0)
  | d :: σ => if 10 * s + d < 0x10000000000000000 then gather (10 * s + d) σ else (s, σ.length + 1)

/-- The power `10 ^ k`, rounded to the nearest number. -/
def powerOfTen (k : Nat) : Float := Float.ofScientific 1 false k

/-- Scales `f` by `10 ^ e`. Powers beyond the range of the numbers themselves are taken in steps;
none if the power is too great for anything but zero. -/
def scale (f : Float) (e : Int) : Option Float :=
  if e.natAbs ≤ 308 then
    some (if 0 ≤ e then f * powerOfTen e.natAbs else f / powerOfTen e.natAbs)
  else if f == 0 then some f
  else if 0 ≤ e then none
  else scale (f / powerOfTen 308) (e + 308)
termination_by e.natAbs
decreasing_by omega

/-- The greatest power of ten that is taken at its word. -/
def maxPower : Nat := 0x7FFFFFFF

/-- The number without its sign: digits `s`, scaled by `10 ^ e` and by the power that is written. -/
def magnitude? (s : Nat) (e : Int) : Option (Bool × List Nat) → Option Float
  | none => scale (Float.ofScientific s false 0) e
  | some (negative, σ) =>
    match natBelow? (maxPower + 1) σ with
    | some p => scale (Float.ofScientific s false 0) (if negative then e - p else e + p)
    | none => if s ≠ 0 ∧ ¬negative then none else some 0

/-- The floating point number that a numeral is read as; none if it is out of range. -/
def toBinary64? (ν : Numeral) : Option Binary64 := do
  let (s, left) := gather 0 ν.whole
  let (s, leftBehind) := gather s ν.fraction
  let f ← magnitude? s (left - (ν.fraction.length - leftBehind)) ν.power
  let x := Binary64.ofFloat (if ν.negative then -f else f)
  if x.isFinite then some x else none

end Numeral

end BlockWalk
