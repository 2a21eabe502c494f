import BlockWalk.Decimal.Binary64

/-!
# The shortest decimal that reads back

Every real number between halfway to the next number below and halfway to the next number above is
rounded to a floating point number; the two ends are rounded to it if its significand is even. Of
the decimals in that interval `Binary64.shortest` takes one with the fewest digits, and of those the
one nearest to the number itself.

The digits are found on decimal grids, the coarsest first. If any point of a grid lies in the
interval, then so does one of the two points next to the number, so only these two are tried. All
comparisons are between natural numbers: a number is weighed as `significand * U / V`, where `U / V`
is the quotient of its power of two by the power of ten of the grid.
-/

namespace BlockWalk

/-- The number `digits * 10 ^ exponent`. -/
structure Decimal where
  /-- the digits, as one number -/
  digits : Nat
  /-- the power of ten -/
  exponent : Int
  deriving DecidableEq, Repr

namespace Decimal

/-- Moves zeros at the end of `n` into the exponent `e`. -/
def trim (n : Nat) (e : Int) : Decimal :=
  if h : n ≠ 0 ∧ n % 10 = 0 then trim (n / 10) (e + 1) else ⟨n, e⟩
termination_by n
decreasing_by omega

end Decimal

namespace Binary64

open Decimal

/-- The weight of one unit of the significand on the grid `10 ^ t`, as a quotient `U / V`. -/
def gridWeight (x : Binary64) (t : Int) : Nat × Nat :=
  (Nat.pow 2 x.exponent.toNat * Nat.pow 10 (-t).toNat,
    Nat.pow 2 (-x.exponent).toNat * Nat.pow 10 t.toNat)

/-- Is the point `n` of the grid `10 ^ t` rounded to `x`? The ends of the interval are a half above
the significand, and a half or a quarter below it. -/
def roundsTo (x : Binary64) (t : Int) (n : Nat) : Bool :=
  let (U, V) := x.gridWeight t
  let point := 4 * n * V
  let low := (4 * x.significand - (if x.isNarrowBelow then 1 else 2)) * U
  let high := (4 * x.significand + 2) * U
  if x.significand % 2 = 0 then low ≤ point && point ≤ high else low < point && point < high

/-- The point of the grid `10 ^ t` to write for `x`, if one is rounded to it. Halfway between two of
them it is the even one. -/
def gridPoint? (x : Binary64) (t : Int) : Option Nat :=
  let (U, V) := x.gridWeight t
  let below := x.significand * U / V
  let left := x.significand * U % V
  match x.roundsTo t below, x.roundsTo t (below + 1) with
  | true, true =>
    match compare (2 * left) V with
    | .lt => some below
    | .gt => some (below + 1)
    | .eq => some (below + below % 2)
  | true, false => some below
  | false, true => some (below + 1)
  | false, false => none

/-- Is `x` below `10 ^ k`? -/
def isBelowTen (x : Binary64) (k : Int) : Bool :=
  let (U, V) := x.gridWeight k
  x.significand * U < V

/-- The least `k` with `x` below `10 ^ k`, for a number other than zero: an estimate from the number
of its bits, put right by at most two. -/
def decimalScale (x : Binary64) : Int :=
  let k := (x.significand.log2 + x.exponent) * 30103 / 100000
  if x.isBelowTen k then k else if x.isBelowTen (k + 1) then k + 1 else k + 2

/-- The exact value without its sign. -/
def exactDecimal (x : Binary64) : Decimal :=
  if 0 ≤ x.exponent then ⟨x.significand * Nat.pow 2 x.exponent.toNat, 0⟩
  else ⟨x.significand * Nat.pow 5 (-x.exponent).toNat, x.exponent⟩

/-- The shortest decimal that is rounded to `x`, for a finite number, without its sign. Seventeen
digits suffice for every number. -/
def shortest (x : Binary64) : Decimal :=
  if x.significand = 0 then ⟨0, 0⟩
  else
    let k := x.decimalScale
    let found := (List.range 17).findSome? fun (i : Nat) =>
      let t := k - 1 - (i : Int)
      (x.gridPoint? t).map fun n => trim n t
    found.getD x.exactDecimal

end Binary64

end BlockWalk
