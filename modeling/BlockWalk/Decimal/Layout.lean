import BlockWalk.Decimal.Shortest
import BlockWalk.Text.Numeral

/-!
# Decimals as text

A decimal is written with its point in place, or with one digit before the point and a power of ten.
-/

namespace BlockWalk.Decimal

/-- The digits of a decimal. -/
def digitList (d : Decimal) : List Char := Nat.toDigits 10 d.digits

/-- The power of ten of the first digit. -/
def leading (d : Decimal) : Int := d.exponent + d.digitList.length - 1

/-- With the point in place and a digit or more behind it. -/
def positional (d : Decimal) : String :=
  let σ := d.digitList
  let e := d.leading
  if e < 0 then "0." ++ String.ofList (List.replicate (-e - 1).toNat '0' ++ σ)
  else
    let n := e.toNat + 1
    let whole := σ.take n ++ List.replicate (n - σ.length) '0'
    let fraction := if σ.length ≤ n then ['0'] else σ.drop n
    String.ofList (whole ++ '.' :: fraction)

/-- With one digit before the point and a power of ten, which always has a sign. -/
def scientific (d : Decimal) : String :=
  let e := d.leading
  let mantissa := match d.digitList with
    | [] => []
    | [a] => [a]
    | a :: σ => a :: '.' :: σ
  String.ofList mantissa ++ (if e < 0 then "e-" else "e+") ++ Text.decimal e.natAbs

end BlockWalk.Decimal
