/-!
# Numerals

The digits in which messages show numbers: decimal, and base sixteen in lowercase.
-/

namespace BlockWalk.Text

/-- A number in decimal. -/
def decimal (n : Nat) : String := String.ofList (Nat.toDigits 10 n)

/-- A number in base sixteen, without leading zeros. -/
def hexadecimal (n : Nat) : String := String.ofList (Nat.toDigits 16 n)

/-- A number in base sixteen, in `w` digits or more. -/
def hexadecimalPadded (w n : Nat) : String :=
  let digits := Nat.toDigits 16 n
  String.ofList (List.replicate (w - digits.length) '0' ++ digits)

/-- An integer in decimal. -/
def signedDecimal : Int → String
  | .ofNat n => decimal n
  | .negSucc n => "-" ++ decimal (n + 1)

end BlockWalk.Text
