/-!
# Floating point numbers as bit patterns

A floating point number is kept as its sixty-four bits, so that numbers are told apart by their
bits: a zero with a sign differs from one without, and every bit of a NaN counts. Arithmetic goes
through `toFloat` and `ofFloat`.
-/

namespace BlockWalk

/-- The bits of a floating point number: a sign, eleven bits of exponent, fifty-two of fraction. -/
structure Binary64 where
  /-- the bits -/
  bits : UInt64
  deriving DecidableEq, Repr

namespace Binary64

/-- The number that the machine computes with. -/
def toFloat (x : Binary64) : Float := Float.ofBits x.bits

/-- The bits of a number that the machine computed. -/
def ofFloat (f : Float) : Binary64 := ⟨f.toBits⟩

/-- Is the sign bit set? -/
def isNegative (x : Binary64) : Bool := (x.bits >>> 63) = 1

/-- The bits of the exponent, as a number below 2048. -/
def exponentBits (x : Binary64) : Nat := ((x.bits >>> 52) &&& 0x7FF).toNat

/-- The bits of the fraction, as a number below `2 ^ 52`. -/
def fractionBits (x : Binary64) : Nat := (x.bits &&& 0xFFFFFFFFFFFFF).toNat

/-- Neither an infinity nor a NaN. -/
def isFinite (x : Binary64) : Bool := x.exponentBits ≠ 2047

/-- Of the patterns that are not finite: is it no number at all? -/
def isNaN (x : Binary64) : Bool := x.exponentBits = 2047 && x.fractionBits ≠ 0

/-! ## The value of a finite pattern

Without its sign, a finite number is `significand * 2 ^ exponent`. -/

/-- The integer part of the product. -/
def significand (x : Binary64) : Nat :=
  if x.exponentBits = 0 then x.fractionBits else 0x10000000000000 + x.fractionBits

/-- The power of two of the product. -/
def exponent (x : Binary64) : Int :=
  if x.exponentBits = 0 then -1074 else (x.exponentBits : Int) - 1075

/-- Is the next number below half as far away as the next one above? So it is at powers of two
above the least ones. -/
def isNarrowBelow (x : Binary64) : Bool := x.fractionBits = 0 && 1 < x.exponentBits

end Binary64

end BlockWalk
