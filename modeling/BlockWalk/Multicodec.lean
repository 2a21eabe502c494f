import BlockWalk.Text.Numeral

/-!
# Multicodec numbers

The number that says which codec the bytes of a block are written with.
-/

namespace BlockWalk

/-- The number of a codec. -/
structure Multicodec where
  /-- the number -/
  code : UInt64
  deriving DecidableEq, Repr

namespace Multicodec

/-- JSON with reserved forms for links and byte strings. -/
def dagJson : Multicodec := ⟨0x129⟩

/-- The fixed width binary form, in the range of numbers for private use. -/
def dagBinary : Multicodec := ⟨0x300000⟩

/-- The name of a well-known codec. -/
def name? (κ : Multicodec) : Option String :=
  if κ = dagJson then some "dag-json" else if κ = dagBinary then some "dag-bincode" else none

/-- The name of a codec, or its number if it has none. -/
def toText (κ : Multicodec) : String := κ.name?.getD ("0x" ++ Text.hexadecimal κ.code.toNat)

instance : ToString Multicodec := ⟨toText⟩

/-- How a codec is shown inside a description of something that holds it. -/
def describe (κ : Multicodec) : String := "Multicodec(" ++ κ.toText ++ ")"

instance : Ord Multicodec := ⟨fun κ μ => compare κ.code μ.code⟩

end Multicodec

end BlockWalk
