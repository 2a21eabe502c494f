import BlockWalk.Cid.Form

/-!
# Blocks

A block is a byte string together with the identifier it is stored under. Whether the two belong
together is for the store to check.
-/

namespace BlockWalk

/-- A block. -/
structure Block where
  /-- the identifier -/
  cid : Cid
  /-- the bytes -/
  data : Bytes
  deriving DecidableEq, Repr

namespace Block

/-- The block that holds `data`, written with `codec`. -/
def encoded (codec : Multicodec) (data : Bytes) : Block := ⟨Cid.hash codec data, data⟩

/-- A short description: the identifier and the number of bytes. -/
def describe (b : Block) : String :=
  "Block \x7b cid: " ++ b.cid.describe ++ ", len: " ++ Text.decimal b.data.length ++ " \x7d"

end Block

end BlockWalk
