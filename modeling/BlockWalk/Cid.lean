import BlockWalk.Multicodec
import BlockWalk.Digest.Sha256

/-!
# Content identifiers

An identifier names one block by the codec its bytes are written with and their SHA-256 digest.
Identifiers are ordered by codec number, then by digest.
-/

namespace BlockWalk

/-- The identifier of a block. -/
structure Cid where
  /-- the codec that the bytes of the block are written with -/
  codec : Multicodec
  /-- the SHA-256 digest of those bytes -/
  digest : Digest
  deriving DecidableEq, Repr

namespace Cid

/-- The identifier of the block that holds `data`, written with `codec`. -/
def hash (codec : Multicodec) (data : Bytes) : Cid := ⟨codec, Digest.sha256 data⟩

instance : Ord Cid := ⟨fun χ ψ => (compare χ.codec ψ.codec).then (compare χ.digest ψ.digest)⟩

end Cid

end BlockWalk
