import BlockWalk.Block
import BlockWalk.Bytes.Base64
import BlockWalk.Json.Printer
import BlockWalk.Node

/-!
# Codecs

A codec turns a node into bytes and bytes into a node. A registry holds codecs by their numbers, and
uses the one that the identifier of a block names.

Where a message tells of something that went wrong inside another format, the name of that format
stands for it in round brackets.
-/

namespace BlockWalk

/-! ## Errors -/

/-- Why bytes do not decode to a node. -/
inductive DecodeError where
  /-- the bytes are not JSON -/
  | json
  /-- an integer above those of a node -/
  | outOfRange (n : Int)
  /-- a link whose target is no identifier -/
  | link (target : String) (ε : Cid.Error)
  /-- a byte string in wrong symbols -/
  | base64 (ε : Bytes.Base64.Error)
  /-- an object that is reserved for byte strings, and holds something else -/
  | bytesForm
  /-- a value that the reserved key cannot have -/
  | reserved (v : Json)
  /-- a link target that whoever asked for the links refused, in their words -/
  | refused (reason : String)
  /-- the bytes end inside the node -/
  | endOfBytes
  /-- a text that is not UTF-8 -/
  | utf8
  /-- a truth value other than zero and one -/
  | truthValue (b : UInt8)
  /-- a kind of node that there is not -/
  | variant (n : Nat)
  /-- a link that holds no identifier -/
  | cid (ε : Cid.Error)
  /-- bytes after the end of the node -/
  | trailing
  deriving Repr

/-- Why a node cannot be encoded. -/
inductive EncodeError where
  /-- an infinity or a NaN -/
  | notFinite (x : Binary64)
  /-- a map that would be read as a link or a byte string -/
  | reservedMap
  /-- the encoded node is larger than a block may be -/
  | tooLarge
  deriving DecidableEq, Repr

/-- Why a codec gave no result. -/
inductive CodecError where
  /-- the bytes do not decode -/
  | decode (ε : DecodeError)
  /-- the node cannot be encoded -/
  | encode (ε : EncodeError)
  /-- no codec has that number -/
  | unsupported (κ : Multicodec)
  deriving Repr

/-- What is wrong with the symbols of a byte string. -/
def Bytes.Base64.Error.message : Bytes.Base64.Error → String
  | badSymbol b place =>
    "Invalid symbol " ++ Text.decimal b.toNat ++ ", offset " ++ Text.decimal place ++ "."
  | badLength n => "Invalid input length: " ++ Text.decimal n
  | badEnd b place =>
    "Invalid last symbol " ++ Text.decimal b.toNat ++ ", offset " ++ Text.decimal place ++ "."

/-- What is wrong, in words. -/
def DecodeError.message : DecodeError → String
  | json => "(json)"
  | outOfRange n => "integer " ++ Text.signedDecimal n ++ " out of range"
  | link target ε => "invalid link '" ++ target ++ "': " ++ ε.message
  | base64 ε => "invalid bytes: " ++ ε.message
  | bytesForm => "reserved object must be \x7b\"bytes\": <base64>\x7d"
  | reserved v => "reserved key '/' holds unsupported value " ++ v.compact
  | refused reason => reason
  | endOfBytes => "io error: (eof)"
  | utf8 => "string is not valid utf8: (utf8)"
  | truthValue b =>
    "invalid u8 while decoding bool, expected 0 or 1, found " ++ Text.decimal b.toNat
  | variant n =>
    "invalid value: integer `" ++ Text.decimal n ++ "`, expected variant index 0 <= i < 9"
  | cid ε => ε.message
  | trailing => "Slice had bytes remaining after deserialization"

/-- A number that is not finite, in words. -/
def Binary64.notFiniteText (x : Binary64) : String :=
  if x.isNaN then "NaN" else if x.isNegative then "-inf" else "inf"

/-- What is wrong, in words. -/
def EncodeError.message : EncodeError → String
  | notFinite x => "non-finite float " ++ x.notFiniteText
  | reservedMap => "a map whose only key is '/' is reserved"
  | tooLarge => "the size limit has been reached"

namespace CodecError

/-- What is wrong, in words. -/
def message : CodecError → String
  | decode ε => "Decode error: " ++ ε.message
  | encode ε => "Encode error: " ++ ε.message
  | unsupported κ => "No codec registered for " ++ κ.toText

/-- The kind of an error, as a fixed word. -/
def code : CodecError → String
  | decode _ => "CODEC_DECODE"
  | encode _ => "CODEC_ENCODE"
  | unsupported _ => "CODEC_UNSUPPORTED"

end CodecError

/-! ## Codecs and registries -/

/-- A way to write nodes as bytes. -/
structure Codec where
  /-- the number that identifiers name it by -/
  code : Multicodec
  /-- the node that bytes stand for -/
  decode : Bytes → Except DecodeError Node
  /-- the bytes that stand for a node -/
  encode : Node → Except EncodeError Bytes

/-- Codecs by their numbers. -/
structure Registry where
  /-- the codecs, no two of one number -/
  codecs : List Codec

namespace Registry

/-- No codecs. -/
def empty : Registry := ⟨[]⟩

/-- Adds a codec, in the place of one with its number. -/
def register (ρ : Registry) (c : Codec) : Registry :=
  ⟨c :: ρ.codecs.filter fun d => d.code ≠ c.code⟩

/-- The codec of a number. -/
def get (ρ : Registry) (κ : Multicodec) : Except CodecError Codec :=
  match ρ.codecs.find? fun c => c.code = κ with
  | some c => .ok c
  | none => .error (.unsupported κ)

/-- The node that a block holds, by the codec that its identifier names. -/
def decode (ρ : Registry) (b : Block) : Except CodecError Node := do
  let c ← ρ.get b.cid.codec
  (c.decode b.data).mapError .decode

/-- The block that holds a node, written with a codec. -/
def encode (ρ : Registry) (κ : Multicodec) (v : Node) : Except CodecError Block := do
  let c ← ρ.get κ
  let data ← (c.encode v).mapError .encode
  return .encoded κ data

/-- A short description: the codecs by their numbers. -/
def describe (ρ : Registry) : String :=
  let codes := (ρ.codecs.map Codec.code).mergeSort fun κ μ => κ.code ≤ μ.code
  let codecs := String.intercalate ", " (codes.map Multicodec.describe)
  "CodecRegistry \x7b codecs: [" ++ codecs ++ "] \x7d"

end Registry

end BlockWalk
