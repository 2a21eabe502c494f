import BlockWalk.Cid.Form
import BlockWalk.Json

/-!
# Identifiers inside other data

Where an identifier is a part of something else, it is its text in a JSON value, and its bytes
behind their length in a binary form. A list of numbers is read as its bytes.
-/

namespace BlockWalk.Cid

/-- Why a part of other data is no identifier. -/
inductive EmbeddedError where
  /-- a value that is not a text -/
  | notText (v : Json)
  /-- a number that is not a byte -/
  | notByte (n : UInt64)
  /-- the end comes before the announced length -/
  | endOfBytes
  /-- the text or the bytes are no identifier -/
  | cid (ε : Error)
  deriving Repr

/-- What kind of value it is, in words. -/
def kindText : Json → String
  | .null => "null"
  | .bool b => "boolean `" ++ (if b then "true" else "false") ++ "`"
  | .num (.int n _ _) => "integer `" ++ Text.signedDecimal n ++ "`"
  | .num (.float x _) => "floating point `" ++ Json.Number.floatText x ++ "`"
  | .str s => "string \"" ++ s ++ "\""
  | .arr _ => "sequence"
  | .obj _ => "map"

/-- What is wrong, in words. -/
def EmbeddedError.message : EmbeddedError → String
  | notText v =>
    "invalid type: " ++ kindText v ++ ", expected a CID string or its binary form"
  | notByte n => "invalid value: integer `" ++ Text.decimal n.toNat ++ "`, expected u8"
  | endOfBytes => "io error: (eof)"
  | cid ε => ε.message

/-- The identifier as a JSON value. -/
def toJson (χ : Cid) : Json := .str χ.toText

/-- The identifier that a JSON value holds. -/
def ofJson (v : Json) : Except EmbeddedError Cid :=
  match v.asText? with
  | some s => (ofText s).mapError .cid
  | none => .error (.notText v)

/-- The identifier behind its length in eight bytes. -/
def toFramed (χ : Cid) : Bytes := Bytes.littleEndian 8 χ.toBytes.length ++ χ.toBytes

/-- The identifier that bytes start with, behind its length. -/
def ofFramed (β : Bytes) : Except EmbeddedError Cid :=
  match Bytes.split? 8 β with
  | none => .error .endOfBytes
  | some (α, β) =>
    match Bytes.split? (Bytes.natValue α) β with
    | none => .error .endOfBytes
    | some (γ, _) => (ofBytes γ).mapError .cid

/-- The byte of a number. -/
def byteOf (n : UInt64) : Except EmbeddedError UInt8 :=
  if n < 256 then .ok n.toUInt8 else .error (.notByte n)

/-- The identifier whose bytes are given as numbers. -/
def ofNumbers (ns : List UInt64) : Except EmbeddedError Cid := do
  let β ← ns.mapM byteOf
  (ofBytes β).mapError .cid

end BlockWalk.Cid
