import BlockWalk.Bytes.Varint
import BlockWalk.Bytes.Base16
import BlockWalk.Text.Quoted
import BlockWalk.Cid

/-!
# The binary form and the text form of an identifier

In bytes, an identifier is its version, the codec number as a varint, the number and the length of
the hash, and the digest. As text it is the letter `f`, for base sixteen, and the digits of those
bytes.

Either form is read back only as it is written: a number that could be shorter, a digit in upper
case or a byte too many is refused. So an identifier has one form of each kind, and a form names one
identifier.
-/

namespace BlockWalk.Cid

/-- Why bytes or a text are no identifier. -/
inductive Error where
  /-- the text starts with a letter other than `f` -/
  | multibase (letter : Char)
  /-- a letter after the first is in upper case -/
  | upperCase
  /-- the text does not spell bytes -/
  | base16 (ε : Bytes.Base16.Error)
  /-- the codec number is `2 ^ 64` or more -/
  | codecOverflow
  /-- the codec number could be written shorter -/
  | codecNotMinimal
  /-- a version other than one -/
  | version (version : UInt8)
  /-- a hash other than SHA-256 -/
  | multihash (code : UInt8)
  /-- a digest that is not thirty-two bytes long -/
  | digestLength (length : Nat)
  /-- the end comes before the identifier is complete -/
  | truncated
  deriving DecidableEq, Repr

/-- The kind of an error, as a fixed word. -/
def Error.code : Error → String
  | multibase _ => "CID_UNSUPPORTED_MULTIBASE"
  | upperCase | base16 _ | codecOverflow | codecNotMinimal => "CID_ENCODING"
  | version _ => "CID_UNSUPPORTED_VERSION"
  | multihash _ => "CID_UNSUPPORTED_MULTIHASH"
  | digestLength _ => "CID_DIGEST_LENGTH"
  | truncated => "CID_TRUNCATED"

/-- What is wrong with the digits of a text. -/
def base16Message : Bytes.Base16.Error → String
  | .oddLength => "Odd number of digits"
  | .badDigit b place =>
    "Invalid character " ++ Text.quoteByte b ++ " at position " ++ Text.decimal place

/-- What is wrong, in words. -/
def Error.message : Error → String
  | multibase c => "Unsupported multibase prefix '" ++ String.singleton c ++ "'"
  | upperCase => "Invalid CID encoding: base16 digits must be lowercase"
  | base16 ε => "Invalid CID encoding: " ++ base16Message ε
  | codecOverflow => "Invalid CID encoding: varint overflows u64"
  | codecNotMinimal => "Invalid CID encoding: non-minimal varint"
  | version v => "Unsupported CID version " ++ Text.decimal v.toNat
  | multihash h => "Unsupported multihash code 0x" ++ Text.hexadecimalPadded 2 h.toNat
  | digestLength n => "Invalid digest length " ++ Text.decimal n
  | truncated => "Truncated CID"

/-! ## Bytes -/

/-- The version of every identifier. -/
def version : UInt8 := 1

/-- The number of SHA-256 among hashes. -/
def sha256Code : UInt8 := 0x12

/-- The length of a digest, as it is written in front of one. -/
def digestLength : UInt8 := 32

/-- The binary form. -/
def toBytes (χ : Cid) : Bytes :=
  version :: (Bytes.Varint.write χ.codec.code.toNat ++ sha256Code :: digestLength :: χ.digest.bytes)

/-- A varint at fault is a fault of the codec number. -/
def Error.ofVarint : Bytes.Varint.Error → Error
  | .truncated => truncated
  | .overflow => codecOverflow
  | .notMinimal => codecNotMinimal

/-- Reads what follows the codec number: a hash, its length, and that many bytes to the end. -/
def digestOfMultihash : Bytes → Except Error Digest
  | [] => .error .truncated
  | [h] => .error (.multihash h)
  | h :: n :: β =>
    if h ≠ sha256Code then .error (.multihash h)
    else if n ≠ digestLength then .error (.digestLength n.toNat)
    else match Digest.ofBytes? β with
      | some δ => .ok δ
      | none => .error (.digestLength β.length)

/-- Reads the binary form, which takes all of the bytes. -/
def ofBytes : Bytes → Except Error Cid
  | [] => .error .truncated
  | v :: β => do
    if v ≠ version then throw (.version v)
    let (n, γ) ← (Bytes.Varint.read β).mapError Error.ofVarint
    let δ ← digestOfMultihash γ
    return ⟨⟨n.toUInt64⟩, δ⟩

/-! ## Text -/

/-- The text form. -/
def toText (χ : Cid) : String := "f" ++ Bytes.Base16.encode χ.toBytes

instance : ToString Cid := ⟨toText⟩

/-- How an identifier is shown inside a description of something that holds it. -/
def describe (χ : Cid) : String := "Cid(" ++ χ.toText ++ ")"

/-- Reads the text form. The first letter is looked at first, then the case of all others. -/
def ofText (s : String) : Except Error Cid :=
  match s.toList with
  | [] => .error .truncated
  | c :: σ => do
    if c ≠ 'f' then throw (.multibase c)
    if σ.any Char.isUpper then throw .upperCase
    let β ← (Bytes.Base16.decode (Bytes.ofText (String.ofList σ))).mapError .base16
    ofBytes β

end BlockWalk.Cid
