import BlockWalk.Codec

/-!
# Nodes in binary

A node is its kind, in four bytes, and its content. Numbers have a fixed width, lowest byte first;
texts, byte strings, lists, maps and links begin with their length in eight bytes. The keys of a map
are written in order; a reader takes them in any order, and of entries with one key the last stays.

A node is encoded only if its form fits into a block. A reader has no such limit; it takes all of
its bytes, or fails.
-/

namespace BlockWalk

namespace DagBinary

/-- The most bytes that an encoded node may have. -/
def maxBytes : Nat := 1024 * 1024

/-! ## Writing -/

/-- A number of kinds and counts of kinds. -/
def kindBytes (n : Nat) : Bytes := Bytes.littleEndian 4 n

/-- A length or count. -/
def lengthBytes (n : Nat) : Bytes := Bytes.littleEndian 8 n

/-- A byte string behind its length. -/
def withLength (β : Bytes) : Bytes := lengthBytes β.length ++ β

/-- The form of a node. -/
def form : Node → Bytes
  | .null => kindBytes 0
  | .bool b => kindBytes 1 ++ [if b then 1 else 0]
  | .int n => kindBytes 2 ++ Bytes.littleEndian 8 n.toUInt64.toNat
  | .float x => kindBytes 3 ++ Bytes.littleEndian 8 x.bits.toNat
  | .str s => kindBytes 4 ++ withLength (Bytes.ofText s)
  | .bytes β => kindBytes 5 ++ withLength β
  | .list items => kindBytes 6 ++ lengthBytes items.length ++ items.flatMap fun v => form v
  | .map entries =>
    kindBytes 7 ++ lengthBytes entries.length ++
      entries.flatMap fun e => withLength (Bytes.ofText e.1) ++ form e.2
  | .link χ => kindBytes 8 ++ withLength χ.toBytes
decreasing_by
  · decreasing_tactic
  · have := Fields.sizeOf_value_lt ‹_›
    simp only [Node.map.sizeOf_spec]
    omega

/-- The bytes that stand for a node, if they fit into a block. -/
def encode (v : Node) : Except EncodeError Bytes :=
  let β := form v
  if β.length ≤ maxBytes then .ok β else .error .tooLarge

/-! ## Reading

A reader takes a part from the start of the bytes that are left. -/

/-- Reads a part and leaves the bytes after it. -/
abbrev Reader : Type → Type := StateT Bytes (Except DecodeError)

/-- Reads `n` bytes. -/
def readBytes (n : Nat) : Reader Bytes := fun β =>
  match Bytes.split? n β with
  | some r => .ok r
  | none => .error .endOfBytes

/-- Reads a number of `w` bytes. -/
def readNat (w : Nat) : Reader Nat := Bytes.natValue <$> readBytes w

/-- Reads a byte string behind its length. -/
def readWithLength : Reader Bytes := do readBytes (← readNat 8)

/-- Reads a text behind its length. -/
def readText : Reader String := do
  match Bytes.toText? (← readWithLength) with
  | some s => return s
  | none => throw .utf8

/-- Reads a truth value. -/
def readBool : Reader Bool := do
  match ← readNat 1 with
  | 0 => return false
  | 1 => return true
  | n => throw (.truthValue n.toUInt8)

/-- Reads a link behind its length. -/
def readLink : Reader Cid := do
  match Cid.ofBytes (← readWithLength) with
  | .ok χ => return χ
  | .error ε => throw (.cid ε)

/-- Reads `n` parts one after the other; `before` are those read so far, last first. -/
def readMany {α : Type} (read : Reader α) : (n : Nat) → (before : List α) → Reader (List α)
  | 0, before, β => .ok (before.reverse, β)
  | n + 1, before, β =>
    match read β with
    | .ok (a, β) => readMany read n (a :: before) β
    | .error ε => .error ε

/-- Reads a key and its value. -/
def readEntry (read : Reader Node) : Reader (String × Node) := do
  let k ← readText
  return (k, ← read)

/-- Reads a node whose lists and maps are nested less than `d` deep. -/
def readNode : (d : Nat) → Reader Node
  | 0 => throw .endOfBytes
  | d + 1 => do
    match ← readNat 4 with
    | 0 => return .null
    | 1 => return .bool (← readBool)
    | 2 => return .int (← readNat 8).toUInt64.toInt64
    | 3 => return .float ⟨(← readNat 8).toUInt64⟩
    | 4 => return .str (← readText)
    | 5 => return .bytes (← readWithLength)
    | 6 => return .list (← readMany (readNode d) (← readNat 8) [])
    | 7 => return .map (Fields.ofList (← readMany (readEntry (readNode d)) (← readNat 8) []))
    | 8 => return .link (← readLink)
    | n => throw (.variant n)

/-- The node that bytes stand for. Every level of nesting takes bytes of its own, so no node in `β`
is nested deeper than `β` is long. -/
def decode (β : Bytes) : Except DecodeError Node := do
  let (v, γ) ← readNode (β.length + 1) β
  if γ.isEmpty then return v else throw .trailing

end DagBinary

/-- The codec that writes nodes in binary. -/
def Codec.dagBinary : Codec := ⟨.dagBinary, DagBinary.decode, DagBinary.encode⟩

end BlockWalk
