import BlockWalk.Codec
import BlockWalk.Json.Reader

/-!
# Nodes as JSON

Values and nodes correspond, apart from two reserved forms. An object whose one member is named `/`
is a link if the member is a text, its target; it is a byte string if the member is an object whose
one member `bytes` is a text in base sixty-four. Such an object can hold nothing else, so no map
with that one key can be written.

* `DagJson.ofJsonWith` — the node of a value, with every link target handed to `resolve`. Whoever
  describes a graph can so link to nodes that have no identifier yet.
* `DagJson.toJson` — the value of a node.
-/

namespace BlockWalk.DagJson

/-- The name of the one member of a reserved form. -/
def reservedKey : String := "/"

/-- What a reserved form holds, if an object is one. -/
def reserved? : Fields Json → Option Json
  | [(k, v)] => if k = reservedKey then some v else none
  | _ => none

/-- The target of a link, if a value is one. -/
def linkTarget? : Json → Option String
  | .obj members => reserved? members >>= Json.asText?
  | _ => none

/-! ## Reading -/

/-- The byte string that a reserved form holds. Padding at the end of the symbols is allowed. -/
def bytesOf : Fields Json → Except DecodeError Bytes
  | [(k, .str s)] =>
    if k = "bytes" then
      let symbols := (s.toList.reverse.dropWhile (· = '=')).reverse
      (Bytes.Base64.decode (Bytes.ofText (String.ofList symbols))).mapError .base64
    else .error .bytesForm
  | _ => .error .bytesForm

/-- The node of a number. -/
def ofNumber : Json.Number → Except DecodeError Node
  | .int n _ _ =>
    if n < 0x8000000000000000 then .ok (.int (Int64.ofInt n)) else .error (.outOfRange n)
  | .float x _ => .ok (.float x)

/-- A reading that may fail, and that asks for the targets of links as it goes. -/
abbrev Reading (σ : Type) : Type → Type := ExceptT DecodeError (StateM σ)

/-- The node of a value. Items and members are read in order, each link target is handed to
`resolve`, and the first error ends the reading. -/
def ofJsonWith {σ : Type} (resolve : String → Reading σ Cid) : Json → Reading σ Node
  | .null => return .null
  | .bool b => return .bool b
  | .num n => liftExcept (ofNumber n)
  | .str s => return .str s
  | .arr items => return .list (← items.mapM fun v => ofJsonWith resolve v)
  | .obj members =>
    match reserved? members with
    | some (.str target) => return .link (← resolve target)
    | some (.obj inner) => return .bytes (← liftExcept (bytesOf inner))
    | some v => throw (.reserved v)
    | none => return .map (← members.mapM fun e => return (e.1, ← ofJsonWith resolve e.2))
decreasing_by
  · decreasing_tactic
  · have := Fields.sizeOf_value_lt ‹_›
    simp only [Json.obj.sizeOf_spec]
    omega
where
  /-- A reading that asks for nothing. -/
  liftExcept {α : Type} (r : Except DecodeError α) : Reading σ α := ExceptT.mk (pure r)

/-- The identifier that a link target spells. -/
def parseTarget (target : String) : Except DecodeError Cid :=
  (Cid.ofText target).mapError (.link target)

/-- The node of a value whose link targets `resolve` knows. -/
def ofJsonResolving (resolve : String → Except DecodeError Cid) (v : Json) :
    Except DecodeError Node :=
  let asked (target : String) : Reading Unit Cid := ExceptT.mk (pure (resolve target))
  ((ofJsonWith asked v).run.run ()).1

/-- The node of a value whose link targets are identifiers. -/
def ofJson (v : Json) : Except DecodeError Node := ofJsonResolving parseTarget v

/-- The node that the bytes of a JSON text stand for. -/
def decode (β : Bytes) : Except DecodeError Node :=
  match Json.ofBytes? β with
  | some v => ofJson v
  | none => .error .json

/-! ## Writing -/

/-- A reserved form. -/
def reservedForm (v : Json) : Json := .obj [(reservedKey, v)]

/-- An integer of a node as a number. -/
def ofInt64 (n : Int64) : Json.Number :=
  .int n.toInt n.le_toInt (Int.lt_trans n.toInt_lt (by decide))

/-- The value of a node. -/
def toJson : Node → Except EncodeError Json
  | .null => return .null
  | .bool b => return .bool b
  | .int n => return .num (ofInt64 n)
  | .float x => if h : x.isFinite = true then return .num (.float x h) else throw (.notFinite x)
  | .str s => return .str s
  | .bytes β => return reservedForm (.obj [("bytes", .str (Bytes.Base64.encode β))])
  | .list items => return .arr (← items.mapM fun v => toJson v)
  | .map entries => do
    if entries.map Prod.fst = [reservedKey] then throw .reservedMap
    return .obj (← entries.mapM fun e => return (e.1, ← toJson e.2))
  | .link χ => return reservedForm (.str χ.toText)
decreasing_by
  · decreasing_tactic
  · have := Fields.sizeOf_value_lt ‹_›
    simp only [Node.map.sizeOf_spec]
    omega

/-- The bytes of the JSON text that stands for a node. -/
def encode (v : Node) : Except EncodeError Bytes := Json.toBytes <$> toJson v

end DagJson

/-- The codec that writes nodes as JSON. -/
def Codec.dagJson : Codec := ⟨.dagJson, DagJson.decode, DagJson.encode⟩

end BlockWalk
