import BlockWalk.Cid.Form
import BlockWalk.Json.Reader
import BlockWalk.Selector.Grammar

/-!
# Documents

A document names a block and a program to be run from it: everything that a selection needs to know
before a block is read. Its JSON form is an object with the one member `cidRootedSelector`; a
document without a program has the empty one.
-/

namespace BlockWalk

/-- Why a value is no document. -/
inductive SelectorError where
  /-- the document or one of its instructions is malformed -/
  | invalid (fault : Selector.Fault)
  /-- the root is a text, but no identifier -/
  | invalidRoot (ε : Cid.Error)
  deriving DecidableEq, Repr

namespace SelectorError

/-- What is wrong, in words. -/
def message : SelectorError → String
  | invalid fault => "Invalid selector: " ++ fault.message
  | invalidRoot ε => "Invalid root identifier: " ++ ε.message

/-- The kind of an error, as a fixed word. -/
def code : SelectorError → String
  | invalid _ => "SELECTOR_INVALID"
  | invalidRoot _ => "SELECTOR_INVALID_ROOT"

end SelectorError

/-- A program and the block it starts from. -/
structure Document where
  /-- the block to start from -/
  root : Cid
  /-- the instructions, first to last -/
  program : List Selector
  deriving DecidableEq, Repr

namespace Document

open Selector

/-- The name of a document. -/
def documentTag : String := "cidRootedSelector"

/-- The members of a document. -/
def membersOf (v : Json) : Except Fault (Fields Json) := do
  let (tag, body) ← oneField "root selector document" v
  if tag ≠ documentTag then throw (.unknownDocument tag)
  let members ← Selector.membersOf (named documentTag) body
  onlyFields (named documentTag) ["root", "selectors"] members
  return members

/-- The root among the members. -/
def rootOf (members : Fields Json) : Except SelectorError Cid :=
  match members.find? "root" >>= Json.asText? with
  | some s => (Cid.ofText s).mapError .invalidRoot
  | none => .error (.invalid .rootNotText)

/-- The program among the members, which may be absent or `null`. -/
def programOf (members : Fields Json) : Except Fault (List Selector) :=
  match members.find? "selectors" with
  | none | some .null => .ok []
  | some v => programOfJson v

/-- The document that a value stands for. -/
def ofJson (v : Json) : Except SelectorError Document := do
  let members ← (membersOf v).mapError .invalid
  let root ← rootOf members
  let program ← (programOf members).mapError .invalid
  return ⟨root, program⟩

/-- The document that the bytes of a JSON text stand for. -/
def ofBytes (β : Bytes) : Except SelectorError Document :=
  match Json.ofBytes? β with
  | some v => ofJson v
  | none => .error (.invalid .json)

/-- The value that stands for a document. -/
def toJson (d : Document) : Json :=
  .obj [(documentTag, .obj [("root", .str d.root.toText), ("selectors", programToJson d.program)])]

/-- The text that stands for a document. -/
def toText (d : Document) : String := d.toJson.compact

end Document

end BlockWalk
