import BlockWalk.Json.Printer
import BlockWalk.Selector

/-!
# The JSON form of selectors

An instruction is an object with one member; the name of the member says which instruction it is,
and its value holds what the instruction needs. A program is an array of instructions.

A reader takes each part in the order in which it is described and stops at the first fault. Members
may be absent where a value can be left out, or be `null`; a writer leaves them out, except for the
start of a slice.
-/

namespace BlockWalk

namespace Selector

/-! ## Names -/

/-- The name of a pick of one key. -/
def fieldTag : String := "selectPath"

/-- The name of a pick of all items. -/
def allTag : String := "selectArrayAll"

/-- The name of a pick of one item. -/
def positionTag : String := "selectArrayPosition"

/-- The name of a pick of a range of items. -/
def sliceTag : String := "selectArraySlice"

/-- The name of a recursion. -/
def recursiveTag : String := "selectRecursive"

/-! ## Faults -/

/-- What is wrong with a value that is no selector, or no document. -/
inductive Fault where
  /-- the text is not JSON -/
  | json
  /-- not an object; `what` says what should be one -/
  | notObject (what : String)
  /-- an object without members where there must be one -/
  | noField (what : String)
  /-- an object with more members than one -/
  | manyFields (what : String) (count : Nat)
  /-- a member that has no meaning -/
  | unknownField (what : String) (name : String)
  /-- no instruction has that name -/
  | unknownSelector (tag : String)
  /-- no document has that name -/
  | unknownDocument (tag : String)
  /-- a key that is not a text -/
  | keyNotText
  /-- a value where there must be none -/
  | allNotNull
  /-- not an integer from zero to `2 ^ 64 - 1` -/
  | notCount (what : String)
  /-- a recursion without an array of instructions -/
  | noFollow
  /-- a recursion over no instructions -/
  | emptyFollow
  /-- a recursion inside a recursion -/
  | nestedRecursion
  /-- a program that is not an array -/
  | programNotArray
  /-- a document whose root is not a text -/
  | rootNotText
  deriving DecidableEq, Repr

/-- A name as it stands in a message. -/
def named (s : String) : String := "`" ++ s ++ "`"

/-- What is wrong, in words. -/
def Fault.message : Fault → String
  | json => "malformed JSON: (json)"
  | notObject what => what ++ " must be an object"
  | noField what => what ++ " has no field"
  | manyFields what n => what ++ " must have exactly one field, found " ++ Text.decimal n
  | unknownField what name => what ++ " has unknown field " ++ named name
  | unknownSelector tag => "unknown selector " ++ named tag
  | unknownDocument tag => "unknown document type " ++ named tag
  | keyNotText => named fieldTag ++ " must be a string"
  | allNotNull => named allTag ++ " value must be `null`"
  | notCount what => named what ++ " must be a non-negative integer"
  | noFollow => named recursiveTag ++ " needs a `follow` array"
  | emptyFollow => named recursiveTag ++ " needs a non-empty `follow` list"
  | nestedRecursion =>
    named recursiveTag ++ " cannot be nested inside another " ++ named recursiveTag
  | programNotArray => "`selectors` must be an array"
  | rootNotText => "`root` must be a CID string"

/-! ## Reading parts -/

/-- The members of an object. -/
def membersOf (what : String) (v : Json) : Except Fault (Fields Json) :=
  match v.asMembers? with
  | some members => .ok members
  | none => .error (.notObject what)

/-- The one member of an object. -/
def oneField (what : String) (v : Json) : Except Fault (String × Json) := do
  match ← membersOf what v with
  | [] => throw (.noField what)
  | [e] => return e
  | members => throw (.manyFields what members.length)

/-- Refuses the first member whose name is not among `allowed`. -/
def onlyFields (what : String) (allowed : List String) (members : Fields Json) :
    Except Fault Unit :=
  match members.names.find? fun name => !allowed.contains name with
  | some name => .error (.unknownField what name)
  | none => .ok ()

/-- A value from zero to `2 ^ 64 - 1`. -/
def countOf (what : String) (v : Json) : Except Fault UInt64 :=
  match v.asUInt64? with
  | some n => .ok n
  | none => .error (.notCount what)

/-- Such a value, which may be absent or `null`. -/
def countOf? (name : String) (members : Fields Json) : Except Fault (Option UInt64) :=
  match members.find? name with
  | none | some .null => .ok none
  | some v => some <$> countOf name v

end Selector

/-! ## Picks -/

namespace Pick

open Selector

/-- The pick of a key. -/
def ofKey (v : Json) : Except Fault Pick :=
  match v.asText? with
  | some key => .ok (.field key)
  | none => .error .keyNotText

/-- The pick of a range. -/
def ofRange (v : Json) : Except Fault Pick := do
  let members ← membersOf (named sliceTag) v
  onlyFields (named sliceTag) ["start", "end"] members
  let start ← countOf? "start" members
  let stop ← countOf? "end" members
  return .slice (start.getD 0) stop

/-- The pick of a given name. -/
def ofField (tag : String) (v : Json) : Except Fault Pick :=
  if tag = fieldTag then ofKey v
  else if tag = allTag then if v matches .null then .ok .all else .error .allNotNull
  else if tag = positionTag then .position <$> countOf positionTag v
  else if tag = sliceTag then ofRange v
  else .error (.unknownSelector tag)

/-- The pick that a value inside a recursion stands for. -/
def ofJson (v : Json) : Except Fault Pick := do
  let (tag, body) ← oneField "selector" v
  if tag = recursiveTag then throw .nestedRecursion
  ofField tag body

/-- The name of a pick. -/
def tag : Pick → String
  | field _ => fieldTag
  | all => allTag
  | position _ => positionTag
  | slice _ _ => sliceTag

/-- What a pick needs. -/
def body : Pick → Json
  | field key => .str key
  | all => .null
  | position place => .ofUInt64 place
  | slice start stop =>
    .obj (stop.toList.map (fun n => ("end", .ofUInt64 n)) ++ [("start", .ofUInt64 start)])

/-- The value that stands for a pick. -/
def toJson (p : Pick) : Json := .obj [(p.tag, p.body)]

end Pick

/-! ## Recursions -/

namespace Recursion

open Selector

/-- A recursion over some picks. -/
def ofPicks (follow : List Pick) (limit : Option UInt64) : Except Fault Recursion :=
  if h : follow ≠ [] then .ok ⟨follow, h, limit⟩ else .error .emptyFollow

/-- A recursion over some instructions, which all have to be picks. -/
def ofSelectors (follow : List Selector) (limit : Option UInt64) : Except Fault Recursion :=
  match follow.mapM asPick? with
  | some picks => ofPicks picks limit
  | none => .error .nestedRecursion

/-- The recursion that a value describes. -/
def ofBody (v : Json) : Except Fault Recursion := do
  let members ← membersOf (named recursiveTag) v
  onlyFields (named recursiveTag) ["follow", "depthLimit"] members
  match members.find? "follow" >>= Json.asItems? with
  | none => throw .noFollow
  | some items =>
    let follow ← items.mapM Pick.ofJson
    let limit ← countOf? "depthLimit" members
    ofPicks follow limit

/-- The value that describes a recursion. -/
def body (r : Recursion) : Json :=
  .obj (r.limit.toList.map (fun n => ("depthLimit", .ofUInt64 n))
    ++ [("follow", .arr (r.follow.map Pick.toJson))])

end Recursion

/-! ## Instructions and programs -/

namespace Selector

/-- The instruction that a value stands for. -/
def ofJson (v : Json) : Except Fault Selector := do
  let (tag, body) ← oneField "selector" v
  if tag = recursiveTag then .recursive <$> Recursion.ofBody body
  else .pick <$> Pick.ofField tag body

/-- The program that a value stands for. -/
def programOfJson (v : Json) : Except Fault (List Selector) :=
  match v.asItems? with
  | some items => items.mapM ofJson
  | none => .error .programNotArray

/-- The name of an instruction. -/
def tag : Selector → String
  | pick p => p.tag
  | recursive _ => recursiveTag

/-- What an instruction needs. -/
def body : Selector → Json
  | pick p => p.body
  | recursive r => r.body

/-- The value that stands for an instruction. -/
def toJson (s : Selector) : Json := .obj [(s.tag, s.body)]

/-- The text that stands for an instruction. -/
def toText (s : Selector) : String := s.toJson.compact

instance : ToString Selector := ⟨toText⟩

/-- The value that stands for a program. -/
def programToJson (program : List Selector) : Json := .arr (program.map toJson)

end Selector

end BlockWalk
