import BlockWalk.Bytes
import BlockWalk.Json.Token

/-!
# Reading JSON

Tokens are taken in from left to right over a stack of the arrays and objects that are still open.
No more than `maxDepth` may be open at once. The members of an object are put in their order as they
come, and of members with one name the last stays.
-/

namespace BlockWalk.Json

/-- The most arrays and objects that may be open at once. -/
def maxDepth : Nat := 127

namespace Reader

/-- An array or object that is still open. -/
inductive Container where
  /-- the items so far, last first -/
  | array (items : List Json)
  /-- the members so far, and the name of the one that is being read or was read last -/
  | object (members : Fields Json) (name : String)

/-- What may come next. -/
inductive Phase where
  /-- a value -/
  | value
  /-- the first item of an array, or its end -/
  | firstItem
  /-- the first name of an object, or its end -/
  | firstName
  /-- a name -/
  | name
  /-- a colon -/
  | colon
  /-- a comma, or the end of the innermost container -/
  | separator
  /-- nothing: this value is complete -/
  | done (v : Json)

/-- How far the reading has come. -/
structure State where
  /-- the open containers, innermost first -/
  stack : List Container
  /-- what may come next -/
  phase : Phase

/-- Before the first token. -/
def State.start : State := ⟨[], .value⟩

/-- Adds a complete value to the innermost container. -/
def accept (v : Json) : List Container → State
  | [] => ⟨[], .done v⟩
  | .array items :: κ => ⟨.array (v :: items) :: κ, .separator⟩
  | .object members name :: κ => ⟨.object (members.insert name v) name :: κ, .separator⟩

/-- Opens a container. -/
def push (c : Container) (p : Phase) (κ : List Container) : Option State :=
  if κ.length < maxDepth then some ⟨c :: κ, p⟩ else none

/-- The first token of a value. -/
def begin (κ : List Container) : Token → Option State
  | .null => some (accept .null κ)
  | .bool b => some (accept (.bool b) κ)
  | .num n => some (accept (.num n) κ)
  | .str s => some (accept (.str s) κ)
  | .openArray => push (.array []) .firstItem κ
  | .openObject => push (.object [] "") .firstName κ
  | _ => none

/-- The end of the innermost container. -/
def finish : Token → List Container → Option State
  | .closeArray, .array items :: κ => some (accept (.arr items.reverse) κ)
  | .closeObject, .object members _ :: κ => some (accept (.obj members) κ)
  | _, _ => none

/-- The name of a member. -/
def nameMember : Token → List Container → Option State
  | .str s, .object members _ :: κ => some ⟨.object members s :: κ, .colon⟩
  | _, _ => none

/-- A comma, and what follows it in the innermost container. -/
def next : List Container → Option State
  | .array items :: κ => some ⟨.array items :: κ, .value⟩
  | .object members name :: κ => some ⟨.object members name :: κ, .name⟩
  | [] => none

/-- Takes one token in. -/
def step (s : State) (t : Token) : Option State :=
  match s.phase with
  | .value => begin s.stack t
  | .firstItem => if t = .closeArray then finish t s.stack else begin s.stack t
  | .firstName => if t = .closeObject then finish t s.stack else nameMember t s.stack
  | .name => nameMember t s.stack
  | .colon => if t = .colon then some ⟨s.stack, .value⟩ else none
  | .separator => if t = .comma then next s.stack else finish t s.stack
  | .done _ => none

/-- The value that was read, if it is complete. -/
def State.result? (s : State) : Option Json :=
  match s.phase with
  | .done v => some v
  | _ => none

end Reader

/-- The value that tokens spell. -/
def ofTokens? (ts : List Token) : Option Json :=
  ts.foldlM Reader.step Reader.State.start >>= Reader.State.result?

/-- The value that a text spells. -/
def ofText? (s : String) : Option Json := Token.scan? s.toList >>= ofTokens?

/-- The value that bytes spell. -/
def ofBytes? (β : Bytes) : Option Json := Bytes.toText? β >>= ofText?

end BlockWalk.Json
