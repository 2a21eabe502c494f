import BlockWalk.Bytes
import BlockWalk.Json.Token

/-!
# Writing JSON

`compact` writes the tokens of a value one after the other. `pretty` puts every item and member on a
line of its own, two blanks further in than the container it stands in; empty containers stay on
their line.
-/

namespace BlockWalk.Json

/-- The tokens of a value, from left to right. -/
def tokens : Json → List Token
  | null => [.null]
  | bool b => [.bool b]
  | num n => [.num n]
  | str s => [.str s]
  | arr items => .openArray :: (List.intercalate [.comma] (items.map tokens) ++ [.closeArray])
  | obj members =>
    .openObject :: (List.intercalate [.comma]
      (members.map fun e => .str e.1 :: .colon :: tokens e.2) ++ [.closeObject])
decreasing_by
  · decreasing_tactic
  · have := Fields.sizeOf_value_lt ‹_›
    simp only [obj.sizeOf_spec]
    omega

/-- The value without blanks. -/
def compact (v : Json) : String := String.join (v.tokens.map Token.text)

/-- The bytes of the value without blanks. -/
def toBytes (v : Json) : Bytes := Bytes.ofText v.compact

/-- A new line, `n` steps in. -/
def newLine (n : Nat) : String := String.ofList ('\n' :: List.replicate (2 * n) ' ')

/-- The value over several lines, in a container `n` steps in. -/
def prettyAt (n : Nat) : Json → String
  | null => "null"
  | bool b => Token.text (.bool b)
  | num x => x.text
  | str s => quote s
  | arr items =>
    if items.isEmpty then "[]"
    else "[" ++ newLine (n + 1)
      ++ String.intercalate ("," ++ newLine (n + 1)) (items.map (prettyAt (n + 1)))
      ++ newLine n ++ "]"
  | obj members =>
    if members.isEmpty then "\x7b\x7d"
    else "\x7b" ++ newLine (n + 1)
      ++ String.intercalate ("," ++ newLine (n + 1))
        (members.map fun e => quote e.1 ++ ": " ++ prettyAt (n + 1) e.2)
      ++ newLine n ++ "\x7d"
termination_by v => sizeOf v
decreasing_by
  · decreasing_tactic
  · have := Fields.sizeOf_value_lt ‹_›
    simp only [obj.sizeOf_spec]
    omega

/-- The value over several lines. -/
def pretty (v : Json) : String := v.prettyAt 0

end BlockWalk.Json
