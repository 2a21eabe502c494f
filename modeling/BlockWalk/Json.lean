import BlockWalk.Fields
import BlockWalk.Json.Number

/-!
# JSON values

The values of JSON. The members of an object are in the order of their names: `Sorted` says so of an
object and of everything inside a value. Every value that was read is sorted.
-/

namespace BlockWalk

/-- A JSON value. -/
inductive Json where
  /-- the value `null` -/
  | null
  /-- the values `true` and `false` -/
  | bool (b : Bool)
  /-- a number -/
  | num (n : Json.Number)
  /-- a text -/
  | str (s : String)
  /-- an array -/
  | arr (items : List Json)
  /-- an object -/
  | obj (members : List (String × Json))
  deriving Repr, Inhabited

namespace Json

/-- Induction over a value and the values inside it. -/
theorem ind {P : Json → Prop} (null : P null) (bool : ∀ b, P (bool b)) (num : ∀ n, P (num n))
    (str : ∀ s, P (str s)) (arr : ∀ items, (∀ v ∈ items, P v) → P (arr items))
    (obj : ∀ members, (∀ e ∈ members, P e.2) → P (obj members)) : ∀ v, P v
  | .null => null
  | .bool b => bool b
  | .num n => num n
  | .str s => str s
  | .arr items => arr items fun v _ => ind null bool num str arr obj v
  | .obj members => obj members fun e _ => ind null bool num str arr obj e.2
decreasing_by
  · decreasing_tactic
  · have := Fields.sizeOf_value_lt ‹_›
    simp only [Json.obj.sizeOf_spec]
    omega

/-- The members of every object, at any depth, are in the order of their names. -/
inductive Sorted : Json → Prop
  /-- a value without parts -/
  | null : Sorted null
  /-- a value without parts -/
  | bool (b : Bool) : Sorted (bool b)
  /-- a value without parts -/
  | num (n : Number) : Sorted (num n)
  /-- a value without parts -/
  | str (s : String) : Sorted (str s)
  /-- an array of sorted values -/
  | arr {items : List Json} (h : ∀ v ∈ items, Sorted v) : Sorted (arr items)
  /-- an object whose members are in order, and sorted values themselves -/
  | obj {members : List (String × Json)} (ordered : Fields.Sorted members)
      (h : ∀ e ∈ members, Sorted e.2) : Sorted (obj members)

/-! ## Looking into a value -/

/-- The text, if the value is one. -/
def asText? : Json → Option String
  | str s => some s
  | _ => none

/-- The items, if the value is an array. -/
def asItems? : Json → Option (List Json)
  | arr items => some items
  | _ => none

/-- The members, if the value is an object. -/
def asMembers? : Json → Option (Fields Json)
  | obj members => some members
  | _ => none

/-- The number, if the value is an integer from zero to `2 ^ 64 - 1`. -/
def asUInt64? : Json → Option UInt64
  | num (.int n _ _) => if 0 ≤ n then some n.toNat.toUInt64 else none
  | _ => none

/-- A number of sixty-four bits as a value. -/
def ofUInt64 (n : UInt64) : Json :=
  num (.int n.toNat (by omega) (by have := n.toNat_lt; omega))

end Json

end BlockWalk
