import BlockWalk.Cid
import BlockWalk.Fields
import BlockWalk.Decimal.Binary64

/-!
# Nodes

A node is what the bytes of one block decode to: a tree of scalars, lists and maps, in which links
point to other blocks. A step leads from a node to one of its children; a link has none, since what
it points to is in another block.

* `Node.get?`, `Node.at?` and `Step.apply` — one child.
* `Node.sliceRange?` — a range of places, cut to the length of a list.
* `Node.ind` — induction over lists and maps.
-/

namespace BlockWalk

/-- The content of a block, or a part of it. -/
inductive Node where
  /-- no value -/
  | null
  /-- a truth value -/
  | bool (b : Bool)
  /-- an integer of sixty-four bits -/
  | int (n : Int64)
  /-- a floating point number -/
  | float (x : Binary64)
  /-- a text -/
  | str (s : String)
  /-- a byte string -/
  | bytes (β : Bytes)
  /-- a list -/
  | list (items : List Node)
  /-- a map from texts, in the order of the keys -/
  | map (entries : List (String × Node))
  /-- the identifier of another block -/
  | link (χ : Cid)
  deriving Repr, Inhabited

namespace Node

/-- Induction over a node and the nodes inside it. -/
theorem ind {P : Node → Prop} (null : P null) (bool : ∀ b, P (bool b)) (int : ∀ n, P (int n))
    (float : ∀ x, P (float x)) (str : ∀ s, P (str s)) (bytes : ∀ β, P (bytes β))
    (list : ∀ items, (∀ v ∈ items, P v) → P (list items))
    (map : ∀ entries, (∀ e ∈ entries, P e.2) → P (map entries)) (link : ∀ χ, P (link χ)) :
    ∀ v, P v
  | .null => null
  | .bool b => bool b
  | .int n => int n
  | .float x => float x
  | .str s => str s
  | .bytes β => bytes β
  | .list items =>
    list items fun v _ => ind null bool int float str bytes list map link v
  | .map entries =>
    map entries fun e _ => ind null bool int float str bytes list map link e.2
  | .link χ => link χ
decreasing_by
  · decreasing_tactic
  · have := Fields.sizeOf_value_lt ‹_›
    simp only [Node.map.sizeOf_spec]
    omega

/-- The keys of every map, at any depth, are in order. -/
inductive Sorted : Node → Prop
  /-- a node without parts -/
  | null : Sorted null
  /-- a node without parts -/
  | bool (b : Bool) : Sorted (bool b)
  /-- a node without parts -/
  | int (n : Int64) : Sorted (int n)
  /-- a node without parts -/
  | float (x : Binary64) : Sorted (float x)
  /-- a node without parts -/
  | str (s : String) : Sorted (str s)
  /-- a node without parts -/
  | bytes (β : Bytes) : Sorted (bytes β)
  /-- a list of sorted nodes -/
  | list {items : List Node} (h : ∀ v ∈ items, Sorted v) : Sorted (list items)
  /-- a map whose keys are in order, to sorted nodes -/
  | map {entries : List (String × Node)} (ordered : Fields.Sorted entries)
      (h : ∀ e ∈ entries, Sorted e.2) : Sorted (map entries)
  /-- a node without parts -/
  | link (χ : Cid) : Sorted (link χ)

/-! ## Kinds -/

/-- The structural kinds of nodes. -/
inductive Kind where
  /-- a map -/
  | map
  /-- a list -/
  | list
  /-- a node that holds no others -/
  | scalar
  /-- a link -/
  | link
  deriving DecidableEq, Repr

/-- The kind of a node. -/
def kind : Node → Kind
  | map _ => .map
  | list _ => .list
  | link _ => .link
  | _ => .scalar

/-- The items, if the node is a list. -/
def asItems? : Node → Option (List Node)
  | list items => some items
  | _ => none

/-- The entries, if the node is a map. -/
def asEntries? : Node → Option (Fields Node)
  | map entries => some entries
  | _ => none

/-- The block that the node points to, if it is a link. -/
def asLink? : Node → Option Cid
  | link χ => some χ
  | _ => none

/-- The nesting of lists and maps: one for a node that holds no others. -/
def depth : Node → Nat
  | list items => 1 + (items.map depth).foldl max 0
  | map entries => 1 + (entries.map fun e => depth e.2).foldl max 0
  | _ => 1
decreasing_by
  · decreasing_tactic
  · have := Fields.sizeOf_value_lt ‹_›
    simp only [Node.map.sizeOf_spec]
    omega

/-! ## Children -/

/-- The value of a key, if the node is a map that has it. -/
def get? (v : Node) (key : String) : Option Node := v.asEntries? >>= Fields.find? key

/-- The item at a place, if the node is a list that long. -/
def at? (v : Node) (place : Nat) : Option Node := v.asItems? >>= fun items => items[place]?

/-- The places from `start` up to but not including `stop`, cut to the length of the list; without
a `stop` they reach to the end. None if the node is no list. -/
def sliceRange? (v : Node) (start : Nat) (stop : Option Nat) : Option (Nat × Nat) := do
  let n := (← v.asItems?).length
  let stop := (stop.map (min n)).getD n
  return (min start stop, stop)

end Node

/-- A way from a node to one of its children. -/
inductive Step where
  /-- to the value of a key -/
  | field (key : String)
  /-- to the item at a place -/
  | index (place : Nat)
  deriving DecidableEq, Repr

/-- The child that a step leads to, if there is one. -/
def Step.apply : Step → Node → Option Node
  | field key, v => v.get? key
  | index place, v => v.at? place

/-- A child is smaller than its parent. -/
theorem Step.sizeOf_lt_of_apply {σ : Step} {v w : Node} (h : σ.apply v = some w) :
    sizeOf w < sizeOf v := by
  cases σ with
  | field key =>
    cases v <;> simp only [apply, Node.get?, Node.asEntries?, Option.bind_eq_bind, Option.bind_none,
      Option.bind_some, reduceCtorEq] at h
    next entries =>
    obtain ⟨e, he, rfl⟩ := Option.map_eq_some_iff.1 h
    have := Fields.sizeOf_value_lt (List.mem_of_find?_eq_some he)
    simp only [Node.map.sizeOf_spec]
    omega
  | index place =>
    cases v <;> simp only [apply, Node.at?, Node.asItems?, Option.bind_eq_bind, Option.bind_none,
      Option.bind_some, reduceCtorEq] at h
    next items =>
    have := List.sizeOf_lt_of_mem (List.mem_of_getElem? h)
    simp only [Node.list.sizeOf_spec]
    omega

end BlockWalk
