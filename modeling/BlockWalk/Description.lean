import BlockWalk.Codec.DagJson
import BlockWalk.Store

/-!
# Descriptions

A description gives names to nodes. It is a JSON object: the name of a member is the name of a node,
and its value is the node, written as JSON. A link may have the name of a node of the description as
its target. Any other target is an identifier, of a block outside the description; where a name is
an identifier too, the name counts.
-/

namespace BlockWalk

/-- Why a description cannot be imported. -/
inductive ImportError where
  /-- it is not an object -/
  | notAnObject
  /-- a link target is neither a name nor an identifier -/
  | unknownTarget (name : String) (target : String)
  /-- a node is needed for its own encoding -/
  | cycle (name : String)
  /-- a node cannot be read or encoded -/
  | codec (ε : CodecError)
  /-- the store failed -/
  | storage (ε : StorageError)
  deriving Repr

/-- What is wrong, in words. -/
def ImportError.message : ImportError → String
  | notAnObject => "DAG description must be a JSON object of named nodes"
  | unknownTarget name target =>
    "Node '" ++ name ++ "' links to unknown target '" ++ target ++ "'"
  | cycle name => "Reference cycle through node '" ++ name ++ "'"
  | codec ε => ε.message
  | storage ε => ε.message

/-- Named nodes. -/
abbrev Description : Type := Fields Json

namespace Description

/-- The targets of the links of a node, from left to right. -/
def targets (v : Json) : List String :=
  match DagJson.linkTarget? v with
  | some target => [target]
  | none =>
    match v with
    | .arr items => items.flatMap fun w => targets w
    | .obj members => members.flatMap fun e => targets e.2
    | _ => []
termination_by v
decreasing_by
  · decreasing_tactic
  · have := Fields.sizeOf_value_lt ‹_›
    simp only [Json.obj.sizeOf_spec]
    omega

/-- The names that a node links to, in the order of the links. -/
def references (d : Description) (name : String) : List String :=
  match d.find? name with
  | some v => (targets v).filter d.contains
  | none => []

/-- Only the nodes of the description have references. -/
theorem references_eq_nil {d : Description} {name : String} (h : name ∉ d.names) :
    d.references name = [] := by
  rw [references, Fields.find?_eq_none.2 h]

/-- Is a target neither a name nor an identifier? -/
def isUnknown (d : Description) (target : String) : Bool :=
  !d.contains target && !(Cid.ofText target).isOk

/-- The first unknown target of the description, with the name of its node. -/
def unknownTarget? (d : Description) : Option (String × String) :=
  d.findSome? fun e => ((targets e.2).find? d.isUnknown).map fun target => (e.1, target)

end Description

end BlockWalk
