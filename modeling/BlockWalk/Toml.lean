import BlockWalk.Fields

/-!
# TOML tables

What a settings file in TOML can hold here: texts, empty arrays, and tables of these. A table may be
written in one piece, built up by keys with dots in them, or opened by a header; which of these it
was decides who may add to it. A key is given a value once, and a header opens a table once.
-/

namespace BlockWalk

namespace Toml

/-- How a table came about. -/
inductive Origin where
  /-- between braces; it is complete -/
  | inline
  /-- by a key with a dot in it -/
  | dotted
  /-- by a header of its own -/
  | header
  /-- by the header of a table in it -/
  | implied
  deriving DecidableEq, Repr

end Toml

/-- A value. -/
inductive Toml where
  /-- a text -/
  | text (s : String)
  /-- an array without items -/
  | emptyArray
  /-- a table -/
  | table (origin : Toml.Origin) (fields : List (String × Toml))
  deriving Repr, Inhabited

namespace Toml

/-- Is it a table or array with nothing in it? -/
def isHollow : Toml → Bool
  | emptyArray => true
  | table _ fields => fields.isEmpty
  | text _ => false

/-- Gives a value to a key with dots in it; none if it has one already, or if a table on the way is
complete. A table that the header of another implies may be passed, but not added to. -/
def assign (v : Toml) : List String → Fields Toml → Option (Fields Toml)
  | [], _ => none
  | [k], φ => if φ.contains k then none else some (φ.insert k v)
  | k :: keys, φ =>
    match φ.find? k with
    | none => (assign v keys []).map fun ψ => φ.insert k (table .dotted ψ)
    | some (table .dotted ψ) => (assign v keys ψ).map fun ψ => φ.insert k (table .dotted ψ)
    | some (table .implied ψ) =>
      if keys.length = 1 then none
      else (assign v keys ψ).map fun ψ => φ.insert k (table .implied ψ)
    | some _ => none

/-- Goes to the table of a header and changes what is in it; none if there is something else on the
way. -/
def within (change : Fields Toml → Option (Fields Toml)) :
    List String → Fields Toml → Option (Fields Toml)
  | [], φ => change φ
  | k :: keys, φ =>
    match φ.find? k with
    | none => (within change keys []).map fun ψ => φ.insert k (table .implied ψ)
    | some (table .inline _) => none
    | some (table o ψ) => (within change keys ψ).map fun ψ => φ.insert k (table o ψ)
    | some _ => none

/-- Opens a table; none if its header was there before, or if it is no table. -/
def openTable (k : String) (φ : Fields Toml) : Option (Fields Toml) :=
  match φ.find? k with
  | none => some (φ.insert k (table .header []))
  | some (table .implied ψ) => some (φ.insert k (table .header ψ))
  | some _ => none

end Toml

end BlockWalk
