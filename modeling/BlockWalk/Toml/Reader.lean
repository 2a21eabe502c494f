import BlockWalk.Bytes
import BlockWalk.Toml
import BlockWalk.Toml.Token

/-!
# Reading TOML

A text is a number of lines: a header, a key and its value, or nothing. Only what a `Toml` can be is
read. Numbers, dates, arrays with items and arrays of tables are refused like anything malformed.
-/

namespace BlockWalk.Toml

/-- What follows the part of `ts` that was read; it is shorter. -/
abbrev Rest (ts : List Token) : Type := { rest : List Token // rest.length < ts.length }

/-- A name, with quotes or without. -/
def name? : Token → Option String
  | .bare s => some s
  | .line s => some s
  | _ => none

/-- The most names that a key has, and the most tables between braces that are in one another. -/
def maxDepth : Nat := 79

/-- A key of at most `n` names: the names with dots between them, and what follows it. -/
def key? : (n : Nat) → (ts : List Token) → Option (List String × Rest ts)
  | n + 1, t :: .mark '.' :: ts => do
    let k ← name? t
    let (keys, ⟨rest, h⟩) ← key? n ts
    return (k :: keys, ⟨rest, by simp only [List.length_cons]; omega⟩)
  | _ + 1, t :: ts => (name? t).map fun k => ([k], ⟨ts, by simp⟩)
  | _, _ => none

/-- A key, the sign `=`, and what follows it. -/
def keyBefore? (ts : List Token) : Option (List String × Rest ts) :=
  match key? maxDepth ts with
  | some (keys, ⟨.mark '=' :: rest, h⟩) =>
    some (keys, ⟨rest, by simp only [List.length_cons] at h; omega⟩)
  | _ => none

/-- A key, its value and what follows it, where `value?` reads a value. -/
def member? (value? : (ts : List Token) → Option (Toml × Rest ts)) (ts : List Token) :
    Option (List String × Toml × Rest ts) := do
  let (keys, ⟨between, h₁⟩) ← keyBefore? ts
  let (v, ⟨rest, h₂⟩) ← value? between
  return (keys, v, ⟨rest, by omega⟩)

/-- The members of a table up to its closing brace, after those in `φ`. -/
def members? (value? : (ts : List Token) → Option (Toml × Rest ts)) (φ : Fields Toml)
    (ts : List Token) : Option (Fields Toml × Rest ts) := do
  let (keys, v, after) ← member? value? ts
  let φ ← assign v keys φ
  have shorter := after.2
  match _h : after.1 with
  | .mark '\x7d' :: rest => return (φ, ⟨rest, by rw [_h, List.length_cons] at shorter; omega⟩)
  | .mark ',' :: more =>
    have : more.length < ts.length := by rw [_h, List.length_cons] at shorter; omega
    let (φ, ⟨rest, _⟩) ← members? value? φ more
    return (φ, ⟨rest, by omega⟩)
  | _ => none
termination_by ts.length

/-- A value and what follows it; tables between braces are nested at most `d` deep. -/
def value? : (d : Nat) → (ts : List Token) → Option (Toml × Rest ts)
  | _, .line s :: ts => some (.text s, ⟨ts, by simp⟩)
  | _, .block s :: ts => some (.text s, ⟨ts, by simp⟩)
  | _, .mark '[' :: ts =>
    match h : ts.dropWhile (· = .newline) with
    | .mark ']' :: rest => some (.emptyArray, ⟨rest, by
        have := Token.length_dropWhile_le (· = .newline) ts
        simp only [h, List.length_cons] at this ⊢
        omega⟩)
    | _ => none
  | _, .mark '\x7b' :: .mark '\x7d' :: ts => some (.table .inline [], ⟨ts, by
      simp only [List.length_cons]
      omega⟩)
  | d + 1, .mark '\x7b' :: ts => (members? (value? d) [] ts).map fun (φ, ⟨rest, h⟩) =>
      (.table .inline φ, ⟨rest, by simp only [List.length_cons]; omega⟩)
  | _, _ => none

/-- What was read so far: the tables, and the header that keys stand under. -/
structure State where
  /-- the outermost table -/
  fields : Fields Toml
  /-- the path of the table that was opened last -/
  header : List String
  deriving Repr

/-- Opens the table of a header. -/
def openHeader (keys : List String) (s : State) : Option State :=
  match keys.getLast? with
  | none => none
  | some k => (within (openTable k) keys.dropLast s.fields).map fun φ => ⟨φ, keys⟩

/-- Reads what stands on one line. -/
def statement? (s : State) : (ts : List Token) → Option (State × Rest ts)
  | .mark '[' :: ts =>
    match key? maxDepth ts with
    | some (keys, ⟨.mark ']' :: rest, h⟩) => (openHeader keys s).map fun s =>
        (s, ⟨rest, by simp only [List.length_cons] at h ⊢; omega⟩)
    | _ => none
  | ts => do
    let (keys, v, rest) ← member? (value? maxDepth) ts
    let φ ← within (assign v keys) s.header s.fields
    return ({ s with fields := φ }, rest)

/-- Reads line after line. -/
def statements? (s : State) : List Token → Option State
  | [] => some s
  | .newline :: ts => statements? s ts
  | t :: ts =>
    match statement? s (t :: ts) with
    | some (s, ⟨[], _⟩) => some s
    | some (s, ⟨.newline :: rest, _h⟩) => statements? s rest
    | _ => none
termination_by ts => ts.length
decreasing_by
  · simp
  · simp only [List.length_cons] at _h ⊢
    omega

/-- The table that a text spells. A mark of the byte order at its start is left out. -/
def ofText? (text : String) : Option (Fields Toml) := do
  let σ := match text.toList with
    | '\uFEFF' :: σ => σ
    | σ => σ
  let s ← statements? ⟨[], []⟩ (← Token.scan? σ)
  return s.fields

end BlockWalk.Toml
