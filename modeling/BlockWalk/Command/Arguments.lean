import BlockWalk.Cid.Form
import BlockWalk.Config

/-!
# Arguments

A command line names a command, what it is about, and options. Arguments are taken from left to
right. An option stands before its value, or is joined to it by `=`; after `--` there are no
options. What an argument gives is checked when the next one is taken, so an argument that nothing
can be made of is reported before a wrong value right before it.
-/

namespace BlockWalk

/-- A command and what it needs. -/
inductive Command where
  /-- prints the identifiers of the blocks that a document selects -/
  | select (file : String) (store : Option String)
  /-- puts the nodes of a description into a store -/
  | importDag (file : String) (store : Option String) (codec : Option CodecName)
  /-- prints the node of a block -/
  | cat (χ : Cid) (store : Option String)
  deriving DecidableEq, Repr

/-- Why arguments make no command. -/
inductive UsageError where
  /-- nothing says what the command is about -/
  | missing
  /-- no option of that name, or one argument too many -/
  | unknown
  /-- a value that is no identifier or no codec -/
  | badValue
  /-- an option without a value, or an empty path -/
  | noValue
  /-- an option given twice -/
  | conflict
  /-- a value where there must be none -/
  | extraValue
  /-- the arguments ask for help -/
  | help
  deriving DecidableEq, Repr

namespace Command

/-- The name of the variable that names the store. -/
def storeVariable : String := "DAGSEL_STORE"

/-- The commands. -/
inductive Verb where
  /-- prints the identifiers of the blocks that a document selects -/
  | select
  /-- puts the nodes of a description into a store -/
  | importDag
  /-- prints the node of a block -/
  | cat
  deriving DecidableEq, Repr

/-- The command of a name. -/
def Verb.ofText? (s : String) : Option Verb :=
  if s = "select" then some select
  else if s = "import" then some importDag
  else if s = "cat" then some cat
  else none

/-- What arguments can give. -/
inductive Slot where
  /-- what the command is about -/
  | subject
  /-- the folder of the store -/
  | store
  /-- the codec to import with -/
  | codec
  deriving DecidableEq, Repr

/-- What the option of a name gives. -/
def Verb.option? (v : Verb) (name : String) : Option Slot :=
  if name = "store" then some .store
  else if name = "codec" ∧ v = .importDag then some .codec
  else none

/-- Checks a value. Paths are not empty, identifiers and codecs can be read. -/
def Verb.check (v : Verb) (slot : Slot) (value : String) : Except UsageError Unit :=
  match slot, v with
  | .subject, .cat => if (Cid.ofText value).isOk then .ok () else .error .badValue
  | .codec, _ => if (CodecName.ofText value).isOk then .ok () else .error .badValue
  | _, _ => if value.isEmpty then .error .noValue else .ok ()

/-- The arguments that were taken. -/
structure Taken where
  /-- the values that were checked -/
  given : List (Slot × String)
  /-- what the last argument gives, and its value if that was taken too -/
  pending : Option (Slot × Option String)
  /-- whether `--` was taken -/
  onlyValues : Bool
  deriving Repr

namespace Taken

/-- The value that was given for a slot. -/
def value? (t : Taken) (slot : Slot) : Option String := t.given.lookup slot

/-- Checks a value and keeps it. -/
def give (v : Verb) (slot : Slot) (value : String) (t : Taken) : Except UsageError Taken := do
  if (t.value? slot).isSome then throw .conflict
  v.check slot value
  return { t with given := (slot, value) :: t.given }

/-- Checks what the last argument gave. -/
def settle (v : Verb) (t : Taken) : Except UsageError Taken :=
  match t.pending with
  | none => .ok t
  | some (_, none) => .error .noValue
  | some (slot, some value) => give v slot value { t with pending := none }

/-- Takes what the command is about. -/
def takeSubject (v : Verb) (arg : String) (t : Taken) : Except UsageError Taken := do
  if (t.value? .subject).isSome ∨ t.pending.map Prod.fst = some .subject then throw .unknown
  let t ← t.settle v
  return { t with pending := some (.subject, some arg) }

/-- Takes an option, which may be joined to a value. -/
def takeOption (v : Verb) (name : String) (value : Option String) (t : Taken) :
    Except UsageError Taken :=
  if name = "help" then
    if value.isSome then .error .extraValue else do
      let _ ← t.settle v
      throw .help
  else
    match v.option? name, value with
    | none, _ => .error .unknown
    | some slot, none => do return { ← t.settle v with pending := some (slot, none) }
    | some slot, some value => do give v slot value (← t.settle v)

/-- Takes letters that stand for options. -/
def takeLetters (v : Verb) (letters : List Char) (t : Taken) : Except UsageError Taken :=
  if letters.head? = some 'h' then do
    let _ ← t.settle v
    throw .help
  else .error .unknown

/-- Takes an argument. -/
def take (v : Verb) (t : Taken) (arg : String) : Except UsageError Taken :=
  if t.onlyValues then t.takeSubject v arg
  else
    match arg.toList, t.pending with
    | ['-', '-'], _ => .ok { t with onlyValues := true }
    | '-' :: '-' :: σ, _ =>
      let name := String.ofList (σ.takeWhile (· ≠ '='))
      match σ.dropWhile (· ≠ '=') with
      | [] => t.takeOption v name none
      | _ :: value => t.takeOption v name (some (String.ofList value))
    | '-' :: c :: σ, _ => t.takeLetters v (c :: σ)
    | _, some (slot, none) => .ok { t with pending := some (slot, some arg) }
    | _, _ => t.takeSubject v arg

/-- The store that the variable names, unless an option names one. -/
def withVariable (v : Verb) (env : Option String) (t : Taken) : Except UsageError Taken :=
  match t.value? .store, env with
  | none, some path => t.give v .store path
  | _, _ => .ok t

end Taken

/-- The command that was asked for; `env` is the store that the environment names. -/
def ofArguments (v : Verb) (env : Option String) (args : List String) :
    Except UsageError Command := do
  let t ← args.foldlM (Taken.take v) ⟨[], none, false⟩
  let t ← t.settle v
  let t ← t.withVariable v env
  match v, t.value? .subject with
  | _, none => throw .missing
  | .select, some file => return .select file (t.value? .store)
  | .importDag, some file =>
    return .importDag file (t.value? .store)
      ((t.value? .codec).bind fun s => (CodecName.ofText s).toOption)
  | .cat, some s =>
    match Cid.ofText s with
    | .ok χ => return .cat χ (t.value? .store)
    | .error _ => throw .badValue

end Command

end BlockWalk
