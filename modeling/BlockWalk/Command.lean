import BlockWalk.Codec.DagBinary
import BlockWalk.Command.Arguments
import BlockWalk.Description.Import
import BlockWalk.Traversal

/-!
# Commands

What a command prints and how it ends. A command that fails tells what it was doing and then, one
after the other, the errors that led there; what was printed before stays.

A selection prints its blocks as they come. One over blocks that link in a circle has no end, so a
command is given a number of pulls.
-/

namespace BlockWalk

/-! ## Chains of errors

Each error is followed by the one that caused it. -/

/-- The errors behind an error of a store. -/
def StorageError.chain (ε : StorageError) : List String :=
  match ε with
  | file => [ε.message, "(io)"]
  | _ => [ε.message]

/-- The errors behind an error of a document. -/
def SelectorError.chain (ε : SelectorError) : List String :=
  match ε with
  | invalid _ => [ε.message]
  | invalidRoot source => [ε.message, source.message]

/-- The errors behind an error of a traversal. -/
def TraversalError.chain (ε : TraversalError) : List String :=
  match ε with
  | notFound _ => [ε.message]
  | decode _ source => [ε.message, source.message]
  | storage source => ε.message :: source.chain

/-- The errors behind an error of an import. -/
def ImportError.chain (ε : ImportError) : List String :=
  match ε with
  | storage source => source.chain
  | _ => [ε.message]

/-- The errors behind an error of the settings. -/
def ConfigError.chain (ε : ConfigError) : List String := [ε.message, ε.detail]

/-! ## Running -/

/-- What a command did. -/
structure Report where
  /-- what it printed -/
  out : String
  /-- its exit code, or why it failed, the outermost error first -/
  ending : Except (List String) Nat
  deriving Repr

/-- The codecs that commands know. -/
def Registry.standard : Registry := (Registry.empty.register .dagJson).register .dagBinary

/-- The settings in a file, or the usual ones. -/
def Config.loadIfGiven {m : Type → Type} [Monad m] (files : Files m) :
    Option String → m (Except (List String) Config)
  | none => return .ok .default
  | some path => do
    match ← load files path with
    | .ok c => return .ok c
    | .error ε => return .error (("Failed to load config " ++ path) :: ε.chain)

namespace Command

/-- The exit code of a selection that left instructions over. -/
def unresolvedCode : Nat := 2

/-- A text and the end of its line. -/
def line (s : String) : String := s ++ "\n"

/-- The report of a selection that came to its end, having printed `out`. -/
def finish (out : String) : Option Resolution → Report
  | some (.unresolved rest) =>
    let program := (Selector.programToJson rest).compact
    ⟨out ++ line ("The selector wasn't fully resolved: " ++ program), .ok unresolvedCode⟩
  | _ => ⟨out, .ok 0⟩

section

variable {m : Type → Type} [Monad m] (files : Files m) (config : Config)

/-- A step of a command that may fail before anything is printed. -/
abbrev Step (m : Type → Type) : Type → Type := ExceptT (List String) m

/-- Reads a file; `task` says what for. -/
def readFile (task file : String) : Step m Bytes :=
  ExceptT.mk ((fun r => r.mapError fun _ => [task ++ " " ++ file, "(io)"]) <$> files.read file)

/-- Opens the store that an option names, or else the settings. -/
def openStore (path : Option String) : Step m (Store m) :=
  match path <|> config.storePath with
  | none => throw ["`" ++ storeVariable ++ "` needs to be defined"]
  | some path =>
    ExceptT.mk ((fun r => match r with
      | .ok folder => .ok (Store.folder folder)
      | .error _ => .error (("Failed to open block store " ++ path) :: StorageError.chain .file))
      <$> files.openFolder path)

/-- Prints blocks as they come, one a line; `out` was printed before. None if `pulls` do not
suffice. -/
def printBlocks (read : BlockReader m) : (pulls : Nat) → (out : String) → Traversal →
    m (Option Report)
  | 0, _, _ => return none
  | pulls + 1, out, t => do
    match ← t.pull read .standard with
    | (.ok (some b), t) => printBlocks read pulls (out ++ line b.cid.toText) t
    | (.ok none, t) => return some (finish out t.resolution?)
    | (.error ε, _) => return some ⟨out, .error ("Traversal failed" :: ε.chain)⟩

/-- Runs a selection; none if the pulls do not suffice. -/
def runSelect (pulls : Nat) (file : String) (store : Option String) : Step m (Option Report) := do
  let β ← readFile files "Failed to read selector document" file
  match Document.ofBytes β with
  | .error ε => throw ("Invalid selector document" :: ε.chain)
  | .ok d =>
    let store ← openStore files config store
    ExceptT.lift (printBlocks store.get pulls "" (Traversal.ofDocument d))

/-- Runs an import. -/
def runImport (file : String) (store : Option String) (codec : Option CodecName) :
    Step m Report := do
  let β ← readFile files "Failed to read DAG description" file
  match Json.ofBytes? β with
  | none => throw ["DAG description is not valid JSON", "(json)"]
  | some v =>
    let store ← openStore files config store
    let κ := (codec.getD config.importCodec).multicodec
    match ← ExceptT.lift (Description.importAll store .standard κ v) with
    | .error ε => throw ("Import failed" :: ε.chain)
    | .ok cids => return ⟨String.join (cids.map fun e => line (e.1 ++ " " ++ e.2.toText)), .ok 0⟩

/-- Prints a node. -/
def runCat (χ : Cid) (store : Option String) : Step m Report := do
  let store ← openStore files config store
  match ← ExceptT.lift (store.get χ) with
  | .error ε => throw ε.chain
  | .ok none => throw ["Block " ++ χ.toText ++ " not found"]
  | .ok (some b) =>
    match Registry.standard.decode b with
    | .error ε => throw ["Failed to decode block " ++ χ.toText, ε.message]
    | .ok v =>
      match DagJson.toJson v with
      | .error ε => throw [CodecError.message (.encode ε)]
      | .ok w => return ⟨line w.pretty, .ok 0⟩

/-- Runs a command; none if the pulls do not suffice. -/
def run (pulls : Nat) (c : Command) : m (Option Report) := do
  let result ← ExceptT.run (match c with
    | select file store => runSelect files config pulls file store
    | importDag file store codec => some <$> runImport files config file store codec
    | cat χ store => some <$> runCat files config χ store)
  match result with
  | .ok r => return r
  | .error chain => return some ⟨"", .error chain⟩

end

end Command

end BlockWalk
