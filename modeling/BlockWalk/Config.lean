import BlockWalk.Multicodec
import BlockWalk.Store.Folder
import BlockWalk.Toml.Reader

/-!
# Settings

What the commands are set up with, apart from what they are told on the command line: where the
store is, which codec blocks are imported with, and how the log looks. Settings are read from a TOML
file; each of them may be missing.

A choice is written as its name. A table with that name as its one key, and nothing in it, is read
as the same choice.
-/

namespace BlockWalk

/-- The codecs to import with. -/
inductive CodecName where
  /-- nodes as JSON -/
  | dagJson
  /-- nodes in binary -/
  | dagBinary
  deriving DecidableEq, Repr

/-- The looks of the log. -/
inductive LogFormat where
  /-- lines of JSON -/
  | json
  /-- lines to be read by people -/
  | pretty
  deriving DecidableEq, Repr

/-- A name that names no choice. -/
inductive NameError where
  /-- not the name of a codec -/
  | codec (s : String)
  /-- not the name of a log format -/
  | logFormat (s : String)
  deriving DecidableEq, Repr

/-- What is wrong, in words. -/
def NameError.message : NameError → String
  | codec s => "unknown codec '" ++ s ++ "', expected 'dag-json' or 'dag-bincode'"
  | logFormat s => "unknown log format '" ++ s ++ "', expected 'json' or 'pretty'"

namespace CodecName

/-- The number of a codec. -/
def multicodec : CodecName → Multicodec
  | dagJson => .dagJson
  | dagBinary => .dagBinary

/-- The name of a codec. -/
def toText (c : CodecName) : String := c.multicodec.toText

/-- The codec of a name. -/
def ofText (s : String) : Except NameError CodecName :=
  if s = "dag-json" then .ok dagJson
  else if s = "dag-bincode" then .ok dagBinary
  else .error (.codec s)

end CodecName

namespace LogFormat

/-- The name of a log format. -/
def toText : LogFormat → String
  | json => "json"
  | pretty => "pretty"

/-- The log format of a name. -/
def ofText (s : String) : Except NameError LogFormat :=
  if s = "json" then .ok json
  else if s = "pretty" then .ok pretty
  else .error (.logFormat s)

end LogFormat

/-- The settings. -/
structure Config where
  /-- the folder of the store -/
  storePath : Option String
  /-- the codec to import with -/
  importCodec : CodecName
  /-- how the log looks -/
  logFormat : LogFormat
  deriving DecidableEq, Repr

/-- Why there are no settings. -/
inductive ConfigError where
  /-- the file cannot be read, or is not a text -/
  | file
  /-- the file is not TOML, or does not hold settings -/
  | parse
  deriving DecidableEq, Repr

namespace ConfigError

/-- What went wrong inside, in words. -/
def detail : ConfigError → String
  | file => "(io)"
  | parse => "(toml)"

/-- What is wrong, in words. -/
def message : ConfigError → String
  | file => "Failed to read config: " ++ detail file
  | parse => "Failed to parse config: " ++ detail parse

/-- The kind of an error, as a fixed word. -/
def code : ConfigError → String
  | file => "CONFIG_IO"
  | parse => "CONFIG_PARSE"

end ConfigError

namespace Config

/-- The settings where nothing is set. -/
def default : Config := ⟨none, .dagBinary, .pretty⟩

/-- The choice that a value makes. -/
def choice? {α : Type} (ofName : String → Except NameError α) : Toml → Option α
  | .text s => (ofName s).toOption
  | .table _ [(s, v)] => if v.isHollow then (ofName s).toOption else none
  | _ => none

/-- Sets what a key is about. -/
def set? (c : Config) : String × Toml → Option Config
  | ("store_path", .text s) => some { c with storePath := some s }
  | ("import_codec", v) => (choice? CodecName.ofText v).map fun n => { c with importCodec := n }
  | ("log_format", v) => (choice? LogFormat.ofText v).map fun f => { c with logFormat := f }
  | _ => none

/-- The settings in a text. -/
def ofText (s : String) : Except ConfigError Config :=
  match Toml.ofText? s >>= fun φ => φ.foldlM set? default with
  | some c => .ok c
  | none => .error .parse

/-- The settings in a file. -/
def load {m : Type → Type} [Monad m] (files : Files m) (path : String) :
    m (Except ConfigError Config) := do
  match ← files.read path with
  | .error _ => return .error .file
  | .ok β =>
    match Bytes.toText? β with
    | none => return .error .file
    | some s => return ofText s

end Config

end BlockWalk
