import BlockWalk.Fields
import BlockWalk.Store.Folder
import BlockWalk.Store.Route

/-!
# File trees

Files and folders, found by following a route from the root, name by name. Each name but the last
has to be that of a folder, also where the next one is `..`. What a file system does when something
is in the way is decided here: a folder is not written over, what is not there cannot be read,
renamed or removed, and a route that ends in `.` or `..` leads to a folder but names nothing that
could be changed.

* `FileTree.locate` — follows a route up to its last name.
* `FileTree.find` — what a route leads to.
* `FileTree.write`, `makeFolder`, `removeFile`, `removeFolder`, `rename` — one change each, which
  fails or is made as a whole.
* `FileTree.makeFolders` — makes folder after folder; those made before it fails stay.
-/

namespace BlockWalk

/-- A file or a folder. -/
inductive Entry where
  /-- a file and its content -/
  | file (β : Bytes)
  /-- a folder and what is in it -/
  | folder (inside : List (String × Entry))
  deriving Repr, Inhabited

/-- Files and folders. -/
structure FileTree where
  /-- what is in the root -/
  root : Fields Entry
  deriving Repr, Inhabited

namespace FileTree

/-- The names of the folders on the way from the root, first to last. -/
abbrev Place : Type := List String

/-- Nothing but the root. -/
def empty : FileTree := ⟨[]⟩

/-! ## Folders at their places -/

/-- What is in the folder at a place, if there is one. -/
def inside? : Place → Fields Entry → Option (Fields Entry)
  | [], φ => some φ
  | name :: p, φ =>
    match φ.find? name with
    | some (.folder ψ) => inside? p ψ
    | _ => none

/-- Changes what is in the folder at a place. -/
def changeInside (f : Fields Entry → Fields Entry) : Place → Fields Entry → Fields Entry
  | [], φ => f φ
  | name :: p, φ =>
    match φ.find? name with
    | some (.folder ψ) => φ.insert name (.folder (changeInside f p ψ))
    | _ => φ

/-- Puts an entry in the folder at a place, over one of its name. -/
def put (t : FileTree) (p : Place) (name : String) (e : Entry) : FileTree :=
  ⟨changeInside (Fields.insert name e) p t.root⟩

/-- Takes the entry of a name out of the folder at a place. -/
def take (t : FileTree) (p : Place) (name : String) : FileTree :=
  ⟨changeInside (Fields.erase name) p t.root⟩

/-- The entry of a name in the folder at a place, if there is one. -/
def look (t : FileTree) (p : Place) (name : String) : Except FileError (Option Entry) :=
  if Route.maxName < name.utf8ByteSize then .error .other
  else
    match inside? p t.root with
    | some φ => .ok (φ.find? name)
    | none => .error .missing

/-! ## Following a route -/

/-- Goes on by one name from the folder at a place to another folder. -/
def enter (t : FileTree) (p : Place) (name : String) : Except FileError Place := do
  if name = "." then return p
  else if name = ".." then return p.dropLast
  else
    match ← t.look p name with
    | some (.folder _) => return p ++ [name]
    | some (.file _) => throw .other
    | none => throw .missing

/-- Where a route ends: a folder, and the last name if that is not yet followed. -/
def locate (t : FileTree) (r : Route) : Except FileError (Place × Option String) := do
  if r.size = 0 then throw .missing
  if !r.isPossible then throw .other
  let p ← r.names.dropLast.foldlM t.enter []
  match r.names.getLast? with
  | none => return (p, none)
  | some name => if Route.isDots name then return (← t.enter p name, none) else return (p, name)

/-- Where a route ends that names what is to be changed. -/
def target (t : FileTree) (r : Route) : Except FileError (Place × String) := do
  match ← t.locate r with
  | (p, some name) => return (p, name)
  | (_, none) => throw .other

/-- What a route leads to. -/
def find (t : FileTree) (r : Route) : Except FileError Entry := do
  match ← t.locate r with
  | (p, none) => return .folder ((inside? p t.root).getD [])
  | (p, some name) =>
    match ← t.look p name with
    | some (.folder φ) => return .folder φ
    | some (.file β) => if r.slash then throw .other else return .file β
    | none => throw .missing

/-! ## Looking -/

/-- The content of a file. -/
def read (t : FileTree) (r : Route) : Except FileError Bytes := do
  match ← t.find r with
  | .file β => return β
  | .folder _ => throw .other

/-- Whether there is a file or folder. -/
def isThere (t : FileTree) (r : Route) : Except FileError Bool :=
  match t.find r with
  | .ok _ => .ok true
  | .error .missing => .ok false
  | .error .other => .error .other

/-- The names of the files and folders in a folder, in order. -/
def names (t : FileTree) (r : Route) : List String :=
  match t.find r with
  | .ok (.folder φ) => Fields.names φ
  | _ => []

/-! ## Changing -/

/-- Writes a file, over one that is there. -/
def write (t : FileTree) (r : Route) (β : Bytes) : Except FileError FileTree := do
  let (p, name) ← t.target r
  match ← t.look p name with
  | some (.folder _) => throw .other
  | _ => if r.slash then throw .other else return t.put p name (.file β)

/-- Makes a folder where nothing is. -/
def makeFolder (t : FileTree) (r : Route) : Except FileError FileTree := do
  let (p, name) ← t.target r
  match ← t.look p name with
  | some _ => throw .other
  | none => return t.put p name (.folder [])

/-- Removes a file. -/
def removeFile (t : FileTree) (r : Route) : Except FileError FileTree := do
  let (p, name) ← t.target r
  match ← t.look p name with
  | some (.file _) => if r.slash then throw .other else return t.take p name
  | some (.folder _) => throw .other
  | none => throw .missing

/-- Removes a folder and all that is in it. -/
def removeFolder (t : FileTree) (r : Route) : Except FileError FileTree := do
  let (p, name) ← t.target r
  match ← t.look p name with
  | some (.folder _) => return t.take p name
  | some (.file _) => throw .other
  | none => throw .missing

/-- Renames a file over a file or nothing, or a folder over an empty one or nothing, but never a
folder into itself. -/
def rename (t : FileTree) (r s : Route) : Except FileError FileTree := do
  let (p, name) ← t.target r
  let (q, other) ← t.target s
  let moved := fun e => if p = q ∧ name = other then t else (t.take p name).put q other e
  match ← t.look p name, ← t.look q other with
  | none, _ => throw .missing
  | some (.file _), some (.folder _) => throw .other
  | some (.file β), _ => if r.slash || s.slash then throw .other else return moved (.file β)
  | some (.folder _), some (.file _) => throw .other
  | some (.folder φ), there =>
    let isFree := match there with
      | some (.folder ψ) => ψ.isEmpty || (p = q && name = other)
      | _ => true
    if isFree && !(p ++ [name]).isPrefixOf q then return moved (.folder φ) else throw .other

/-- A change, which is not made if it fails. -/
def change (f : FileTree → Except FileError FileTree) : StateM FileTree (Except FileError Unit) :=
  fun t =>
    match f t with
    | .ok u => (.ok (), u)
    | .error ε => (.error ε, t)

/-- Goes on by one name to another folder, which is made if nothing is there. -/
def enterOrMake (p : Place) (name : String) : ExceptT FileError (StateM FileTree) Place :=
  fun t =>
    match t.enter p name with
    | .error .missing => (.ok (p ++ [name]), t.put p name (.folder []))
    | result => (result, t)

/-- Makes the folders on a route that are not there. The one before a last `.` is not made but has
to be there. -/
def makeFolders (r : Route) : ExceptT FileError (StateM FileTree) Unit := do
  if !r.isPossible then throw .other
  let names := r.names.filter fun name => name ≠ "."
  let made := if r.names.getLast? = some "." then names.dropLast else names
  let p ← made.foldlM enterOrMake []
  let t ← get
  match (names.drop made.length).foldlM t.enter p with
  | .ok _ => return
  | .error ε => throw ε

/-! ## The files of a tree -/

/-- The files in the folder at the end of a route. -/
def folder (r : Route) : Folder (StateM FileTree) where
  read name := fun t => (t.read (r.child name), t)
  isThere name := fun t => (t.isThere (r.child name), t)
  write name β := change fun t => t.write (r.child name) β
  rename name other := change fun t => t.rename (r.child name) (r.child other)

/-- The files of the tree. -/
def files : Files (StateM FileTree) where
  read s := fun t => (t.read (.ofText s), t)
  openFolder s := (fun made => made.map fun _ => folder (.ofText s)) <$>
    (makeFolders (.ofText s)).run

end FileTree

end BlockWalk
