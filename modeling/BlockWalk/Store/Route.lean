/-!
# Routes

The text of a path, taken apart: names with slashes between them. The name `.` stays where it is and
`..` goes back up, so a route can only be followed in a tree; `FileTree` does that. Here is what can
be said of the text alone: a route may be too long, and no name of it may have a zero character.

* `Route.ofText` — takes a text apart.
* `Route.child` — the route to a name in the folder that a route leads to.
* `Route.join` — the same for texts, where a text that starts with a slash stands for itself.
-/

namespace BlockWalk

/-- The text of a path, taken apart. -/
structure Route where
  /-- the names, first to last; `.` and `..` are among them -/
  names : List String
  /-- whether a slash follows the last name, which then has to be that of a folder -/
  slash : Bool
  /-- the number of bytes of the text -/
  size : Nat
  deriving DecidableEq, Repr

namespace Route

/-- The most bytes that the name of a file or folder has. -/
def maxName : Nat := 255

/-- The most bytes that the text of a path has. -/
def maxSize : Nat := 4095

/-- The route that a text spells. -/
def ofText (s : String) : Route :=
  ⟨(s.splitOn "/").filter fun name => name ≠ "", s.endsWith "/", s.utf8ByteSize⟩

/-- The route to a name in a folder. -/
def child (r : Route) (name : String) : Route :=
  let between := if r.slash ∨ r.size = 0 then 0 else 1
  ⟨r.names ++ [name], false, r.size + between + name.utf8ByteSize⟩

/-- The text of the path to a file, which is in a folder unless its own path starts with a slash. -/
def join (folder file : String) : String :=
  if file.startsWith "/" then file
  else if folder = "" ∨ folder.endsWith "/" then folder ++ file
  else folder ++ "/" ++ file

/-- Does a name stand for a folder that the route has come by already? -/
def isDots (name : String) : Bool := name = "." || name = ".."

/-- Can there be such a path? -/
def isPossible (r : Route) : Bool :=
  r.size ≤ maxSize && r.names.all fun name => !name.toList.contains '\x00'

end Route

end BlockWalk
