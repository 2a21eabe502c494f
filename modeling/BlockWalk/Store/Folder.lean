import BlockWalk.Store

/-!
# Stores in a folder

Each block is a file, and the text of its identifier is the name of the file. A block is written
under another name first and then renamed, so a file that bears the name of a block was written to
its end. Whatever happens to the files otherwise, only bytes that the name belongs to are given out.
-/

namespace BlockWalk

/-- Why a file was not read or written. -/
inductive FileError where
  /-- there is no such file -/
  | missing
  /-- anything else -/
  | other
  deriving DecidableEq, Repr

/-- The files directly inside one folder, by their names. -/
structure Folder (m : Type → Type) where
  /-- the content of a file -/
  read : String → m (Except FileError Bytes)
  /-- whether there is a file or folder of a name -/
  isThere : String → m (Except FileError Bool)
  /-- writes a file, over one of that name -/
  write : String → Bytes → m (Except FileError Unit)
  /-- renames a file, over one of the new name -/
  rename : String → String → m (Except FileError Unit)

/-- Files and folders by the texts of their paths. -/
structure Files (m : Type → Type) where
  /-- the content of a file -/
  read : String → m (Except FileError Bytes)
  /-- the files in a folder, which is made if it is not there -/
  openFolder : String → m (Except FileError (Folder m))

namespace Store

/-- The name of the file of a block. -/
def fileName (χ : Cid) : String := χ.toText

/-- The name that the file of a block has while it is written. -/
def draftName (χ : Cid) : String := χ.toText ++ ".tmp"

section

variable {m : Type → Type} [Monad m] (files : Folder m)

/-- A use of a file, as a part of a use of the store. -/
def useFile {α : Type} (use : m (Except FileError α)) : ExceptT StorageError m α :=
  ExceptT.mk ((fun r => r.mapError fun _ => .file) <$> use)

/-- The block of an identifier, if there is a file for it and its bytes are right. -/
def readBlock (χ : Cid) : m (Except StorageError (Option Block)) := do
  match ← files.read (fileName χ) with
  | .ok β => return if Cid.hash χ.codec β = χ then .ok (some ⟨χ, β⟩) else .error (.corrupt χ)
  | .error .missing => return .ok none
  | .error .other => return .error .file

/-- Writes the file of a block, unless there is one. -/
def writeBlock (b : Block) : ExceptT StorageError m Unit := do
  if ← useFile (files.isThere (fileName b.cid)) then return
  useFile (files.write (draftName b.cid) b.data)
  useFile (files.rename (draftName b.cid) (fileName b.cid))

/-- The store that keeps its blocks in a folder. -/
def folder : Store m where
  get χ := readBlock files χ
  put b := (writeBlock files b).run
  has χ := (useFile (files.isThere (fileName χ))).run

end

end Store

end BlockWalk
