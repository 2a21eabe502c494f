import BlockWalk.Block

/-!
# Stores

A store keeps blocks under their identifiers. What a store does besides, such as reading files, is
up to the monad `m` it works in.
-/

namespace BlockWalk

/-- Why a store gave no answer. -/
inductive StorageError where
  /-- whatever the store itself reports, in its words -/
  | backend (reason : String)
  /-- a file could not be read or written -/
  | file
  /-- the bytes under an identifier are not those that it names -/
  | corrupt (χ : Cid)
  deriving DecidableEq, Repr

namespace StorageError

/-- What is wrong, in words. -/
def message : StorageError → String
  | backend reason => "Backend error: " ++ reason
  | file => "I/O error: (io)"
  | corrupt χ => "Stored block does not match its identifier " ++ χ.toText

/-- The kind of an error, as a fixed word. -/
def code : StorageError → String
  | backend _ => "STORAGE_BACKEND"
  | file => "STORAGE_IO"
  | corrupt _ => "STORAGE_CORRUPT"

end StorageError

/-- Reads the block of an identifier, if the store has it. -/
abbrev BlockReader (m : Type → Type) : Type := Cid → m (Except StorageError (Option Block))

/-- A store of blocks. -/
structure Store (m : Type → Type) where
  /-- the block of an identifier, if it is there -/
  get : BlockReader m
  /-- keeps a block under its identifier; one that is there already stays -/
  put : Block → m (Except StorageError Unit)
  /-- whether there is a block of an identifier -/
  has : Cid → m (Except StorageError Bool)

/-- Whether there is a block, by reading it: what a store does that knows no cheaper way. -/
def BlockReader.has {m : Type → Type} [Functor m] (get : BlockReader m) (χ : Cid) :
    m (Except StorageError Bool) :=
  (fun r => r.map Option.isSome) <$> get χ

end BlockWalk
