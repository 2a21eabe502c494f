import BlockWalk.Codec
import BlockWalk.Selector.Document
import BlockWalk.Store
import BlockWalk.Walk.Search

/-!
# Traversals

A traversal runs the program of a document over the blocks of a store. It is pulled: every pull
walks until one more block is needed, reads and decodes that block, and gives it out. The root comes
first. So a pull reads one block or none, and every block that was read was given out, unless the
read failed.

* `Traversal.pull` — the next block.
* `Traversal.drain` — all blocks and how the traversal ended.
* `Traversal.blocks` and `Traversal.stream` — blocks as they come.

The last three end only if the program does, so they are given a number of pulls.
-/

namespace BlockWalk

/-! ## Endings -/

/-- How a traversal ended. -/
inductive Resolution where
  /-- the last branch did the whole program -/
  | resolved
  /-- no branch was left, and these instructions were not done on the last one -/
  | unresolved (rest : List Selector)
  deriving DecidableEq, Repr

namespace Resolution

/-- The ending of a traversal whose last branch left `rest` over. -/
def ofRest (rest : List Selector) : Resolution :=
  if rest.isEmpty then resolved else unresolved rest

/-- Was the whole program done? -/
def isResolved : Resolution → Bool
  | resolved => true
  | unresolved _ => false

/-- The instructions that were not done. -/
def remaining : Resolution → List Selector
  | resolved => []
  | unresolved rest => rest

/-- The instructions that were not done, as a program. -/
def remainingJson (ρ : Resolution) : Json := Selector.programToJson ρ.remaining

/-- The ending in words. -/
def toText : Resolution → String
  | resolved => "resolved"
  | unresolved rest => "unresolved " ++ (Selector.programToJson rest).compact

end Resolution

/-- What ends a traversal early. The blocks before it were right. -/
inductive TraversalError where
  /-- a block is not in the store -/
  | notFound (χ : Cid)
  /-- a block is there, but cannot be decoded -/
  | decode (χ : Cid) (source : CodecError)
  /-- the store failed -/
  | storage (source : StorageError)
  deriving Repr

namespace TraversalError

/-- What is wrong, in words. -/
def message : TraversalError → String
  | notFound χ => "Block " ++ χ.toText ++ " not found"
  | decode χ source => "Failed to decode block " ++ χ.toText ++ ": " ++ source.message
  | storage source => "Storage error: " ++ source.message

/-- The kind of an error, as a fixed word. -/
def code : TraversalError → String
  | notFound _ => "TRAVERSAL_NOT_FOUND"
  | decode _ _ => "TRAVERSAL_DECODE"
  | storage _ => "TRAVERSAL_STORAGE"

end TraversalError

/-! ## States -/

/-- How far a traversal has come. -/
inductive Phase where
  /-- nothing was read -/
  | fresh (program : List Selector)
  /-- a block was given out, and the walk goes on from its root -/
  | underway (c : Cursor) (stack : List Frame)
  /-- the walk has ended -/
  | done (ρ : Resolution)
  /-- a block could not be had -/
  | failed
  deriving Repr

/-- A traversal between two pulls. -/
structure Traversal where
  /-- the block it started from -/
  root : Cid
  /-- how far it has come -/
  phase : Phase
  /-- the number of blocks given out -/
  emitted : Nat
  deriving Repr

namespace Traversal

/-- The traversal of a document, before the first pull. -/
def ofDocument (d : Document) : Traversal := ⟨d.root, .fresh d.program, 0⟩

/-- How the traversal ended, if it has, and without an error. -/
def resolution? (t : Traversal) : Option Resolution :=
  match t.phase with
  | .done ρ => some ρ
  | _ => none

/-! ## Pulling -/

section Pulling

variable {m : Type → Type} [Monad m] (read : BlockReader m) (codecs : Registry)

/-- Reads a block and decodes it. -/
def load (χ : Cid) : m (Except TraversalError (Block × Node)) := do
  match ← read χ with
  | .error ε => return .error (.storage ε)
  | .ok none => return .error (.notFound χ)
  | .ok (some b) =>
    match codecs.decode b with
    | .error ε => return .error (.decode χ ε)
    | .ok v => return .ok (b, v)

/-- Reads a block and goes on at its root. -/
def enter (t : Traversal) (χ : Cid) (task : Task) (stack : List Frame) :
    m (Except TraversalError (Option Block) × Traversal) := do
  match ← load read codecs χ with
  | .error ε => return (.error ε, { t with phase := .failed })
  | .ok (b, v) =>
    return (.ok (some b), ⟨t.root, .underway ⟨.block v, task⟩ stack, t.emitted + 1⟩)

/-- The next block; none if the traversal has ended or failed. -/
def pull (t : Traversal) : m (Except TraversalError (Option Block) × Traversal) :=
  match t.phase with
  | .fresh program => t.enter read codecs t.root (.top (.start program)) []
  | .underway c stack =>
    match (Walk.running c stack).seek with
    | .block χ task stack => t.enter read codecs χ task stack
    | .ended rest => return (.ok none, { t with phase := .done (.ofRest rest) })
  | .done _ | .failed => return (.ok none, t)

/-- All that a traversal gives. -/
structure Selection where
  /-- the blocks, first to last -/
  blocks : List Block
  /-- how it ended -/
  outcome : Except TraversalError Resolution

/-- The ending that a traversal reports when it gives no more blocks. -/
def ending (t : Traversal) : Resolution := t.resolution?.getD .resolved

/-- Pulls until there are no more blocks; `before` are those given out so far, last first. None if
`pulls` do not suffice. -/
def drainFrom : (pulls : Nat) → (before : List Block) → Traversal → m (Option Selection)
  | 0, _, _ => return none
  | pulls + 1, before, t => do
    match ← t.pull read codecs with
    | (.ok (some b), t) => drainFrom pulls (b :: before) t
    | (.ok none, t) => return some ⟨before.reverse, .ok t.ending⟩
    | (.error ε, _) => return some ⟨before.reverse, .error ε⟩

/-- All remaining blocks and the ending. -/
def drain (pulls : Nat) (t : Traversal) : m (Option Selection) := drainFrom read codecs pulls [] t

/-- Blocks and errors as they come, until nothing comes or `pulls` are used up. -/
def blocks : (pulls : Nat) → Traversal → m (List (Except TraversalError Block) × Traversal)
  | 0, t => return ([], t)
  | pulls + 1, t => do
    match ← t.pull read codecs with
    | (.ok none, t) => return ([], t)
    | (.ok (some b), t) =>
      let (rest, t) ← blocks pulls t
      return (.ok b :: rest, t)
    | (.error ε, t) =>
      let (rest, t) ← blocks pulls t
      return (.error ε :: rest, t)

/-- Blocks as they come, until nothing comes or `pulls` are used up; an error is the last item. -/
def stream : (pulls : Nat) → Traversal → m (List (Except TraversalError Block))
  | 0, _ => return []
  | pulls + 1, t => do
    match ← t.pull read codecs with
    | (.ok none, _) => return []
    | (.ok (some b), t) => return .ok b :: (← stream pulls t)
    | (.error ε, _) => return [.error ε]

end Pulling

end Traversal

end BlockWalk
