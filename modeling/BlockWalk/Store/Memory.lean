import BlockWalk.Store

/-!
# Stores in memory

Blocks in the order in which they were put in. The first block under an identifier stays until it is
removed; the bytes of a block are not looked at.
-/

namespace BlockWalk

/-- The blocks of a store, no two of one identifier. -/
structure Memory where
  /-- the blocks, the last one first -/
  blocks : List Block
  deriving DecidableEq, Repr

namespace Memory

/-- No blocks. -/
def empty : Memory := ⟨[]⟩

/-- The block of an identifier. -/
def get? (μ : Memory) (χ : Cid) : Option Block := μ.blocks.find? fun b => b.cid = χ

/-- Keeps a block, unless there is one under its identifier. -/
def put (μ : Memory) (b : Block) : Memory :=
  match μ.get? b.cid with
  | some _ => μ
  | none => ⟨b :: μ.blocks⟩

/-- Removes the block of an identifier. -/
def remove (μ : Memory) (χ : Cid) : Memory := ⟨μ.blocks.filter fun b => b.cid ≠ χ⟩

/-- The number of blocks. -/
def size (μ : Memory) : Nat := μ.blocks.length

/-- Are there no blocks? -/
def isEmpty (μ : Memory) : Bool := μ.blocks.isEmpty

/-- The blocks in the order in which they were put in. -/
def toList (μ : Memory) : List Block := μ.blocks.reverse

end Memory

/-- The store that keeps its blocks in memory. -/
def Store.memory : Store (StateM Memory) where
  get χ := fun μ => (.ok (μ.get? χ), μ)
  put b := fun μ => (.ok (), μ.put b)
  has χ := fun μ => (.ok (μ.get? χ).isSome, μ)

end BlockWalk
