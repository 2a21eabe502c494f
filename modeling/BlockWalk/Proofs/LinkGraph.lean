import BlockWalk.Proofs.DrainEnds
import Mathlib.Data.FinEnum
import Mathlib.Data.Set.Card
import Mathlib.Data.Set.Finite.List
import Mathlib.Logic.Relation

/-!
# The graph of blocks

The blocks of a store are a graph: one links to another if the identifier of the other is somewhere
in its root. `Intact` says of what can be reached from a block that it is all there, that no block
is nothing but a link, and that no block leads back to itself.

There are only finitely many identifiers, so a graph without circles has ranks: every link leads to
an identifier of a lower rank (`Intact.exists_rank`).
-/

namespace BlockWalk

/-! ## Identifiers are finitely many -/

instance : Finite Multicodec :=
  .of_injective Multicodec.code fun κ μ h => by
    cases κ
    cases μ
    exact congrArg Multicodec.mk h

instance : Finite Digest :=
  have : Finite {β : Bytes | β.length = 32} := List.finite_length_eq UInt8 32
  .of_injective (fun δ : Digest => (⟨δ.bytes, δ.length_bytes⟩ : {β : Bytes | β.length = 32}))
    fun δ ε h => by
      cases δ
      cases ε
      exact (Digest.mk.injEq ..).mpr (congrArg Subtype.val h)

instance : Finite Cid :=
  .of_injective (fun χ : Cid => (χ.codec, χ.digest)) fun χ ψ h => by
    cases χ
    cases ψ
    exact (Cid.mk.injEq ..).mpr (Prod.mk.inj h)

/-! ## Links between blocks -/

open Traversal Relation

variable (codecs : Registry) (f : BlockReader Id)

/-- The block of `χ` has a link to `ψ` in its root. -/
def LinksTo (χ ψ : Cid) : Prop := ∃ v, RootOf codecs f χ v ∧ ψ ∈ v.links

/-- Links lead from `χ` to `ψ`, in any number. -/
def Reaches : Cid → Cid → Prop := ReflTransGen (LinksTo codecs f)

/-- What can be reached from a block is all there and leads in no circle. -/
structure Intact (root : Cid) : Prop where
  /-- every block is in the store and can be decoded -/
  present : ∀ χ, Reaches codecs f root χ → ∃ v, RootOf codecs f χ v
  /-- no block is just a link -/
  plain : ∀ χ v, Reaches codecs f root χ → RootOf codecs f χ v → v.asLink? = none
  /-- no block leads to itself -/
  acyclic : ∀ χ, Reaches codecs f root χ → ¬ TransGen (LinksTo codecs f) χ χ

variable {codecs f} {root : Cid}

/-- A block has one root. -/
theorem Traversal.RootOf.unique {χ : Cid} {v w : Node} (hv : RootOf codecs f χ v)
    (hw : RootOf codecs f χ w) : v = w := by
  obtain ⟨b, hb, hv⟩ := hv
  obtain ⟨c, hc, hw⟩ := hw
  obtain rfl : b = c := Option.some.inj (Except.ok.inj (hb.symm.trans hc))
  exact Except.ok.inj (hv.symm.trans hw)

/-- What a block that can be reached links to can be reached. -/
theorem Reaches.link {χ ψ : Cid} {v : Node} (h : Reaches codecs f root χ)
    (hv : RootOf codecs f χ v) (hψ : ψ ∈ v.links) : Reaches codecs f root ψ :=
  h.tail ⟨v, hv, hψ⟩

/-- **Where no block leads to itself, links lead to lower ranks**: the rank of a block is the number
of blocks that links lead to from it. -/
theorem Intact.exists_rank (h : Intact codecs f root) :
    ∃ rank : Cid → Nat, ∀ χ v, Reaches codecs f root χ → RootOf codecs f χ v →
      ∀ ψ ∈ v.links, rank ψ < rank χ := by
  refine ⟨fun χ => Set.ncard {ψ | TransGen (LinksTo codecs f) χ ψ}, fun χ v hχ hv ψ hψ => ?_⟩
  have step : LinksTo codecs f χ ψ := ⟨v, hv, hψ⟩
  refine Set.ncard_lt_ncard ⟨fun ω hω => TransGen.head step hω, fun back => ?_⟩ (Set.toFinite _)
  -- `ψ` itself is missing behind `ψ`
  exact h.acyclic ψ (hχ.link hv hψ) (back (TransGen.single step))

end BlockWalk
