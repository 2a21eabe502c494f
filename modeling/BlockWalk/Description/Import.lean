import BlockWalk.Description.Order

/-!
# Importing a description

The nodes of a description are encoded one after the other and put into a store, each after those it
links to. So every link to a name can be resolved when it is met, and at no time does the store hold
a node whose links into the description lead nowhere.
-/

namespace BlockWalk.Description

/-- The identifier of a link target: of the node of that name, or the one that it spells. -/
def resolve (cids : Fields Cid) (target : String) : Except DecodeError Cid :=
  match cids.find? target with
  | some χ => .ok χ
  | none => DagJson.parseTarget target

/-- The block of a node, when those that it links to have the identifiers `cids`. -/
def blockOf (codecs : Registry) (κ : Multicodec) (cids : Fields Cid) (v : Json) :
    Except CodecError Block :=
  match DagJson.ofJsonResolving (resolve cids) v with
  | .ok node => codecs.encode κ node
  | .error ε => .error (.decode ε)

section

variable {m : Type → Type} [Monad m] (store : Store m) (codecs : Registry) (κ : Multicodec)

/-- Imports one node, when those that it links to have the identifiers `cids`. -/
def importNode (d : Description) (cids : Fields Cid) (name : String) :
    ExceptT ImportError m (Fields Cid) :=
  match d.find? name with
  | none => return cids
  | some v => do
    let b ← ExceptT.mk (pure ((blockOf codecs κ cids v).mapError .codec))
    ExceptT.mk ((fun r => r.mapError .storage) <$> store.put b)
    return cids.insert name b.cid

/-- Imports the nodes of a description with one codec, and gives their identifiers. -/
def importAll (description : Json) : m (Except ImportError (Fields Cid)) :=
  match description.asMembers? with
  | none => return .error .notAnObject
  | some d =>
    match order d with
    | .error ε => return .error ε
    | .ok names => (names.foldlM (importNode store codecs κ d) []).run

end

end BlockWalk.Description
