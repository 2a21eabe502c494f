import BlockWalk.Description.Import
import BlockWalk.Proofs.EncodingOrder
import BlockWalk.Proofs.JsonNodes
import BlockWalk.Proofs.Stores
import Mathlib

/-!
# What an import stores

The identifier of a node depends on the identifiers of the nodes it links to, and these are known
only when their blocks are made. An import that succeeds has found identifiers for which all of this
holds at once: the block of a node is the encoding of its value in which every name is replaced by
the identifier of that name.

* `Store.Puts` — blocks that a store takes one after the other.
* `Description.Encodes` — nodes with their blocks, each made with the identifiers of those before
  it.
* `Description.importAll_eq_ok_iff` — an import succeeds if there are such blocks and the store
  takes them.
* `Description.linked` — a value with identifiers for names.
* `Description.Encodes.exists_blockOf`, `Description.Encodes.imported` — with all blocks made, each
  is the encoding of its linked value.
* `Description.import_stores_description` — what a successful import has done.
-/

namespace BlockWalk

/-! ## Putting blocks into a store -/

namespace Memory

/-- Blocks that are there already change nothing. -/
theorem foldl_put_of_forall {μ : Memory} {B : List Block}
    (h : ∀ b ∈ B, (μ.get? b.cid).isSome) : B.foldl put μ = μ := by
  induction B with
  | nil => rfl
  | cons b B ih =>
    obtain ⟨hb, hB⟩ := List.forall_mem_cons.1 h
    obtain ⟨c, hc⟩ := Option.isSome_iff_exists.1 hb
    have same : μ.put b = μ := by rw [put, hc]
    rw [List.foldl_cons, same, ih hB]

/-- Under the identifier of a block that was put in there is this block, or the one of other bytes
that was there before. -/
theorem get?_foldl_put_cons (μ : Memory) (b : Block) (B : List Block) :
    ∃ c, ((b :: B).foldl put μ).get? b.cid = some c
      ∧ (c = b ∨ c.data ≠ b.data ∧ μ.get? b.cid = some c) := by
  rw [get?_foldl_put, List.find?_cons_of_pos (by simp)]
  cases hc : μ.get? b.cid with
  | none => exact ⟨b, rfl, .inl rfl⟩
  | some c =>
    refine ⟨c, rfl, Classical.or_iff_not_imp_left.2 fun hne => ⟨fun hd => hne ?_, rfl⟩⟩
    have label : c.cid = b.cid := by simpa using List.find?_some hc
    exact congrArg₂ Block.mk label hd

/-- Blocks that were put in once change nothing when they are put in again. -/
theorem foldl_put_foldl_put (μ : Memory) (B : List Block) :
    B.foldl put (B.foldl put μ) = B.foldl put μ := by
  refine foldl_put_of_forall fun b hb => ?_
  have found : (B.find? fun c => c.cid = b.cid).isSome :=
    List.find?_isSome.2 ⟨b, hb, decide_eq_true rfl⟩
  rw [get?_foldl_put, Option.isSome_or, found, Bool.or_true]

end Memory

namespace Store

section

variable {S : Type} (store : Store (StateM S))

/-- The store takes the blocks one after the other, and comes from the state `s` to `s'` by it. -/
def Puts : List Block → S → S → Prop
  | [], s, s' => s = s'
  | b :: B, s, s' => ∃ t, (store.put b).run s = (.ok (), t) ∧ Puts B t s'

/-- A store with a record of all that was put into it, first to last, and what it answered. -/
def recording : Store (StateM (S × List (Block × Except StorageError Unit))) where
  get χ := fun (s, log) =>
    let (r, s) := (store.get χ).run s
    (r, s, log)
  put b := fun (s, log) =>
    let (r, s) := (store.put b).run s
    (r, s, log ++ [(b, r)])
  has χ := fun (s, log) =>
    let (r, s) := (store.has χ).run s
    (r, s, log)

variable {store}

/-- The record holds the blocks that were taken. -/
theorem Puts.recording {B : List Block} {s s' : S} (h : store.Puts B s s')
    (log : List (Block × Except StorageError Unit)) :
    store.recording.Puts B (s, log) (s', log ++ B.map fun b => (b, .ok ())) := by
  induction B generalizing s log with
  | nil =>
    obtain rfl : s = s' := h
    exact Prod.ext rfl (List.append_nil log).symm
  | cons b B ih =>
    obtain ⟨t, ht, rest⟩ := h
    refine ⟨(t, log ++ [(b, .ok ())]), ?_, ?_⟩
    · simp only [Store.recording, StateT.run] at ht ⊢
      rw [ht]
    · have := ih rest (log ++ [(b, .ok ())])
      rwa [List.append_assoc] at this

end

/-- A memory takes all blocks. -/
theorem puts_memory_iff {B : List Block} {μ μ' : Memory} :
    memory.Puts B μ μ' ↔ μ' = B.foldl Memory.put μ := by
  induction B generalizing μ with
  | nil => exact eq_comm
  | cons b B ih =>
    constructor
    · rintro ⟨_, ⟨⟩, rest⟩
      exact ih.1 rest
    · intro h
      exact ⟨μ.put b, rfl, ih.2 h⟩

end Store

namespace Description

/-! ## Names and identifiers -/

section

open DagJson

/-- The value in which identifiers stand for the names that links lead to. What else a link leads to
stays. -/
def linked (cids : Fields Cid) (v : Json) : Json :=
  v.replace fun w =>
    (linkTarget? w >>= fun target => cids.find? target).map fun χ => reservedForm (.str χ.toText)

theorem resolve_name {cids : Fields Cid} {target : String} {χ : Cid}
    (h : cids.find? target = some χ) : resolve cids target = .ok χ := by
  rw [resolve, h]

theorem resolve_other {cids : Fields Cid} {target : String} (h : cids.find? target = none) :
    resolve cids target = parseTarget target := by
  rw [resolve, h]

theorem targets_arr (items : List Json) : targets (.arr items) = items.flatMap targets := by
  rw [targets]
  rfl

/-- What is no list and no object has no targets. -/
theorem targets_leaf {v : Json} (noItems : v.asItems? = none) (noMembers : v.asMembers? = none) :
    targets v = [] := by
  cases v with
  | arr items => cases noItems
  | obj members => cases noMembers
  | _ => rw [targets.eq_def]; rfl

theorem targets_link {members : List (String × Json)} {target : String}
    (h : linkTarget? (.obj members) = some target) : targets (.obj members) = [target] := by
  rw [targets, h]

theorem targets_obj {members : List (String × Json)} (h : linkTarget? (.obj members) = none) :
    targets (.obj members) = members.flatMap fun e => targets e.2 := by
  rw [targets, h]

/-- A byte string has no targets. -/
theorem targets_bytes {members inner : List (String × Json)} {β : Bytes}
    (hm : reserved? members = some (.obj inner)) (hβ : bytesOf inner = .ok β) :
    targets (.obj members) = [] := by
  obtain rfl := reserved?_eq_some_iff.1 hm
  obtain ⟨s, rfl, -⟩ := bytesOf_eq_ok_iff.1 hβ
  -- neither the outer nor the inner object is a link
  rw [targets_obj rfl, List.flatMap_singleton, targets_obj rfl, List.flatMap_singleton,
    targets_leaf rfl rfl]

theorem linked_leaf (cids : Fields Cid) {v : Json} (noItems : v.asItems? = none)
    (noMembers : v.asMembers? = none) : linked cids v = v := by
  refine Json.replace_leaf ?_ noItems noMembers
  cases v with
  | obj members => cases noMembers
  | _ => rfl

theorem linked_arr (cids : Fields Cid) (items : List Json) :
    linked cids (.arr items) = .arr (items.map (linked cids)) :=
  Json.replace_arr rfl

/-- An object stays an object of the same names, unless it is a link to a name. -/
theorem linked_obj {cids : Fields Cid} {members : List (String × Json)}
    (h : (linkTarget? (.obj members) >>= fun target => cids.find? target) = none) :
    linked cids (.obj members) = .obj (members.map fun e => (e.1, linked cids e.2)) :=
  Json.replace_obj (by rw [h, Option.map_none])

/-- A link to a name becomes a link to its identifier. -/
theorem linked_link {cids : Fields Cid} {members : List (String × Json)} {target : String} {χ : Cid}
    (h : linkTarget? (.obj members) = some target) (hχ : cids.find? target = some χ) :
    linked cids (.obj members) = reservedForm (.str χ.toText) := by
  refine Json.replace_of_some ?_
  rw [h, Option.bind_eq_bind, Option.bind_some, hχ, Option.map_some]

/-- The node of a value depends only on where its links lead. -/
theorem ofJsonResolving_congr {r r' : String → Except DecodeError Cid} {v : Json}
    (h : ∀ target ∈ targets v, r target = r' target) :
    ofJsonResolving r v = ofJsonResolving r' v := by
  induction v using Json.ind with
  | arr items ih =>
    have same : items.mapM (ofJsonResolving r) = items.mapM (ofJsonResolving r') := by
      refine mapM_congr fun v hv => ih v hv fun target ht => h target ?_
      rw [targets_arr]
      exact List.mem_flatMap_of_mem hv ht
    rw [ofJsonResolving_arr, ofJsonResolving_arr, same]
  | obj members ih =>
    cases hm : reserved? members with
    | none =>
      have noLink : linkTarget? (.obj members) = none := by rw [linkTarget?, hm]; rfl
      have same : members.mapM (fun e => ofJsonResolving r e.2 >>= fun v => .ok (e.1, v))
          = members.mapM (fun e => ofJsonResolving r' e.2 >>= fun v => .ok (e.1, v)) := by
        refine mapM_congr fun e he => ?_
        rw [ih e he fun target ht => h target ?_]
        rw [targets_obj noLink]
        exact List.mem_flatMap_of_mem he ht
      rw [ofJsonResolving_map hm, ofJsonResolving_map hm, same]
    | some w =>
      cases w with
      | str target =>
        have link : linkTarget? (.obj members) = some target := by rw [linkTarget?, hm]; rfl
        have ht : target ∈ targets (.obj members) := by
          rw [targets_link link]
          exact List.mem_singleton_self target
        rw [ofJsonResolving_link hm, ofJsonResolving_link hm, h target ht]
      | obj inner => rw [ofJsonResolving_bytes hm, ofJsonResolving_bytes hm]
      | _ =>
        rw [ofJsonResolving_reserved hm nofun nofun, ofJsonResolving_reserved hm nofun nofun]
  | _ => simp

/-- **A node that is read with the identifiers of names is read from the linked value.** -/
theorem ofJson_linked {cids : Fields Cid} {v : Json} {node : Node}
    (h : ofJsonResolving (resolve cids) v = .ok node) : ofJson (linked cids v) = .ok node := by
  rw [ofJson]
  induction v using Json.ind generalizing node with
  | arr items ih =>
    rw [ofJsonResolving_arr] at h
    obtain ⟨l, hl, h⟩ := bind_eq_ok_iff.1 h
    have read : (items.map (linked cids)).mapM (ofJsonResolving parseTarget) = .ok l := by
      rw [List.mapM_map]
      exact mapM_eq_ok_mono (fun v hv node hn => ih v hv hn) hl
    rw [linked_arr, ofJsonResolving_arr, read]
    exact h
  | obj members ih =>
    obtain ⟨target, χ, hm, hχ, rfl⟩ | ⟨inner, β, hm, hβ, rfl⟩ | ⟨entries, hm, he, rfl⟩ :=
      ofJsonResolving_obj_cases h
    · have link : linkTarget? (.obj members) = some target := by rw [linkTarget?, hm]; rfl
      cases hc : cids.find? target with
      | some ψ =>
        -- the name counts, also where it spells an identifier
        obtain rfl := Except.ok.inj ((resolve_name hc).symm.trans hχ)
        have read : parseTarget ψ.toText = .ok ψ := parseTarget_eq_ok_iff.2 rfl
        rw [linked_link link hc, reservedForm, ofJsonResolving_link (reserved?_eq_some_iff.2 rfl),
          read]
        rfl
      | none =>
        rw [resolve_other hc] at hχ
        obtain rfl := reserved?_eq_some_iff.1 hm
        rw [linked_obj (by rw [link]; exact hc), List.map_singleton, linked_leaf cids rfl rfl,
          ofJsonResolving_link hm, hχ]
        rfl
    · obtain rfl := reserved?_eq_some_iff.1 hm
      obtain ⟨s, rfl, -⟩ := bytesOf_eq_ok_iff.1 hβ
      -- neither the outer nor the inner object is a link
      rw [linked_obj rfl, List.map_singleton, linked_obj rfl, List.map_singleton,
        linked_leaf cids rfl rfl, ofJsonResolving_bytes hm, hβ]
      rfl
    · have noLink : linkTarget? (.obj members) = none := by rw [linkTarget?, hm]; rfl
      have plain : reserved? (members.map fun e => (e.1, linked cids e.2)) = none := by
        rw [reserved?_eq_none_iff, List.map_map]
        exact reserved?_eq_none_iff.1 hm
      have read : (members.map fun e => (e.1, linked cids e.2)).mapM
          (fun e => ofJsonResolving parseTarget e.2 >>= fun v => .ok (e.1, v)) = .ok entries := by
        rw [List.mapM_map]
        refine mapM_eq_ok_mono (fun e he f hf => ?_) he
        obtain ⟨w, hw, hf⟩ := bind_eq_ok_iff.1 hf
        exact bind_eq_ok_iff.2 ⟨w, ih e he hw, hf⟩
      rw [linked_obj (by rw [noLink]; rfl), ofJsonResolving_map plain, read]
      rfl
  | _ =>
    rw [linked_leaf cids rfl rfl]
    simpa using h

end

/-! ## Steps with a state -/

section

variable {S ε α β : Type} {s s' : S}

/-- A chain of steps goes on with the result of its first part, if that has one. -/
theorem run_bind_eq {x : ExceptT ε (StateM S) α} {k : α → ExceptT ε (StateM S) β} :
    (x >>= k).run.run s =
      match x.run.run s with
      | (.error e, t) => (.error e, t)
      | (.ok a, t) => (k a).run.run t := by
  rw [ExceptT.run_bind, StateT.run_bind]
  rcases x.run.run s with ⟨e | a, t⟩ <;> rfl

/-- A chain of steps gives a result if its first part does and what follows does with that. -/
theorem run_bind_eq_ok_iff {x : ExceptT ε (StateM S) α} {k : α → ExceptT ε (StateM S) β} {b : β} :
    (x >>= k).run.run s = (.ok b, s')
      ↔ ∃ a t, x.run.run s = (.ok a, t) ∧ (k a).run.run t = (.ok b, s') := by
  rw [run_bind_eq]
  rcases x.run.run s with ⟨ε' | a, t⟩
  · constructor
    · intro h
      cases congrArg Prod.fst h
    · rintro ⟨a, t, h, -⟩
      cases congrArg Prod.fst h
  · constructor
    · exact fun h => ⟨a, t, rfl, h⟩
    · rintro ⟨a', t', h, hk⟩
      obtain ⟨ha, rfl⟩ := Prod.mk.inj h
      obtain rfl := Except.ok.inj ha
      exact hk

/-- A result that is there already changes no state. -/
theorem run_result_eq_ok_iff {x : Except ε α} {a : α} :
    (ExceptT.mk (pure x) : ExceptT ε (StateM S) α).run.run s = (.ok a, s') ↔ x = .ok a ∧ s = s' :=
  Prod.ext_iff

/-- Other words for an error do not change an answer. -/
theorem run_answer_eq_ok_iff {ε' : Type} {g : ε' → ε} {act : StateM S (Except ε' α)} {a : α} :
    (ExceptT.mk ((fun r => r.mapError g) <$> act) : ExceptT ε (StateM S) α).run.run s = (.ok a, s')
      ↔ act.run s = (.ok a, s') := by
  have answer : (ExceptT.mk ((fun r => r.mapError g) <$> act) : ExceptT ε (StateM S) α).run.run s
      = ((act.run s).1.mapError g, (act.run s).2) := rfl
  rw [answer, Prod.ext_iff, mapError_eq_ok_iff, Prod.ext_iff]

end

/-! ## Making the blocks -/

section

variable (codecs : Registry) (κ : Multicodec) (d : Description)

/-- The identifiers, with those of more blocks. -/
def identify (cids : Fields Cid) (filed : List (String × Block)) : Fields Cid :=
  filed.foldl (fun cids e => cids.insert e.1 e.2.cid) cids

/-- The blocks are those of the nodes of the given names. Each is made with the identifiers of the
blocks before it, and with those in `cids`. -/
def Encodes (cids : Fields Cid) : List (String × Block) → Prop
  | [] => True
  | (name, b) :: filed =>
    (∃ v, d.find? name = some v ∧ blockOf codecs κ cids v = .ok b)
      ∧ Encodes (cids.insert name b.cid) filed

variable {codecs κ d} {S : Type} {store : Store (StateM S)}

/-- **The import of one node** gives the node an identifier if it can be encoded and the store takes
its block. -/
theorem run_importNode_eq_ok_iff {cids cids' : Fields Cid} {name : String} {v : Json} {s s' : S}
    (hv : d.find? name = some v) :
    (importNode store codecs κ d cids name).run.run s = (.ok cids', s')
      ↔ ∃ b, blockOf codecs κ cids v = .ok b ∧ (store.put b).run s = (.ok (), s')
        ∧ cids' = cids.insert name b.cid := by
  simp only [importNode, hv, run_bind_eq_ok_iff, run_result_eq_ok_iff, run_answer_eq_ok_iff,
    mapError_eq_ok_iff]
  constructor
  · rintro ⟨b, _, ⟨hb, rfl⟩, ⟨⟩, u, hp, hr⟩
    obtain ⟨hc, rfl⟩ := Prod.mk.inj hr
    exact ⟨b, hb, hp, (Except.ok.inj hc).symm⟩
  · rintro ⟨b, hb, hp, rfl⟩
    exact ⟨b, s, ⟨hb, rfl⟩, (), s', hp, rfl⟩

/-- **The import of nodes** in turn gives them identifiers if all of them can be encoded and the
store takes the blocks. -/
theorem run_importNodes_eq_ok_iff {cids cids' : Fields Cid} {names : List String} {s s' : S}
    (hn : ∀ n ∈ names, n ∈ d.names) :
    (names.foldlM (importNode store codecs κ d) cids).run.run s = (.ok cids', s')
      ↔ ∃ filed, filed.map Prod.fst = names ∧ Encodes codecs κ d cids filed
        ∧ store.Puts (filed.map Prod.snd) s s' ∧ cids' = identify cids filed := by
  induction names generalizing cids s with
  | nil =>
    constructor
    · intro h
      obtain ⟨hc, rfl⟩ := Prod.mk.inj h
      exact ⟨[], rfl, trivial, rfl, (Except.ok.inj hc).symm⟩
    · rintro ⟨filed, hf, -, hp, rfl⟩
      obtain rfl := List.map_eq_nil_iff.1 hf
      obtain rfl : s = s' := hp
      rfl
  | cons name names ih =>
    obtain ⟨hname, hn⟩ := List.forall_mem_cons.1 hn
    obtain ⟨v, hv⟩ := Fields.exists_find?_eq_some.2 hname
    simp only [List.foldlM_cons, run_bind_eq_ok_iff, run_importNode_eq_ok_iff hv, ih hn]
    constructor
    · rintro ⟨_, t, ⟨b, hb, hp, rfl⟩, filed, rfl, encodes, puts, rfl⟩
      exact ⟨(name, b) :: filed, rfl, ⟨⟨v, hv, hb⟩, encodes⟩, ⟨t, hp, puts⟩, rfl⟩
    · rintro ⟨filed, hf, encodes, puts, rfl⟩
      match filed, hf, encodes, puts with
      | (_, b) :: filed, rfl, ⟨⟨w, hw, hb⟩, encodes⟩, ⟨t, hp, puts⟩ =>
        obtain rfl := Option.some.inj (hv.symm.trans hw)
        exact ⟨_, t, ⟨b, hb, hp, rfl⟩, filed, rfl, encodes, puts, rfl⟩

/-- An import succeeds if there are blocks for the names in order and the store takes them. -/
theorem importAll_eq_ok_iff {description : Json} {cids : Fields Cid} {s s' : S} :
    (importAll store codecs κ description).run s = (.ok cids, s')
      ↔ ∃ d filed, description = .obj d ∧ order d = .ok (filed.map Prod.fst)
        ∧ Encodes codecs κ d [] filed ∧ store.Puts (filed.map Prod.snd) s s'
        ∧ cids = identify [] filed := by
  cases description with
  | obj d =>
    simp only [importAll, Json.asMembers?]
    cases ho : order d with
    | error ε =>
      constructor
      · intro h
        cases congrArg Prod.fst h
      · rintro ⟨d', filed, ⟨⟩, h, -⟩
        cases ho.symm.trans h
    | ok names =>
      have named : ∀ n ∈ names, n ∈ Fields.names d :=
        fun n hn => ((sorts_of_order ho).mem_iff n).1 hn
      refine (run_importNodes_eq_ok_iff named).trans ⟨?_, ?_⟩
      · rintro ⟨filed, hf, encodes, puts, hc⟩
        exact ⟨d, filed, rfl, ho.trans (congrArg _ hf.symm), encodes, puts, hc⟩
      · rintro ⟨d', filed, ⟨⟩, h, encodes, puts, hc⟩
        exact ⟨filed, Except.ok.inj (h.symm.trans ho), encodes, puts, hc⟩
  | _ =>
    constructor
    · intro h
      cases congrArg Prod.fst h
    · rintro ⟨d, filed, ⟨⟩, -⟩

/-- A memory that a description is imported into takes the blocks of its names. -/
theorem importAll_memory_iff {cids : Fields Cid} {μ μ' : Memory} :
    (importAll .memory codecs κ (.obj d)).run μ = (.ok cids, μ')
      ↔ ∃ filed, d.order = .ok (filed.map Prod.fst) ∧ Encodes codecs κ d [] filed
        ∧ cids = identify [] filed ∧ μ' = (filed.map Prod.snd).foldl Memory.put μ := by
  rw [importAll_eq_ok_iff]
  constructor
  · rintro ⟨_, filed, ⟨⟩, ho, encodes, puts, hc⟩
    exact ⟨filed, ho, encodes, hc, Store.puts_memory_iff.1 puts⟩
  · rintro ⟨filed, ho, encodes, hc, hμ⟩
    exact ⟨d, filed, rfl, ho, encodes, Store.puts_memory_iff.2 hμ, hc⟩

/-! ## All blocks together -/

theorem identify_append (cids : Fields Cid) (before filed : List (String × Block)) :
    identify cids (before ++ filed) = identify (identify cids before) filed :=
  List.foldl_append

theorem Encodes.of_append {cids : Fields Cid} {before filed : List (String × Block)}
    (h : Encodes codecs κ d cids (before ++ filed)) :
    Encodes codecs κ d (identify cids before) filed := by
  induction before generalizing cids with
  | nil => exact h
  | cons e before ih => exact ih h.2

/-- What has no new block keeps its identifier. -/
theorem find?_identify_of_not_mem (cids : Fields Cid) {filed : List (String × Block)} {n : String}
    (h : n ∉ filed.map Prod.fst) : (identify cids filed).find? n = cids.find? n := by
  induction filed generalizing cids with
  | nil => rfl
  | cons e filed ih =>
    obtain ⟨he, hf⟩ := not_or.1 (List.mem_cons.not.1 h)
    rw [identify, List.foldl_cons, ← identify, ih _ hf, Fields.find?_insert, if_neg (Ne.symm he)]

/-- A name has the identifier of its block. -/
theorem find?_identify_of_mem (cids : Fields Cid) {filed : List (String × Block)} {n : String}
    {b : Block} (nodup : (filed.map Prod.fst).Nodup) (h : (n, b) ∈ filed) :
    (identify cids filed).find? n = some b.cid := by
  obtain ⟨before, later, rfl⟩ := List.append_of_mem h
  rw [List.map_append, List.map_cons] at nodup
  have once : n ∉ later.map Prod.fst := (List.nodup_cons.1 (List.nodup_append.1 nodup).2.1).1
  rw [identify_append, identify, List.foldl_cons, ← identify, find?_identify_of_not_mem _ once,
    Fields.find?_insert, if_pos rfl]

theorem sorted_identify {cids : Fields Cid} (h : cids.Sorted) (filed : List (String × Block)) :
    (identify cids filed).Sorted := by
  induction filed generalizing cids with
  | nil => exact h
  | cons e filed ih => exact ih (h.insert e.1 e.2.cid)

theorem blockOf_eq_ok_iff {cids : Fields Cid} {v : Json} {b : Block} :
    blockOf codecs κ cids v = .ok b
      ↔ ∃ node c data, DagJson.ofJsonResolving (resolve cids) v = .ok node
        ∧ codecs.get κ = .ok c ∧ c.encode node = .ok data ∧ b = .encoded κ data := by
  rw [blockOf]
  cases DagJson.ofJsonResolving (resolve cids) v with
  | error ε => exact ⟨nofun, nofun⟩
  | ok node =>
    simp only [Registry.encode, bind_eq_ok_iff, mapError_eq_ok_iff]
    constructor
    · rintro ⟨c, hc, data, hdata, hb⟩
      exact ⟨node, c, data, rfl, hc, hdata, (Except.ok.inj hb).symm⟩
    · rintro ⟨_, c, data, ⟨⟩, hc, hdata, rfl⟩
      exact ⟨c, hc, data, hdata, rfl⟩

/-- The block of a node depends only on the identifiers of the names that it links to. -/
theorem blockOf_congr {cids cids' : Fields Cid} {v : Json}
    (h : ∀ target ∈ targets v, cids.find? target = cids'.find? target) :
    blockOf codecs κ cids v = blockOf codecs κ cids' v := by
  have same : DagJson.ofJsonResolving (resolve cids) v
      = DagJson.ofJsonResolving (resolve cids') v :=
    ofJsonResolving_congr fun target ht => by rw [resolve, resolve, h target ht]
  rw [blockOf, blockOf, same]

/-- **With all identifiers known, the blocks are the same.** What a node links to comes before it,
so its identifiers were known when the block of the node was made. -/
theorem Encodes.exists_blockOf {filed : List (String × Block)} (h : Encodes codecs κ d [] filed)
    (sorts : d.Sorts (filed.map Prod.fst)) {n : String} {b : Block} (hb : (n, b) ∈ filed) :
    ∃ v, d.find? n = some v ∧ blockOf codecs κ (identify [] filed) v = .ok b := by
  obtain ⟨before, later, rfl⟩ := List.append_of_mem hb
  obtain ⟨⟨v, hv, made⟩, -⟩ := h.of_append
  have hs : (before ++ (n, b) :: later).map Prod.fst
      = before.map Prod.fst ++ n :: later.map Prod.fst := List.map_append
  refine ⟨v, hv, made ▸ blockOf_congr fun target ht => ?_⟩
  -- a name from here on would be linked to, and so come before
  have hn : target ∉ ((n, b) :: later).map Prod.fst := by
    intro hl
    have name : target ∈ d.names := (sorts.mem_iff target).1 (hs ▸ List.mem_append_right _ hl)
    have earlier := sorts.after _ _ _ hs target ⟨v, hv, ht, name⟩
    exact (List.nodup_append.1 (hs ▸ sorts.nodup)).2.2 _ earlier _ hl rfl
  rw [identify_append, find?_identify_of_not_mem _ hn]

variable (codecs κ d) in
/-- What has been imported: the names of a description have the identifiers `cids`, and with their
blocks in the order of encoding they are `filed`. -/
structure Imported (cids : Fields Cid) (filed : List (String × Block)) : Prop where
  /-- no name has two identifiers -/
  sorted : cids.Sorted
  /-- the names of the description have identifiers, and no others have -/
  named : ∀ n, n ∈ cids.names ↔ n ∈ d.names
  /-- no name has two blocks -/
  nodup : (filed.map Prod.fst).Nodup
  /-- the names of the description have blocks, and no others have -/
  mem_iff : ∀ n, n ∈ filed.map Prod.fst ↔ n ∈ d.names
  /-- a block is the encoding of the value in which identifiers stand for names, and the identifier
  of its name is its hash -/
  encoded : ∀ n b, (n, b) ∈ filed → ∃ v node c data, d.find? n = some v
    ∧ DagJson.ofJson (linked cids v) = .ok node ∧ codecs.get κ = .ok c
    ∧ c.encode node = .ok data ∧ b = .encoded κ data ∧ cids.find? n = some (.hash κ data)

/-- With all blocks made, each is the encoding of its linked value. -/
theorem Encodes.imported {filed : List (String × Block)} (h : Encodes codecs κ d [] filed)
    (sorts : d.Sorts (filed.map Prod.fst)) : Imported codecs κ d (identify [] filed) filed := by
  refine ⟨sorted_identify .nil filed, fun n => ?_, sorts.nodup, sorts.mem_iff, fun n b hb => ?_⟩
  · rw [← sorts.mem_iff, ← Fields.exists_find?_eq_some]
    constructor
    · rintro ⟨χ, hχ⟩
      refine Classical.byContradiction fun hn => ?_
      rw [find?_identify_of_not_mem _ hn] at hχ
      cases hχ
    · intro hn
      obtain ⟨⟨_, b⟩, hb, rfl⟩ := List.mem_map.1 hn
      exact ⟨b.cid, find?_identify_of_mem _ sorts.nodup hb⟩
  · obtain ⟨v, hv, made⟩ := h.exists_blockOf sorts hb
    obtain ⟨node, c, data, hnode, hc, hdata, rfl⟩ := blockOf_eq_ok_iff.1 made
    exact ⟨v, node, c, data, hv, ofJson_linked hnode, hc, hdata, rfl,
      find?_identify_of_mem [] sorts.nodup hb⟩

end

/-! ## Imports -/

/-- **A successful import stores the description.** Every name of the description has one
identifier, which is the hash of the encoding of its value with identifiers for names. Of the store
nothing is asked but to put in the block of every name, once. A memory then has a block under the
identifier of every name. It is the one that was made, unless there was one of other bytes when that
was put in. A second import into this memory gives the same identifiers and changes nothing. -/
theorem import_stores_description {S : Type} (store : Store (StateM S)) (codecs : Registry)
    (κ : Multicodec) (description : Json) {cids : Fields Cid} {s s' : S}
    (h : (importAll store codecs κ description).run s = (.ok cids, s')) :
    ∃ d filed, description = .obj d ∧ Imported codecs κ d cids filed
      ∧ (importAll store.recording codecs κ description).run (s, [])
        = (.ok cids, s', filed.map fun e => (e.2, .ok ()))
      ∧ ∀ μ : Memory, ∃ μ', (importAll .memory codecs κ description).run μ = (.ok cids, μ')
        ∧ (∀ before n b later, filed = before ++ (n, b) :: later →
          ∃ c, μ'.get? b.cid = some c
            ∧ (c = b ∨ c.data ≠ b.data
              ∧ ((before.map Prod.snd).foldl Memory.put μ).get? b.cid = some c))
        ∧ (importAll .memory codecs κ description).run μ' = (.ok cids, μ') := by
  obtain ⟨d, filed, rfl, ho, encodes, puts, rfl⟩ := importAll_eq_ok_iff.1 h
  refine ⟨d, filed, rfl, encodes.imported (sorts_of_order ho), ?_, fun μ => ?_⟩
  · refine importAll_eq_ok_iff.2 ⟨d, filed, rfl, ho, encodes, ?_, rfl⟩
    simpa [Function.comp_def] using puts.recording []
  · have import_memory (μ : Memory) : (importAll .memory codecs κ (.obj d)).run μ
        = (.ok (identify [] filed), (filed.map Prod.snd).foldl Memory.put μ) :=
      importAll_memory_iff.2 ⟨filed, ho, encodes, rfl, rfl⟩
    refine ⟨_, import_memory μ, ?_, ?_⟩
    · rintro before n b later rfl
      rw [List.map_append, List.map_cons, List.foldl_append]
      exact Memory.get?_foldl_put_cons _ b (later.map Prod.snd)
    · rw [import_memory, Memory.foldl_put_foldl_put]

end Description

/-! ## A list with one link, described -/

namespace OneLink

/-- A node `a`, a list with a link to a node `b`. -/
def description : Description :=
  [("a", .arr [DagJson.reservedForm (.str "b")]), ("b", .null)]

/-- The node `b` comes first. -/
theorem order_description : description.order = .ok ["b", "a"] := by
  have openA : Sorting.visit description ⟨[], [], []⟩ ⟨"a", false⟩
      = .ok ⟨[("a", .visiting)], [], [⟨"b", false⟩, ⟨"a", true⟩]⟩ := by cbv
  have openB : Sorting.visit description ⟨[("a", .visiting)], [], [⟨"a", true⟩]⟩ ⟨"b", false⟩
      = .ok ⟨[("a", .visiting), ("b", .visiting)], [], [⟨"b", true⟩, ⟨"a", true⟩]⟩ := by cbv
  have closeB : Sorting.visit description
        ⟨[("a", .visiting), ("b", .visiting)], [], [⟨"a", true⟩]⟩ ⟨"b", true⟩
      = .ok ⟨[("a", .visiting), ("b", .done)], ["b"], [⟨"a", true⟩]⟩ := by cbv
  have closeA : Sorting.visit description ⟨[("a", .visiting), ("b", .done)], ["b"], []⟩ ⟨"a", true⟩
      = .ok ⟨[("a", .done), ("b", .done)], ["a", "b"], []⟩ := by cbv
  have skipB : Sorting.visit description ⟨[("a", .done), ("b", .done)], ["a", "b"], []⟩ ⟨"b", false⟩
      = .ok ⟨[("a", .done), ("b", .done)], ["a", "b"], []⟩ := by cbv
  have fromA : Sorting.start description .empty "a"
      = .ok ⟨[("a", .done), ("b", .done)], ["a", "b"], []⟩ := by
    rw [Sorting.start, Sorting.empty, Sorting.run_of_visit openA, Sorting.run_of_visit openB,
      Sorting.run_of_visit closeB, Sorting.run_of_visit closeA, Sorting.run_nil]
  have fromB : Sorting.start description ⟨[("a", .done), ("b", .done)], ["a", "b"], []⟩ "b"
      = .ok ⟨[("a", .done), ("b", .done)], ["a", "b"], []⟩ := by
    rw [Sorting.start, Sorting.run_of_visit skipB, Sorting.run_nil]
  have known : description.unknownTarget? = none := by cbv
  have names : description.names = ["a", "b"] := rfl
  have sorted : ["a", "b"].foldlM (Sorting.start description) .empty
      = .ok ⟨[("a", .done), ("b", .done)], ["a", "b"], []⟩ :=
    bind_eq_ok_iff.2 ⟨_, fromA, bind_eq_ok_iff.2 ⟨_, fromB, rfl⟩⟩
  rw [Description.order, known, names, sorted]
  rfl

/-- The blocks of both nodes, whatever they are written with. -/
theorem encodes_description {codecs : Registry} {κ : Multicodec} {c : Codec} {data data' : Bytes}
    (hc : codecs.get κ = .ok c) (h : c.encode .null = .ok data)
    (h' : c.encode (.list [.link (.hash κ data)]) = .ok data') :
    Description.Encodes codecs κ description []
      [("b", .encoded κ data), ("a", .encoded κ data')] := by
  have inner (r : String → Except DecodeError Cid) :
      DagJson.ofJsonResolving r .null = .ok .null := by
    simp
  have outer : DagJson.ofJsonResolving (Description.resolve [("b", .hash κ data)])
      (.arr [DagJson.reservedForm (.str "b")]) = .ok (.list [.link (.hash κ data)]) := by
    rw [DagJson.ofJsonResolving_arr, List.mapM_cons, DagJson.reservedForm,
      DagJson.ofJsonResolving_link rfl]
    rfl
  refine ⟨⟨.null, rfl, ?_⟩, ⟨_, rfl, ?_⟩, trivial⟩
  · exact Description.blockOf_eq_ok_iff.2 ⟨_, c, data, inner _, hc, h, rfl⟩
  · exact Description.blockOf_eq_ok_iff.2 ⟨_, c, data', outer, hc, h', rfl⟩

/-- The list is imported into an empty memory. -/
theorem import_stores_oneLink :
    ∃ cids μ, (Description.importAll .memory ⟨[.dagJson]⟩ .dagJson (.obj description)).run .empty
        = (.ok cids, μ)
      ∧ ∃ d filed, Json.obj description = .obj d
        ∧ Description.Imported ⟨[.dagJson]⟩ .dagJson d cids filed := by
  have inner : Codec.dagJson.encode .null = .ok (Json.toBytes .null) := by
    simp only [Codec.dagJson, DagJson.encode, DagJson.toJson]
    rfl
  have outer (χ : Cid) : Codec.dagJson.encode (.list [.link χ])
      = .ok (Json.toBytes (.arr [DagJson.reservedForm (.str χ.toText)])) := by
    simp only [Codec.dagJson, DagJson.encode, DagJson.toJson_list, List.mapM_cons, List.mapM_nil,
      DagJson.toJson]
    rfl
  have known : Registry.get ⟨[.dagJson]⟩ .dagJson = .ok Codec.dagJson := rfl
  have filed := encodes_description known inner (outer _)
  have imported :
      (Description.importAll .memory ⟨[.dagJson]⟩ .dagJson (.obj description)).run .empty = _ :=
    Description.importAll_memory_iff.2
      ⟨[("b", _), ("a", _)], order_description, filed, rfl, rfl⟩
  obtain ⟨d, filed, hd, h, -⟩ := Description.import_stores_description .memory _ _ _ imported
  exact ⟨_, _, imported, d, filed, hd, h⟩

end OneLink

end BlockWalk
