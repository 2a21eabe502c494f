import BlockWalk.Proofs.DrainEnds
import BlockWalk.Proofs.Grammar
import BlockWalk.Proofs.Importing

/-!
# Imports that stop

An import may stop at any node: its value cannot be encoded, or the store refuses its block. By then
the store has taken the blocks of the first nodes in order, and no link of theirs leads to a node
that is missing, for every node that a stored node links to was stored before it.

* `DagJson.links_of_ofJsonResolving` — the links of a node are the targets of its value, resolved.
* `Description.Leads` — the two ways a target can lead to a block. When a node is encoded, all
  targets of its value lead to one (`Description.leads_of_order`).
* `Description.Stops` — the three ways the import of nodes can stop.
* `Description.LinkClosed` — stored nodes, each after those it links to.
* `Description.stored_nodes_link_closed` — however an import stops, what it has stored is so.
-/

namespace BlockWalk

/-! ## Links of a node -/

/-- What is read from parts of items is read from the items, one after the other. -/
theorem mapM_flatMap_of_mapM {ε ε' α β γ δ : Type} {f : α → Except ε β} {r : γ → Except ε' δ}
    {parts : α → List γ} {found : β → List δ} {l : List α} {bs : List β}
    (h : ∀ a ∈ l, ∀ b, f a = .ok b → (parts a).mapM r = .ok (found b))
    (hl : l.mapM f = .ok bs) : (l.flatMap parts).mapM r = .ok (bs.flatMap found) := by
  induction l generalizing bs with
  | nil =>
    obtain rfl : [] = bs := Except.ok.inj hl
    rfl
  | cons a l ih =>
    obtain ⟨ha, hrest⟩ := List.forall_mem_cons.1 h
    obtain ⟨b, bs', hb, hbs, rfl⟩ := mapM_cons_eq_ok_iff.1 hl
    rw [List.flatMap_cons, List.flatMap_cons, List.mapM_append, ha b hb, ih hrest hbs]
    rfl

namespace DagJson

/-- **The links of a node are the targets of its value, resolved**, in the same order. -/
theorem links_of_ofJsonResolving {r : String → Except DecodeError Cid} {v : Json} {node : Node}
    (h : ofJsonResolving r v = .ok node) :
    (Description.targets v).mapM r = .ok node.links := by
  induction v using Json.ind generalizing node with
  | num n =>
    have noLinks : node.links = [] := by
      rw [ofJsonResolving_num, ofNumber.eq_def] at h
      split at h
      · split at h
        · exact Except.ok.inj h ▸ by simp [Node.links]
        · cases h
      · exact Except.ok.inj h ▸ by simp [Node.links]
    rw [Description.targets_leaf rfl rfl, noLinks]
    rfl
  | arr items ih =>
    rw [ofJsonResolving_arr] at h
    obtain ⟨nodes, hn, h⟩ := bind_eq_ok_iff.1 h
    obtain rfl := Except.ok.inj h
    rw [Description.targets_arr, Node.links, ← List.flatMap_def]
    exact mapM_flatMap_of_mapM (fun v hv node => ih v hv) hn
  | obj members ih =>
    obtain ⟨target, χ, hm, hχ, rfl⟩ | ⟨inner, β, hm, hβ, rfl⟩ | ⟨entries, hm, he, rfl⟩ :=
      ofJsonResolving_obj_cases h
    · have link : linkTarget? (.obj members) = some target := by rw [linkTarget?, hm]; rfl
      rw [Description.targets_link link, Node.links, List.mapM_cons, hχ]
      rfl
    · have noLinks : (Node.bytes β).links = [] := by simp [Node.links]
      rw [Description.targets_bytes hm hβ, noLinks]
      rfl
    · have noLink : linkTarget? (.obj members) = none := by rw [linkTarget?, hm]; rfl
      rw [Description.targets_obj noLink, Node.links, ← List.flatMap_def]
      refine mapM_flatMap_of_mapM (fun e hm f hf => ?_) he
      obtain ⟨node, hn, hf⟩ := bind_eq_ok_iff.1 hf
      obtain rfl := Except.ok.inj hf
      exact ih e hm hn
  | _ =>
    simp only [ofJsonResolving_null, ofJsonResolving_bool, ofJsonResolving_str] at h
    have noLinks : node.links = [] := Except.ok.inj h ▸ by simp [Node.links]
    rw [Description.targets_leaf rfl rfl, noLinks]
    rfl

end DagJson

namespace Description

/-! ## Targets in order -/

section

variable {d : Description}

/-- What is no name of a description in order spells an identifier. -/
theorem exists_identifier_of_order {names : List String} (ho : order d = .ok names) {n : String}
    {v : Json} (hv : d.find? n = some v) {target : String} (ht : target ∈ targets v)
    (unnamed : target ∉ d.names) : ∃ χ, Cid.ofText target = .ok χ := by
  rcases order_cases d with ⟨n', t, he, -⟩ | ⟨known, -⟩
  · cases he.symm.trans ho
  · obtain ⟨⟨_, _⟩, he, rfl⟩ := Option.map_eq_some_iff.1 hv
    obtain rfl : _ = n := by simpa using List.find?_some he
    refine Classical.byContradiction fun hn => ?_
    exact known _ target ⟨_, List.mem_of_find?_eq_some he, ht, unnamed, not_exists.1 hn⟩

/-- The target of a link leads to the block `χ`, when the nodes in `before` are stored. -/
inductive Leads (d : Description) (before : List (String × Block)) (target : String) (χ : Cid) :
    Prop
  /-- it is the name of a node that is stored -/
  | inside {b : Block} (stored : (target, b) ∈ before) (same : b.cid = χ) : Leads d before target χ
  /-- it is no name, and spells an identifier -/
  | outside (unnamed : target ∉ d.names) (spells : Cid.ofText target = .ok χ) :
      Leads d before target χ

/-- **In order, every target leads to a block** when its node is encoded, and is resolved to it. -/
theorem leads_of_order {before : List (String × Block)} {later : List String} {n : String}
    {v : Json} (ho : order d = .ok (before.map Prod.fst ++ n :: later)) (hv : d.find? n = some v)
    {target : String} (ht : target ∈ targets v) :
    ∃ χ, resolve (identify [] before) target = .ok χ ∧ d.Leads before target χ := by
  have sorts := sorts_of_order ho
  by_cases name : target ∈ d.names
  · have earlier := sorts.after _ n later rfl target ⟨v, hv, ht, name⟩
    obtain ⟨⟨_, b⟩, hb, rfl⟩ := List.mem_map.1 earlier
    have found := find?_identify_of_mem [] (List.nodup_append.1 sorts.nodup).1 hb
    exact ⟨b.cid, resolve_name found, .inside hb rfl⟩
  · have unnamed : target ∉ before.map Prod.fst :=
      fun h => name ((sorts.mem_iff target).1 (List.mem_append_left _ h))
    have other : (identify [] before).find? target = none := find?_identify_of_not_mem [] unnamed
    obtain ⟨χ, hχ⟩ := exists_identifier_of_order ho hv ht name
    refine ⟨χ, ?_, .outside name hχ⟩
    rw [resolve_other other, DagJson.parseTarget, hχ]
    rfl

end

/-! ## Imports step by step -/

/-- The import is refused before any node is encoded. -/
def IsRefusal : ImportError → Prop
  | .notAnObject | .unknownTarget _ _ | .cycle _ => True
  | .codec _ | .storage _ => False

/-- What a store answers to a block that it is given. -/
abbrev PutAnswer : Type := Block × Except StorageError Unit

section

variable {codecs : Registry} {κ : Multicodec} {d : Description} {S : Type}
  {store : Store (StateM S)}

/-- The import of one node makes its block and puts it into the store; the first error ends it. -/
theorem run_importNode {cids : Fields Cid} {name : String} {v : Json} (hv : d.find? name = some v)
    (s : S) :
    (importNode store codecs κ d cids name).run.run s =
      match blockOf codecs κ cids v with
      | .error ε => (.error (.codec ε), s)
      | .ok b =>
        match (store.put b).run s with
        | (.error ε, t) => (.error (.storage ε), t)
        | (.ok (), t) => (.ok (cids.insert name b.cid), t) := by
  rw [importNode, hv]
  dsimp only
  cases blockOf codecs κ cids v with
  | error ε => rfl
  | ok b =>
    have made : (ExceptT.mk (pure ((Except.ok b : Except CodecError Block).mapError .codec)) :
        ExceptT ImportError (StateM S) Block).run.run s = (.ok b, s) := rfl
    have put : (ExceptT.mk ((fun r => r.mapError .storage) <$> store.put b) :
        ExceptT ImportError (StateM S) Unit).run.run s
          = (((store.put b).run s).1.mapError .storage, ((store.put b).run s).2) := rfl
    rw [run_bind_eq, made]
    dsimp only
    rw [run_bind_eq, put]
    rcases (store.put b).run s with ⟨ε | -, t⟩ <;> rfl

variable (codecs κ d) in
/-- How the import of the nodes `names` stops when it has stored the blocks `filed`: its result, and
the last put, if that was refused. -/
inductive Stops (cids : Fields Cid) (names : List String) (filed : List (String × Block)) :
    Except ImportError (Fields Cid) → List PutAnswer → Prop
  /-- all nodes are stored -/
  | done (all : names = filed.map Prod.fst) : Stops cids names filed (.ok (identify cids filed)) []
  /-- the next node cannot be encoded -/
  | notEncoded {n : String} {later : List String} {v : Json} {ε : CodecError}
      (next : names = filed.map Prod.fst ++ n :: later) (value : d.find? n = some v)
      (error : blockOf codecs κ (identify cids filed) v = .error ε) :
      Stops cids names filed (.error (.codec ε)) []
  /-- the store does not take the block of the next node -/
  | notPut {n : String} {later : List String} {v : Json} {b : Block} {ε : StorageError}
      (next : names = filed.map Prod.fst ++ n :: later) (value : d.find? n = some v)
      (made : blockOf codecs κ (identify cids filed) v = .ok b) :
      Stops cids names filed (.error (.storage ε)) [(b, .error ε)]

/-- After one more node, nodes stop as they do without it. -/
theorem Stops.cons {cids : Fields Cid} {name : String} {b : Block} {names : List String}
    {filed : List (String × Block)} {result : Except ImportError (Fields Cid)}
    {last : List PutAnswer}
    (h : Stops codecs κ d (cids.insert name b.cid) names filed result last) :
    Stops codecs κ d cids (name :: names) ((name, b) :: filed) result last := by
  cases h with
  | done all => exact .done (congrArg (name :: ·) all)
  | notEncoded next value error => exact .notEncoded (congrArg (name :: ·) next) value error
  | notPut next value made => exact .notPut (congrArg (name :: ·) next) value made

/-- The nodes that are stored are the first ones. -/
theorem Stops.exists_append {cids : Fields Cid} {names : List String}
    {filed : List (String × Block)} {result : Except ImportError (Fields Cid)}
    {last : List PutAnswer} (h : Stops codecs κ d cids names filed result last) :
    ∃ rest, names = filed.map Prod.fst ++ rest := by
  cases h with
  | done all => exact ⟨[], by rw [all, List.append_nil]⟩
  | notEncoded next => exact ⟨_, next⟩
  | notPut next => exact ⟨_, next⟩

/-- The import was not refused. -/
theorem Stops.not_isRefusal {cids : Fields Cid} {names : List String}
    {filed : List (String × Block)} {last : List PutAnswer} {ε : ImportError}
    (h : Stops codecs κ d cids names filed (.error ε) last) : ¬IsRefusal ε := by
  cases h <;> exact id

/-- **The import of nodes** in turn stores the first of them, each with the identifiers of those
before it, and stops in one of the three ways. A record of the puts changes nothing. -/
theorem run_importNodes (store : Store (StateM S)) (codecs : Registry) (κ : Multicodec)
    {names : List String} (hn : ∀ n ∈ names, n ∈ d.names) (cids : Fields Cid) (s : S)
    (log : List PutAnswer) :
    ∃ filed last,
      (names.foldlM (importNode store.recording codecs κ d) cids).run.run (s, log)
          = (((names.foldlM (importNode store codecs κ d) cids).run.run s).1,
            ((names.foldlM (importNode store codecs κ d) cids).run.run s).2,
            log ++ (filed.map fun e => (e.2, .ok ())) ++ last)
        ∧ Encodes codecs κ d cids filed
        ∧ Stops codecs κ d cids names filed
          ((names.foldlM (importNode store codecs κ d) cids).run.run s).1 last := by
  induction names generalizing cids s log with
  | nil =>
    refine ⟨[], [], ?_, trivial, .done rfl⟩
    rw [List.map_nil, List.append_nil, List.append_nil]
    rfl
  | cons name names ih =>
    obtain ⟨hname, hn⟩ := List.forall_mem_cons.1 hn
    obtain ⟨v, hv⟩ := Fields.exists_find?_eq_some.2 hname
    rw [List.foldlM_cons, List.foldlM_cons, run_bind_eq, run_bind_eq, run_importNode hv,
      run_importNode hv]
    cases hb : blockOf codecs κ cids v with
    | error ε =>
      refine ⟨[], [], ?_, trivial, .notEncoded rfl hv hb⟩
      rw [List.map_nil, List.append_nil, List.append_nil]
    | ok b =>
      have put : (store.recording.put b).run (s, log)
          = (((store.put b).run s).1, ((store.put b).run s).2,
            log ++ [(b, ((store.put b).run s).1)]) := rfl
      dsimp only
      rw [put]
      rcases (store.put b).run s with ⟨ε | -, t⟩
      · refine ⟨[], [(b, .error ε)], ?_, trivial, .notPut rfl hv hb⟩
        rw [List.map_nil, List.append_nil]
      · obtain ⟨filed, last, run, encodes, stops⟩ :=
          ih hn (cids.insert name b.cid) t (log ++ [(b, .ok ())])
        refine ⟨(name, b) :: filed, last, ?_, ⟨⟨v, hv, hb⟩, encodes⟩, stops.cons⟩
        have grown : log ++ ((name, b) :: filed).map (fun e => (e.2, .ok ()))
            = log ++ [(b, .ok ())] ++ filed.map fun e => (e.2, .ok ()) := List.append_cons ..
        rw [grown]
        exact run

variable (codecs κ d) in
/-- Nodes are stored one after the other, each after those it links to: its block is the encoding of
a node whose links lead to blocks that were stored before it, or out of the description. -/
def LinkClosed (filed : List (String × Block)) : Prop :=
  ∀ before n b later, filed = before ++ (n, b) :: later →
    (∀ m, d.LinksTo n m → m ∈ before.map Prod.fst)
      ∧ ∃ v node c data, d.find? n = some v ∧ codecs.get κ = .ok c ∧ c.encode node = .ok data
        ∧ b = .encoded κ data ∧ List.Forall₂ (d.Leads before) (targets v) node.links

/-- **The first nodes in order are closed under links.** -/
theorem Encodes.linkClosed {filed : List (String × Block)} {rest : List String}
    (h : Encodes codecs κ d [] filed) (ho : order d = .ok (filed.map Prod.fst ++ rest)) :
    LinkClosed codecs κ d filed := by
  rintro before n b later rfl
  rw [List.map_append, List.map_cons, List.append_assoc, List.cons_append] at ho
  obtain ⟨⟨v, hv, made⟩, -⟩ := h.of_append
  obtain ⟨node, c, data, hnode, hc, hdata, rfl⟩ := blockOf_eq_ok_iff.1 made
  refine ⟨fun m => (sorts_of_order ho).after _ n _ rfl m, v, node, c, data, hv, hc, hdata, rfl, ?_⟩
  have resolved := mapM_eq_ok_iff_forall₂.1 (DagJson.links_of_ofJsonResolving hnode)
  refine List.forall₂_iff_get.2 ⟨resolved.length_eq, fun i hi hi' => ?_⟩
  obtain ⟨χ, hχ, leads⟩ := leads_of_order ho hv (List.get_mem (targets v) ⟨i, hi⟩)
  obtain rfl := Except.ok.inj (hχ.symm.trans (resolved.get hi hi'))
  exact leads

variable (codecs κ) in
/-- What an import of `description` has put into a store, with the answers in `log`, when it ended
with `result`. -/
structure LeavesClosed (description : Json) (result : Except ImportError (Fields Cid))
    (log : List PutAnswer) : Prop where
  /-- an import that is refused puts nothing into the store -/
  refused : ∀ ε, result = .error ε → IsRefusal ε → log = []
  /-- any other has put in the first nodes in order, and then it stopped -/
  stopped : (∀ ε, result = .error ε → ¬IsRefusal ε) →
    ∃ d names filed last, description = .obj d ∧ order d = .ok names
      ∧ Stops codecs κ d [] names filed result last
      ∧ log = (filed.map fun e => (e.2, .ok ())) ++ last ∧ LinkClosed codecs κ d filed

end

/-- **An import is refused**, or its nodes are imported in order, whatever the store. -/
theorem importAll_cases (codecs : Registry) (κ : Multicodec) (description : Json) :
    (∃ ε, IsRefusal ε ∧ ∀ (S : Type) (store : Store (StateM S)) (s : S),
      (importAll store codecs κ description).run s = (.error ε, s))
      ∨ ∃ (d : Description) (names : List String), description = .obj d ∧ order d = .ok names
        ∧ d.Sorts names
        ∧ ∀ (S : Type) (store : Store (StateM S)), importAll store codecs κ description
          = (names.foldlM (importNode store codecs κ d) []).run := by
  cases description with
  | obj d =>
    simp only [importAll, Json.asMembers?]
    rcases order_cases d with ⟨n, t, ho, -⟩ | ⟨-, ⟨names, ho, sorts, -⟩ | ⟨n, ho, -⟩⟩
    · exact .inl ⟨.unknownTarget n t, trivial, fun S store s => by rw [ho]; rfl⟩
    · exact .inr ⟨d, names, rfl, ho, sorts, fun S store => by rw [ho]⟩
    · exact .inl ⟨.cycle n, trivial, fun S store s => by rw [ho]; rfl⟩
  | _ => exact .inl ⟨.notAnObject, trivial, fun S store s => rfl⟩

/-- **However an import stops, the nodes that it has stored are closed under links.** It is refused,
and puts nothing into the store. Or it puts in the blocks of the first nodes in order, until all are
stored, or one cannot be encoded, or the store does not take one. Each of these nodes has all nodes
that it links to stored before it. -/
theorem stored_nodes_link_closed {S : Type} (store : Store (StateM S)) (codecs : Registry)
    (κ : Multicodec) (description : Json) (s : S) :
    ∃ log, (importAll store.recording codecs κ description).run (s, [])
        = (((importAll store codecs κ description).run s).1,
          ((importAll store codecs κ description).run s).2, log)
      ∧ LeavesClosed codecs κ description ((importAll store codecs κ description).run s).1 log := by
  rcases importAll_cases codecs κ description with
    ⟨ε, refusal, refused⟩ | ⟨d, names, rfl, ho, sorts, nodes⟩
  · rw [refused, refused]
    exact ⟨[], rfl, fun _ _ _ => rfl, fun h => absurd refusal (h ε rfl)⟩
  · obtain ⟨filed, last, run, encodes, stops⟩ := run_importNodes store codecs κ
      (fun n hn => (sorts.mem_iff n).1 hn) [] s []
    rw [nodes, nodes]
    refine ⟨_, run, fun ε hε refusal => ?_, fun _ => ?_⟩
    · exact absurd refusal (hε ▸ stops).not_isRefusal
    · refine ⟨d, names, filed, last, rfl, ho, stops, rfl, ?_⟩
      obtain ⟨rest, rfl⟩ := stops.exists_append
      exact encodes.linkClosed ho

end Description

end BlockWalk
