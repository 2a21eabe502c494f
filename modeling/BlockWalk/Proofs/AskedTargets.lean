import BlockWalk.Proofs.LinkClosure

/-!
# What a reader asks for

The links of a description are walked twice. The sort gathers their targets (`Description.targets`),
and later the reader of each node hands targets to a resolver (`DagJson.ofJsonWith`). The two walks
are written apart, and treat what is reserved in different ways: of an object that holds something
else than a link or a byte string the reader makes an error, while the sort goes on inside it.

* `DagJson.listing` — a resolver with a list of what it was asked for.
* `DagJson.asks_ofJsonWith` — the list is a first part of what is gathered, and all of it if the
  reading succeeds.
* `DagJson.exists_target_of_link_error` — only the resolver says that a link leads nowhere.
* `Description.asked_is_gathered` — with what is known of targets in order: an import never asks for
  a target in vain.
-/

namespace BlockWalk

namespace DagJson

/-! ## Readings that list what they ask for -/

section

variable {σ α β : Type}

/-- A resolver with a list of what it was asked for, first to last. -/
def listing (resolve : String → Reading σ Cid) (target : String) :
    Reading (σ × List String) Cid :=
  ExceptT.mk fun (s, asked) =>
    let (r, s) := (resolve target).run.run s
    (r, s, asked ++ [target])

/-- The first reading is the second with a list of what it asks for: a first part of `targets`, and
all of them if it succeeds. -/
def Asks (x : Reading (σ × List String) α) (y : Reading σ α) (targets : List String) : Prop :=
  ∀ s before, ∃ asked,
    x.run.run (s, before) = ((y.run.run s).1, (y.run.run s).2, before ++ asked)
      ∧ asked <+: targets ∧ ∀ a, (y.run.run s).1 = .ok a → asked = targets

/-- What is there already is had without asking. If it is an error, there may be targets that are
never asked for. -/
theorem asks_nothing {r : Except DecodeError α} {targets : List String}
    (h : ∀ a, r = .ok a → targets = []) :
    Asks (ExceptT.mk (pure r) : Reading (σ × List String) α) (ExceptT.mk (pure r)) targets := by
  refine fun _ before => ⟨[], ?_, List.nil_prefix, fun a ha => (h a ha).symm⟩
  rw [List.append_nil]
  rfl

/-- The resolver is asked for a target, whatever it answers. -/
theorem asks_listing (resolve : String → Reading σ Cid) (target : String) :
    Asks (listing resolve target) (resolve target) [target] :=
  fun _ _ => ⟨[target], rfl, List.prefix_rfl, fun _ _ => rfl⟩

/-- Two readings, one after the other, ask for the targets of both, one after the other. -/
theorem Asks.bind {x : Reading (σ × List String) α} {y : Reading σ α}
    {k : α → Reading (σ × List String) β} {l : α → Reading σ β} {first later : List String}
    (h : Asks x y first) (hk : ∀ a, Asks (k a) (l a) later) :
    Asks (x >>= k) (y >>= l) (first ++ later) := by
  intro s before
  obtain ⟨asked, run, part, all⟩ := h s before
  rw [Description.run_bind_eq, Description.run_bind_eq, run]
  rcases hy : y.run.run s with ⟨ε | a, t⟩
  · exact ⟨asked, rfl, part.trans (List.prefix_append _ _), nofun⟩
  · obtain rfl := all a (by rw [hy])
    obtain ⟨asked', run', part', all'⟩ := hk a t (before ++ asked)
    refine ⟨asked ++ asked', ?_, List.prefix_append_right_inj asked |>.2 part', fun b hb => ?_⟩
    · rw [← List.append_assoc]
      exact run'
    · rw [all' b hb]

/-- Something is made of what is read. -/
theorem Asks.pure_bind {x : Reading (σ × List String) α} {y : Reading σ α} {targets : List String}
    (h : Asks x y targets) (f : α → β) :
    Asks (x >>= fun a => pure (f a)) (y >>= fun a => pure (f a)) targets := by
  have := h.bind fun a => asks_nothing (r := .ok (f a)) fun _ _ => rfl
  rwa [List.append_nil] at this

/-- Items that are read in turn ask for the targets of each. -/
theorem asks_mapM {k : α → Reading (σ × List String) β} {l : α → Reading σ β}
    {targets : α → List String} {items : List α} (h : ∀ a ∈ items, Asks (k a) (l a) (targets a)) :
    Asks (items.mapM k) (items.mapM l) (items.flatMap targets) := by
  induction items with
  | nil => exact asks_nothing fun _ _ => rfl
  | cons a items ih =>
    obtain ⟨ha, hi⟩ := List.forall_mem_cons.1 h
    rw [List.mapM_cons, List.mapM_cons, List.flatMap_cons]
    exact ha.bind fun b => (ih hi).pure_bind (b :: ·)

end

open Description in
/-- **The reader asks for the targets of links as they are gathered**, from left to right. -/
theorem asks_ofJsonWith {σ : Type} (resolve : String → Reading σ Cid) (v : Json) :
    Asks (ofJsonWith (listing resolve) v) (ofJsonWith resolve v) (targets v) := by
  induction v using Json.ind with
  | arr items ih =>
    rw [ofJsonWith, ofJsonWith, targets_arr]
    exact (asks_mapM ih).pure_bind Node.list
  | obj members ih =>
    rw [ofJsonWith, ofJsonWith]
    cases hm : reserved? members with
    | none =>
      have noLink : linkTarget? (.obj members) = none := by rw [linkTarget?, hm]; rfl
      rw [targets_obj noLink]
      exact (asks_mapM fun e he => (ih e he).pure_bind (Prod.mk e.1)).pure_bind Node.map
    | some w =>
      cases w with
      | str target =>
        have link : linkTarget? (.obj members) = some target := by rw [linkTarget?, hm]; rfl
        rw [targets_link link]
        exact (asks_listing resolve target).pure_bind Node.link
      | obj inner =>
        exact (asks_nothing fun β hβ => targets_bytes hm hβ).pure_bind Node.bytes
      | _ =>
        refine asks_nothing ?_
        rintro _ ⟨⟩
  | _ =>
    rw [ofJsonWith, ofJsonWith, targets_leaf rfl rfl]
    exact asks_nothing fun _ _ => rfl

/-! ## Errors of a reading -/

theorem bytesOf_ne_link (members : List (String × Json)) {target : String} {ε : Cid.Error} :
    bytesOf members ≠ .error (.link target ε) := by
  intro h
  unfold bytesOf at h
  split at h
  · split at h
    · obtain ⟨e, -, ⟨⟩⟩ := mapError_eq_error_iff.1 h
    · cases h
  · cases h

/-- That a link cannot be resolved is said by the resolver only, of one of the targets. -/
theorem exists_target_of_link_error {r : String → Except DecodeError Cid} {v : Json}
    {target : String} {ε : Cid.Error} (h : ofJsonResolving r v = .error (.link target ε)) :
    ∃ t ∈ Description.targets v, r t = .error (.link target ε) := by
  induction v using Json.ind with
  | num n =>
    rw [ofJsonResolving_num, ofNumber.eq_def] at h
    split at h
    · split at h <;> cases h
    · cases h
  | arr items ih =>
    rw [ofJsonResolving_arr] at h
    obtain h | ⟨l, -, ⟨⟩⟩ := bind_eq_error_iff.1 h
    obtain ⟨w, hw, h⟩ := exists_of_mapM_error h
    obtain ⟨t, ht, hr⟩ := ih w hw h
    rw [Description.targets_arr]
    exact ⟨t, List.mem_flatMap_of_mem hw ht, hr⟩
  | obj members ih =>
    cases hm : reserved? members with
    | none =>
      have noLink : linkTarget? (.obj members) = none := by rw [linkTarget?, hm]; rfl
      rw [ofJsonResolving_map hm] at h
      obtain h | ⟨l, -, ⟨⟩⟩ := bind_eq_error_iff.1 h
      obtain ⟨e, he, h⟩ := exists_of_mapM_error h
      obtain h | ⟨l, -, ⟨⟩⟩ := bind_eq_error_iff.1 h
      obtain ⟨t, ht, hr⟩ := ih e he h
      rw [Description.targets_obj noLink]
      exact ⟨t, List.mem_flatMap_of_mem he ht, hr⟩
    | some w =>
      cases w with
      | str s =>
        have link : linkTarget? (.obj members) = some s := by rw [linkTarget?, hm]; rfl
        rw [ofJsonResolving_link hm] at h
        obtain h | ⟨l, -, ⟨⟩⟩ := bind_eq_error_iff.1 h
        rw [Description.targets_link link]
        exact ⟨s, List.mem_singleton_self s, h⟩
      | obj inner =>
        rw [ofJsonResolving_bytes hm] at h
        obtain h | ⟨l, -, ⟨⟩⟩ := bind_eq_error_iff.1 h
        exact absurd h (bytesOf_ne_link inner)
      | _ =>
        rw [ofJsonResolving_reserved hm (by rintro _ ⟨⟩) (by rintro _ ⟨⟩)] at h
        cases h
  | _ => simp at h

/-- The targets that the reader asks for, when it hands them to a resolver without a state. -/
def askedBy (resolve : String → Except DecodeError Cid) (v : Json) : List String :=
  let answer (target : String) : Reading Unit Cid := ExceptT.mk (pure (resolve target))
  ((ofJsonWith (listing answer) v).run.run ((), [])).2.2

/-- What is asked for is gathered. -/
theorem askedBy_prefix (resolve : String → Except DecodeError Cid) (v : Json) :
    askedBy resolve v <+: Description.targets v := by
  obtain ⟨asked, run, part, -⟩ :=
    asks_ofJsonWith (fun target => ExceptT.mk (pure (resolve target))) v () []
  rw [askedBy, run]
  exact part

/-- In a link that is held where bytes should be, there is a target that is never asked for. -/
example : Description.targets (reservedForm (reservedForm (.str "a"))) = ["a"]
    ∧ askedBy parseTarget (reservedForm (reservedForm (.str "a"))) = [] := by
  constructor <;> cbv

end DagJson

/-! ## Imports -/

/-- What encodes a node reports no error of reading. -/
theorem Registry.encode_ne_decode (codecs : Registry) (κ : Multicodec) (node : Node)
    (ε : DecodeError) : codecs.encode κ node ≠ .error (.decode ε) := by
  intro h
  rw [Registry.encode] at h
  obtain h | ⟨c, -, h⟩ := bind_eq_error_iff.1 h
  · rw [Registry.get] at h
    split at h <;> cases h
  · obtain h | ⟨data, -, ⟨⟩⟩ := bind_eq_error_iff.1 h
    obtain ⟨e, -, ⟨⟩⟩ := mapError_eq_error_iff.1 h

namespace Description

/-- A node whose targets are all resolved does not fail for a link. -/
theorem blockOf_ne_link {codecs : Registry} {κ : Multicodec} {cids : Fields Cid} {v : Json}
    (h : ∀ target ∈ targets v, ∃ χ, resolve cids target = .ok χ) {target : String}
    {ε : Cid.Error} :
    blockOf codecs κ cids v ≠ .error (.decode (.link target ε)) := by
  intro error
  rw [blockOf] at error
  cases hnode : DagJson.ofJsonResolving (resolve cids) v with
  | error e =>
    rw [hnode] at error
    obtain rfl := CodecError.decode.inj (Except.error.inj error)
    obtain ⟨t, ht, unresolved⟩ := DagJson.exists_target_of_link_error hnode
    obtain ⟨χ, hχ⟩ := h t ht
    cases hχ.symm.trans unresolved
  | ok node =>
    rw [hnode] at error
    exact codecs.encode_ne_decode κ node _ error

/-- **The targets of links are asked for as they are gathered.** The reader hands targets to its
resolver in the order in which they are gathered, and all of them unless it fails, whatever the
resolver answers and whatever state it keeps. So an import of a description in order never asks for
a target in vain: each is a name that has an identifier by then, or no name and the spelling of an
identifier. And no import ends because a link cannot be resolved. -/
theorem asked_is_gathered :
    (∀ (σ : Type) (resolve : String → DagJson.Reading σ Cid) (v : Json) (s : σ), ∃ asked,
      (DagJson.ofJsonWith (DagJson.listing resolve) v).run.run (s, [])
          = (((DagJson.ofJsonWith resolve v).run.run s).1,
            ((DagJson.ofJsonWith resolve v).run.run s).2, asked)
        ∧ asked <+: targets v
        ∧ ∀ node, ((DagJson.ofJsonWith resolve v).run.run s).1 = .ok node → asked = targets v)
      ∧ (∀ (S : Type) (store : Store (StateM S)) (codecs : Registry) (κ : Multicodec)
          (d : Description) (before : List String) (n : String) (later : List String) (v : Json)
          (cids : Fields Cid) (s s' : S), order d = .ok (before ++ n :: later) →
        d.find? n = some v →
        (before.foldlM (importNode store codecs κ d) []).run.run s = (.ok cids, s') →
        ∀ target ∈ DagJson.askedBy (resolve cids) v, ∃ χ, resolve cids target = .ok χ
          ∧ (target ∈ before ∧ cids.find? target = some χ
            ∨ target ∉ d.names ∧ Cid.ofText target = .ok χ))
      ∧ ∀ (S : Type) (store : Store (StateM S)) (codecs : Registry) (κ : Multicodec)
          (description : Json) (s : S) (target : String) (ε : Cid.Error),
        ((importAll store codecs κ description).run s).1
          ≠ .error (.codec (.decode (.link target ε))) := by
  refine ⟨fun σ resolve v s => ?_, ?_, ?_⟩
  · exact DagJson.asks_ofJsonWith resolve v s []
  · intro S store codecs κ d before n later v cids s s' ho hv run target asked
    have sorts := sorts_of_order ho
    have named : ∀ m ∈ before, m ∈ d.names :=
      fun m hm => (sorts.mem_iff m).1 (List.mem_append_left _ hm)
    obtain ⟨filed, rfl, -, -, rfl⟩ := (run_importNodes_eq_ok_iff named).1 run
    have gathered : target ∈ targets v := (DagJson.askedBy_prefix _ v).subset asked
    obtain ⟨χ, hχ, leads⟩ := leads_of_order ho hv gathered
    refine ⟨χ, hχ, ?_⟩
    cases leads with
    | inside stored same =>
      have nodup : (filed.map Prod.fst).Nodup := (List.nodup_append.1 sorts.nodup).1
      exact .inl ⟨List.mem_map_of_mem stored, same ▸ find?_identify_of_mem [] nodup stored⟩
    | outside unnamed spells => exact .inr ⟨unnamed, spells⟩
  · intro S store codecs κ description s target ε h
    rcases importAll_cases codecs κ description with
      ⟨_, refusal, refused⟩ | ⟨d, names, rfl, ho, sorts, nodes⟩
    · rw [refused] at h
      obtain rfl := Except.error.inj h
      exact refusal
    · obtain ⟨filed, last, -, -, stops⟩ := run_importNodes store codecs κ
        (fun n hn => (sorts.mem_iff n).1 hn) [] s []
      rw [nodes] at h
      rw [h] at stops
      cases stops with
      | notEncoded next value error =>
        refine blockOf_ne_link (fun t ht => ?_) error
        obtain ⟨χ, hχ, -⟩ := leads_of_order (next ▸ ho) value ht
        exact ⟨χ, hχ⟩

end Description

end BlockWalk
