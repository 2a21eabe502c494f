import BlockWalk.Proofs.DrainEnds
import BlockWalk.Proofs.ImportedBlocks
import BlockWalk.Proofs.Relinking

/-!
# Selection does not depend on the codec

A description is imported twice, with two codecs. All identifiers differ, since the bytes do and
links hold identifiers. But both times every name leads to a block that is decoded to the node of
its value, and the two nodes are alike except that their links lead to blocks of the same names
(`DagJson.relinked_of_ofJsonResolving`). So traversals of the one and of the other go side by side.

* `Description.Resides` — the blocks of a description are in a memory. An import leaves them there,
  if its codec reads back what it writes (`Description.resides_of_import`).
* `Description.Resides.relinked` — memories with the blocks of one description are relinked.
* `Description.SelectAlike` — what traversals then have in common.
* `Description.selection_codec_independent` — imports as JSON and in binary are selected from alike.
-/

namespace BlockWalk

/-! ## Values are read alike -/

/-- What is read from a list in two ways is related item by item. -/
theorem forall₂_of_mapM {ε α β γ : Type} {R : β → γ → Prop} {f : α → Except ε β}
    {g : α → Except ε γ} {l : List α} {bs : List β} {cs : List γ}
    (h : ∀ a ∈ l, ∀ b c, f a = .ok b → g a = .ok c → R b c) (hf : l.mapM f = .ok bs)
    (hg : l.mapM g = .ok cs) : List.Forall₂ R bs cs := by
  induction l generalizing bs cs with
  | nil =>
    obtain rfl : [] = bs := Except.ok.inj hf
    obtain rfl : [] = cs := Except.ok.inj hg
    exact .nil
  | cons a l ih =>
    obtain ⟨ha, hl⟩ := List.forall_mem_cons.1 h
    obtain ⟨b, bs, hb, hbs, rfl⟩ := mapM_cons_eq_ok_iff.1 hf
    obtain ⟨c, cs, hc, hcs, rfl⟩ := mapM_cons_eq_ok_iff.1 hg
    exact .cons (ha b c hb hc) (ih hl hbs hcs)

namespace DagJson

open Description

theorem kind_of_ofNumber {n : Json.Number} {node : Node} (h : ofNumber n = .ok node) :
    node.kind = .scalar := by
  cases n with
  | int n lower upper =>
    rw [ofNumber] at h
    split at h
    · exact Except.ok.inj h ▸ rfl
    · cases h
  | float x finite => exact Except.ok.inj h ▸ rfl

/-- **A value is read to nodes that are alike**, whatever the targets of its links stand for. -/
theorem relinked_of_ofJsonResolving {L : Cid → Cid → Prop}
    {r r' : String → Except DecodeError Cid} {v : Json} {node node' : Node}
    (hL : ∀ target ∈ targets v, ∀ χ χ', r target = .ok χ → r' target = .ok χ' → L χ χ')
    (h : ofJsonResolving r v = .ok node) (h' : ofJsonResolving r' v = .ok node') :
    node.Relinked L node' := by
  induction v using Json.ind generalizing node node' with
  | null =>
    rw [ofJsonResolving_null] at h h'
    obtain rfl := Except.ok.inj (h.symm.trans h')
    exact .scalar (Except.ok.inj h ▸ rfl)
  | bool b =>
    rw [ofJsonResolving_bool] at h h'
    obtain rfl := Except.ok.inj (h.symm.trans h')
    exact .scalar (Except.ok.inj h ▸ rfl)
  | num n =>
    rw [ofJsonResolving_num] at h h'
    obtain rfl := Except.ok.inj (h.symm.trans h')
    exact .scalar (kind_of_ofNumber h)
  | str s =>
    rw [ofJsonResolving_str] at h h'
    obtain rfl := Except.ok.inj (h.symm.trans h')
    exact .scalar (Except.ok.inj h ▸ rfl)
  | arr items ih =>
    rw [ofJsonResolving_arr] at h h'
    obtain ⟨l, hl, h⟩ := bind_eq_ok_iff.1 h
    obtain ⟨l', hl', h'⟩ := bind_eq_ok_iff.1 h'
    obtain rfl := Except.ok.inj h
    obtain rfl := Except.ok.inj h'
    refine .list (forall₂_of_mapM (fun v hv w w' hw hw' => ?_) hl hl')
    refine ih v hv (fun target ht => hL target ?_) hw hw'
    rw [targets_arr]
    exact List.mem_flatMap_of_mem hv ht
  | obj members ih =>
    obtain ⟨target, χ, hm, hχ, rfl⟩ | ⟨inner, β, hm, hβ, rfl⟩ | ⟨entries, hm, he, rfl⟩ :=
      ofJsonResolving_obj_cases h
    · have link : linkTarget? (.obj members) = some target := by rw [linkTarget?, hm]; rfl
      rw [ofJsonResolving_link hm] at h'
      obtain ⟨χ', hχ', h'⟩ := bind_eq_ok_iff.1 h'
      obtain rfl := Except.ok.inj h'
      refine .link (hL target ?_ χ χ' hχ hχ')
      rw [targets_link link]
      exact List.mem_singleton_self target
    · rw [ofJsonResolving_bytes hm, hβ] at h'
      obtain rfl := Except.ok.inj h'
      exact .scalar rfl
    · have noLink : linkTarget? (.obj members) = none := by rw [linkTarget?, hm]; rfl
      rw [ofJsonResolving_map hm] at h'
      obtain ⟨entries', he', h'⟩ := bind_eq_ok_iff.1 h'
      obtain rfl := Except.ok.inj h'
      refine .map ((names_of_mapM he).trans (names_of_mapM he').symm) ?_
      rw [List.forall₂_map_left_iff, List.forall₂_map_right_iff]
      refine forall₂_of_mapM (fun e hm f f' hf hf' => ?_) he he'
      obtain ⟨w, hw, hf⟩ := bind_eq_ok_iff.1 hf
      obtain ⟨w', hw', hf'⟩ := bind_eq_ok_iff.1 hf'
      obtain rfl := Except.ok.inj hf
      obtain rfl := Except.ok.inj hf'
      refine ih e hm (fun target ht => hL target ?_) hw hw'
      rw [targets_obj noLink]
      exact List.mem_flatMap_of_mem hm ht

end DagJson

/-- Runs that have ended have given all that there is. -/
theorem Traversal.given_prefix (codecs : Registry) {f : BlockReader Id} (labelled : f.Labelled)
    {t : Traversal} {n : Nat} {ρ : Resolution}
    (ended : (answers f codecs n t).2.resolution? = some ρ) (m : Nat) :
    given (answers f codecs m t).1 <+: given (answers f codecs n t).1 := by
  rcases Nat.le_total m n with hle | hle
  · exact (replays_of_agree codecs labelled hle fun _ _ => rfl).blocks
  · have more := replays_of_agree codecs labelled hle (t := t) fun _ _ => rfl
    rw [(more.ending ρ ended).1]

/-! ## Links are targets -/

theorem exists_of_forall₂ {α β : Type} {R : α → β → Prop} {l : List α} {l' : List β}
    (h : List.Forall₂ R l l') {a : α} (ha : a ∈ l) : ∃ b, R a b := by
  induction h with
  | nil => cases ha
  | cons related _ ih =>
    rcases List.mem_cons.1 ha with rfl | ha
    · exact ⟨_, related⟩
    · exact ih ha

/-- Every link of relinked nodes is related to one. -/
theorem Node.Relinked.exists_of_mem_links {L : Cid → Cid → Prop} {v v' : Node}
    (h : v.Relinked L v') {χ : Cid} (hχ : χ ∈ v.links) : ∃ χ', L χ χ' := by
  induction v using Node.ind generalizing v' with
  | link ψ =>
    cases h with
    | link link =>
      obtain rfl : χ = ψ := by simpa [Node.links] using hχ
      exact ⟨_, link⟩
    | scalar h => cases h
  | list items ih =>
    cases h with
    | list items' =>
      obtain ⟨w, hw, hχ⟩ : ∃ w ∈ items, χ ∈ w.links := by simpa [Node.links] using hχ
      obtain ⟨w', related⟩ := exists_of_forall₂ items' hw
      exact ih w hw related hχ
    | scalar h => cases h
  | map entries ih =>
    cases h with
    | map keys values =>
      obtain ⟨k, w, he, hχ⟩ : ∃ k w, (k, w) ∈ entries ∧ χ ∈ w.links := by
        simpa [Node.links] using hχ
      obtain ⟨w', related⟩ := exists_of_forall₂ values (List.mem_map_of_mem (f := Prod.snd) he)
      exact ih (k, w) he related hχ
    | scalar h => cases h
  | _ => simp [Node.links] at hχ

/-- The links of a node are what the targets of the value stand for that it is read from. -/
theorem DagJson.exists_target_of_mem_links {r : String → Except DecodeError Cid} {v : Json}
    {node : Node} (h : ofJsonResolving r v = .ok node) {χ : Cid} (hχ : χ ∈ node.links) :
    ∃ target ∈ Description.targets v, r target = .ok χ := by
  have related :
      node.Relinked (fun χ _ => ∃ target ∈ Description.targets v, r target = .ok χ) node :=
    relinked_of_ofJsonResolving (fun target ht χ _ hχ _ => ⟨target, ht, hχ⟩) h h
  obtain ⟨-, found⟩ := related.exists_of_mem_links hχ
  exact found

/-! ## Imported descriptions -/

namespace Description

open DagJson Traversal

section

variable {codecs : Registry} {κ : Multicodec} {d : Description} {cids : Fields Cid} {μ : Memory}

/-- All links lead to names. -/
def Closed (d : Description) : Prop :=
  ∀ n v, d.find? n = some v → ∀ target ∈ targets v, target ∈ d.names

/-- The blocks that an import puts into an empty memory, first to last. -/
def putBlocks (codecs : Registry) (κ : Multicodec) (description : Json) : List Block :=
  ((importAll Store.memory.recording codecs κ description).run (.empty, [])).2.2.map Prod.fst

theorem putBlocks_eq {filed : List (String × Block)} (ho : d.order = .ok (filed.map Prod.fst))
    (encodes : Encodes codecs κ d [] filed) :
    putBlocks codecs κ (.obj d) = filed.map Prod.snd := by
  have puts : Store.memory.Puts (filed.map Prod.snd) .empty _ := Store.puts_memory_iff.2 rfl
  have recorded := importAll_eq_ok_iff.2 ⟨d, filed, rfl, ho, encodes, puts.recording [], rfl⟩
  rw [putBlocks, recorded]
  simp

/-- **A block of an import decodes to the node of its value**, if the codec reads back what it
writes. -/
theorem Encodes.decodes {filed : List (String × Block)} (h : Encodes codecs κ d [] filed)
    (sorts : d.Sorts (filed.map Prod.fst)) {c : Codec} (hc : codecs.get κ = .ok c)
    (reads : c.ReadsBack) (exact : (Json.obj d).FloatFree) (tidy : (Json.obj d).Tidy Json.maxDepth)
    {n : String} {b : Block} (hb : (n, b) ∈ filed) :
    ∃ v node, d.find? n = some v ∧ ofJsonResolving (resolve (identify [] filed)) v = .ok node
      ∧ codecs.decode b = .ok node := by
  obtain ⟨v, hv, made⟩ := h.exists_blockOf sorts hb
  obtain ⟨node, c', data, hnode, hc', hdata, rfl⟩ := blockOf_eq_ok_iff.1 made
  obtain rfl := Except.ok.inj (hc.symm.trans hc')
  have hlinked : ofJson (linked (identify [] filed) v) = .ok node := ofJson_linked hnode
  obtain ⟨e, he, rfl⟩ := Option.map_eq_some_iff.1 hv
  have he : e ∈ d := List.mem_of_find?_eq_some he
  cases exact with
  | obj exact =>
    obtain ⟨m, hm, -, tidy⟩ := Json.tidy_obj_iff.1 tidy
    have tidy : e.2.Tidy Json.maxDepth := (tidy e he).mono (by omega)
    have back : c.decode data = .ok node :=
      reads _ node data (floatFree_linked _ (exact e he)) (tidy_linked _ tidy) hlinked hdata
    refine ⟨e.2, node, hv, hnode, bind_eq_ok_iff.2 ⟨c, hc, mapError_eq_ok_iff.2 back⟩⟩

/-- All blocks of a description are in a memory, each under the identifier of its name, and decode
to the nodes of its values. -/
structure Resides (codecs : Registry) (d : Description) (cids : Fields Cid) (μ : Memory) :
    Prop where
  /-- only the names of the description have identifiers -/
  named : ∀ n χ, cids.find? n = some χ → n ∈ d.names
  /-- the blocks of all names are there -/
  found : ∀ n ∈ d.names, ∃ v b node, d.find? n = some v ∧ cids.find? n = some b.cid
    ∧ μ.get? b.cid = some b ∧ ofJsonResolving (resolve cids) v = .ok node
    ∧ codecs.decode b = .ok node
  /-- their links do not lead in a circle -/
  ranked : ∃ rank, Ranked codecs (fun χ => .ok (μ.get? χ)) rank

/-- No two different blocks have one identifier. -/
def Distinct (B : List Block) : Prop := ∀ b ∈ B, ∀ b' ∈ B, b.cid = b'.cid → b = b'

theorem get?_of_distinct {B : List Block} (h : Distinct B) {b : Block} (hb : b ∈ B) :
    (B.foldl Memory.put .empty).get? b.cid = some b := by
  refine get?_memoryOf (f := fun χ => .ok (B.find? fun c => c.cid = χ)) ?_ hb
  intro b hb
  cases hc : B.find? fun c => c.cid = b.cid with
  | none => exact absurd (by simp) (List.find?_eq_none.1 hc b hb)
  | some c =>
    have same : c.cid = b.cid := by simpa using List.find?_some hc
    rw [h c (List.mem_of_find?_eq_some hc) b hb same]

/-- A block that blocks have left under an identifier is the first of them that has it. -/
theorem filed_of_get? {filed : List (String × Block)} {χ : Cid} {b : Block}
    (h : ((filed.map Prod.snd).foldl Memory.put .empty).get? χ = some b) :
    ∃ before n later, filed = before ++ (n, b) :: later ∧ b.cid = χ
      ∧ ∀ e ∈ before, e.2.cid ≠ χ := by
  rw [Memory.get?_foldl_put, show Memory.empty.get? χ = none from rfl, Option.none_or,
    List.find?_map] at h
  obtain ⟨⟨n, _⟩, he, rfl⟩ := Option.map_eq_some_iff.1 h
  obtain ⟨hcid, before, later, rfl, hbefore⟩ := List.find?_eq_some_iff_append.1 he
  refine ⟨before, n, later, rfl, by simpa using hcid, fun e hm => ?_⟩
  simpa using hbefore e hm

/-- The place of a block among those of an import is a rank: its links lead to blocks that were put
in before it. -/
theorem ranked_of_decodes {filed : List (String × Block)} (sorts : d.Sorts (filed.map Prod.fst))
    (closed : d.Closed)
    (decodes : ∀ n b, (n, b) ∈ filed → ∃ v node, d.find? n = some v
      ∧ ofJsonResolving (resolve (identify [] filed)) v = .ok node
      ∧ codecs.decode b = .ok node) :
    Ranked codecs (fun χ => .ok (((filed.map Prod.snd).foldl Memory.put .empty).get? χ))
      fun χ => filed.findIdx fun e => e.2.cid = χ := by
  rintro χ node ⟨b, hb, hdec⟩ ψ hψ
  obtain ⟨before, n, later, rfl, rfl, first⟩ := filed_of_get? (Except.ok.inj hb)
  obtain ⟨v, node', hv, hnode, hdec'⟩ := decodes n b (List.mem_append_right _ List.mem_cons_self)
  obtain rfl := Except.ok.inj (hdec.symm.trans hdec')
  obtain ⟨target, ht, hψ⟩ := exists_target_of_mem_links hnode hψ
  have earlier : target ∈ before.map Prod.fst :=
    sorts.after _ _ _ List.map_append target ⟨v, hv, ht, closed n v hv target ht⟩
  obtain ⟨⟨_, c⟩, hm, rfl⟩ := List.mem_map.1 earlier
  have hc : (identify [] (before ++ (n, b) :: later)).find? _ = some c.cid :=
    find?_identify_of_mem [] sorts.nodup (List.mem_append_left _ hm)
  rw [resolve_name hc] at hψ
  obtain rfl := Except.ok.inj hψ
  -- the identifier may be that of a still earlier block, but that of `b` is new
  have low : before.findIdx (fun e => e.2.cid = c.cid) < before.length :=
    List.findIdx_lt_length.2 ⟨_, hm, decide_eq_true rfl⟩
  have high : before.findIdx (fun e => e.2.cid = b.cid) = before.length :=
    List.findIdx_eq_length.2 fun e he => decide_eq_false (first e he)
  dsimp only
  rw [List.findIdx_append, List.findIdx_append, if_pos low, high, if_neg (Nat.lt_irrefl _)]
  omega

/-- **An import into an empty memory leaves the description there**, if no two different blocks of
it have one identifier and all links lead to names. -/
theorem resides_of_import (h : (importAll .memory codecs κ (.obj d)).run .empty = (.ok cids, μ))
    (distinct : Distinct (putBlocks codecs κ (.obj d))) {c : Codec} (hc : codecs.get κ = .ok c)
    (reads : c.ReadsBack) (exact : (Json.obj d).FloatFree)
    (tidy : (Json.obj d).Tidy Json.maxDepth) (closed : d.Closed) : Resides codecs d cids μ := by
  obtain ⟨filed, ho, encodes, rfl, rfl⟩ := importAll_memory_iff.1 h
  have sorts := sorts_of_order ho
  have imported := encodes.imported sorts
  rw [putBlocks_eq ho encodes] at distinct
  refine ⟨?_, ?_, _, ranked_of_decodes sorts closed ?_⟩
  · intro n χ hχ
    exact (imported.named n).1 (Fields.exists_find?_eq_some.1 ⟨χ, hχ⟩)
  · intro n hn
    obtain ⟨⟨_, b⟩, hb, rfl⟩ := List.mem_map.1 ((sorts.mem_iff n).2 hn)
    obtain ⟨v, node, hv, hnode, hdec⟩ := encodes.decodes sorts hc reads exact tidy hb
    have hcid := find?_identify_of_mem [] sorts.nodup hb
    have there := get?_of_distinct distinct (List.mem_map_of_mem (f := Prod.snd) hb)
    exact ⟨v, b, node, hv, hcid, there, hnode, hdec⟩
  · intro n b hb
    exact encodes.decodes sorts hc reads exact tidy hb

/-! ## Two imports of one description -/

/-- Identifiers of one name. -/
def SameName (cids cids' : Fields Cid) (χ χ' : Cid) : Prop :=
  ∃ n, cids.find? n = some χ ∧ cids'.find? n = some χ'

/-- **Two imports of one description are relinked**, by their names. -/
theorem Resides.relinked {cids' : Fields Cid} {μ' : Memory} (h : Resides codecs d cids μ)
    (h' : Resides codecs d cids' μ')
    (closed : d.Closed) :
    BlockReader.Relinked (SameName cids cids') codecs (fun χ => .ok (μ.get? χ))
      (fun χ => .ok (μ'.get? χ)) := by
  rintro _ _ ⟨n, hχ, hχ'⟩
  obtain ⟨v, b, node, hv, hcid, hb, hnode, hdec⟩ := h.found n (h.named n _ hχ)
  obtain ⟨v', b', node', hv', hcid', hb', hnode', hdec'⟩ := h'.found n (h.named n _ hχ)
  obtain rfl := Option.some.inj (hv.symm.trans hv')
  obtain rfl := Option.some.inj (hcid.symm.trans hχ)
  obtain rfl := Option.some.inj (hcid'.symm.trans hχ')
  refine ⟨b, b', node, node', congrArg _ hb, congrArg _ hb', rfl, rfl, hdec, hdec', ?_⟩
  refine relinked_of_ofJsonResolving (fun target ht χ χ' hχ hχ' => ?_) hnode hnode'
  have hname : target ∈ d.names := closed n v hv target ht
  obtain ⟨-, c, -, -, hc, -⟩ := h.found target hname
  obtain ⟨-, c', -, -, hc', -⟩ := h'.found target hname
  obtain rfl := Except.ok.inj ((resolve_name hc).symm.trans hχ)
  obtain rfl := Except.ok.inj ((resolve_name hc').symm.trans hχ')
  exact ⟨target, hc, hc'⟩

/-- What is emitted by name is a list of names. -/
theorem exists_names {cids' : Fields Cid} {B B' : List Block}
    (h : List.Forall₂ (fun b b' => SameName cids cids' b.cid b'.cid) B B') :
    ∃ w : List String, B.map (fun b => some b.cid) = w.map (fun n => cids.find? n)
      ∧ B'.map (fun b => some b.cid) = w.map fun n => cids'.find? n := by
  induction h with
  | nil => exact ⟨[], rfl, rfl⟩
  | cons same _ ih =>
    obtain ⟨n, hn, hn'⟩ := same
    obtain ⟨w, hw, hw'⟩ := ih
    refine ⟨n :: w, ?_, ?_⟩
    · rw [List.map_cons, List.map_cons, hn, hw]
    · rw [List.map_cons, List.map_cons, hn', hw']

/-- Draining a memory ends if its links do not lead in a circle. -/
theorem drainEnds_of_ranked (doc : Document) {rank : Cid → Nat}
    (ranked : Ranked codecs (fun χ => .ok (μ.get? χ)) rank) :
    DrainEnds Store.memory.get codecs doc μ := by
  have wf : WellFounded (Follows (RootOf codecs fun χ => .ok (μ.get? χ))) := follows_wf ranked
  exact drainEnds_of_acc (serves_of_answers (BlockReader.answers_memory μ)) fun w _ => wf.apply _

/-- A run has given out the blocks of these names and has met no error. -/
structure Emitted (cids : Fields Cid) (names : List String)
    (run : List (Except TraversalError (Option Block)) × Traversal) : Prop where
  /-- the blocks, by their identifiers -/
  blocks : (given run.1).map (fun b => some b.cid) = names.map fun n => cids.find? n
  /-- no answer is an error -/
  sound : ∀ a ∈ run.1, ∃ b, a = .ok b

/-- Relinked answers are no errors. -/
theorem sound_of_forall₂ {L : Cid → Cid → Prop}
    {as as' : List (Except TraversalError (Option Block))}
    (h : List.Forall₂ (AnswersRelinked L) as as') :
    (∀ a ∈ as, ∃ b, a = .ok b) ∧ ∀ a ∈ as', ∃ b, a = .ok b := by
  induction h with
  | nil => exact ⟨nofun, nofun⟩
  | cons first _ ih =>
    obtain ⟨b, b', rfl, rfl, -⟩ := first
    exact ⟨List.forall_mem_cons.2 ⟨⟨b, rfl⟩, ih.1⟩, List.forall_mem_cons.2 ⟨⟨b', rfl⟩, ih.2⟩⟩

/-- Every run gives the first of the names that a run gives which has ended. -/
theorem emitted_take {f : BlockReader Id} (labelled : f.Labelled) {t : Traversal} {n m : Nat}
    {ρ : Resolution} {w : List String} (ended : (answers f codecs n t).2.resolution? = some ρ)
    (hw : (given (answers f codecs n t).1).map (fun b => some b.cid)
      = w.map fun n => cids.find? n)
    (sound : ∀ a ∈ (answers f codecs m t).1, ∃ b, a = .ok b) :
    Emitted cids (w.take (given (answers f codecs m t).1).length) (answers f codecs m t) := by
  have first : given (answers f codecs m t).1 <+: given (answers f codecs n t).1 :=
    given_prefix codecs labelled ended m
  refine ⟨?_, sound⟩
  rw [List.map_take, ← hw, ← List.map_take, ← List.prefix_iff_eq_take.1 first]

variable (codecs) in
/-- Traversals of one program over two memories give out the blocks of the same names, pull by pull:
as far as they have come, those of one sequence of names. None of them meets an error, and where the
one has ended, so has the other, with the same resolution. -/
def SelectAlike (program : List Selector) (cids : Fields Cid) (μ : Memory) (χ : Cid)
    (cids' : Fields Cid) (μ' : Memory) (χ' : Cid) : Prop :=
  ∃ w : List String, ∀ pulls,
    let run := firstAnswers Store.memory.get codecs ⟨χ, program⟩ μ pulls
    let run' := firstAnswers Store.memory.get codecs ⟨χ', program⟩ μ' pulls
    (∃ k, Emitted cids (w.take k) run ∧ Emitted cids' (w.take k) run')
      ∧ run.2.resolution? = run'.2.resolution?

/-- Relinked memories with blocks of the same names are selected from alike. -/
theorem selectAlike_of_relinked {cids' : Fields Cid} {μ' : Memory} {rank : Cid → Nat}
    (ranked : Ranked codecs (fun χ => .ok (μ.get? χ)) rank)
    (relinked : BlockReader.Relinked (SameName cids cids') codecs (fun χ => .ok (μ.get? χ))
      fun χ => .ok (μ'.get? χ)) {χ χ' : Cid} (same : SameName cids cids' χ χ')
    (program : List Selector) : SelectAlike codecs program cids μ χ cids' μ' χ' := by
  have start : (ofDocument ⟨χ, program⟩).Relinked (SameName cids cids')
      (ofDocument ⟨χ', program⟩) :=
    .fresh same program
  -- a run that has ended gives the names, and every run is a part of it
  obtain ⟨most, sel, s, drained⟩ := drainEnds_of_ranked ⟨χ, program⟩ ranked
  obtain ⟨n, ρ, ended⟩ := start.ends relinked (BlockReader.answers_memory μ) drained
  obtain ⟨all, last⟩ := start.answers relinked n
  have ended' := last.resolution?_eq ▸ ended
  obtain ⟨w, hw, hw'⟩ := exists_names (forall₂_given all)
  refine ⟨w, fun pulls => ?_⟩
  obtain ⟨here, now⟩ := start.answers relinked pulls
  dsimp only
  rw [firstAnswers, answers_of_answers codecs (BlockReader.answers_memory μ), firstAnswers,
    answers_of_answers codecs (BlockReader.answers_memory μ')]
  have first := emitted_take (BlockReader.labelled_memory μ) ended hw (sound_of_forall₂ here).1
  have second := emitted_take (BlockReader.labelled_memory μ') ended' hw' (sound_of_forall₂ here).2
  rw [← (forall₂_given here).length_eq] at second
  exact ⟨⟨_, first, second⟩, now.resolution?_eq⟩

end

/-- **Selection does not depend on the codec.** A description is imported into two empty memories,
as JSON into the one and in binary into the other. It comes from a JSON text without floating point
numbers, all its links lead to names, and in neither memory have two different blocks one
identifier. Then every name has an identifier in both, and whatever the program, its traversals from
there give out blocks of the same names. -/
theorem selection_codec_independent {codecs : Registry}
    (hjson : codecs.get .dagJson = .ok .dagJson) (hbinary : codecs.get .dagBinary = .ok .dagBinary)
    {text : String} {d : Description} (parsed : Json.ofText? text = some (.obj d))
    (exact : (Json.obj d).FloatFree) (closed : d.Closed) {cids cids' : Fields Cid} {μ μ' : Memory}
    (h : (importAll .memory codecs .dagJson (.obj d)).run .empty = (.ok cids, μ))
    (h' : (importAll .memory codecs .dagBinary (.obj d)).run .empty = (.ok cids', μ'))
    (distinct : Distinct (putBlocks codecs .dagJson (.obj d)))
    (distinct' : Distinct (putBlocks codecs .dagBinary (.obj d))) {root : String}
    (hroot : root ∈ d.names) :
    ∃ χ χ', cids.find? root = some χ ∧ cids'.find? root = some χ'
      ∧ ∀ program, SelectAlike codecs program cids μ χ cids' μ' χ' := by
  have tidy := Json.tidy_of_ofText? parsed
  have resides := resides_of_import h distinct hjson Codec.readsBack_dagJson exact tidy closed
  have resides' :=
    resides_of_import h' distinct' hbinary Codec.readsBack_dagBinary exact tidy closed
  obtain ⟨-, b, -, -, hb, -⟩ := resides.found root hroot
  obtain ⟨-, b', -, -, hb', -⟩ := resides'.found root hroot
  refine ⟨b.cid, b'.cid, hb, hb', fun program => ?_⟩
  obtain ⟨rank, ranked⟩ := resides.ranked
  exact selectAlike_of_relinked ranked (resides.relinked resides' closed) ⟨root, hb, hb'⟩ program

end Description

/-! ## A list with one link, described -/

namespace OneLink

open Description

/-- The codecs of both forms. -/
def formats : Registry := ⟨[.dagJson, .dagBinary]⟩

theorem mem_description {e : String × Json} (h : e ∈ description) :
    e = ("a", .arr [DagJson.reservedForm (.str "b")]) ∨ e = ("b", .null) := by
  simpa [description] using h

theorem closed_description : description.Closed := by
  intro n v h target ht
  obtain ⟨e, he, rfl⟩ := Option.map_eq_some_iff.1 h
  rcases mem_description (List.mem_of_find?_eq_some he) with rfl | rfl
  · obtain rfl : target = "b" := by
      rw [targets_arr, List.flatMap_singleton, DagJson.reservedForm, targets_link rfl] at ht
      exact List.mem_singleton.1 ht
    decide
  · simp only [targets] at ht
    cases ht

theorem floatFree_description : (Json.obj description).FloatFree := by
  refine .obj fun e he => ?_
  rcases mem_description he with rfl | rfl
  · refine .arr (List.forall_mem_singleton.2 ?_)
    exact DagJson.floatFree_reservedForm (.str "b")
  · exact .null

/-- Both blocks are imported, and are distinct if their identifiers are. -/
theorem import_description {ρ : Registry} {κ : Multicodec} {c : Codec} {data data' : Bytes}
    (hc : ρ.get κ = .ok c) (h : c.encode .null = .ok data)
    (h' : c.encode (.list [.link (.hash κ data)]) = .ok data')
    (hne : Cid.hash κ data ≠ Cid.hash κ data') :
    (∃ cids μ, (importAll .memory ρ κ (.obj description)).run .empty = (.ok cids, μ))
      ∧ Distinct (putBlocks ρ κ (.obj description)) := by
  have encodes := encodes_description hc h h'
  let filed : List (String × Block) := [("b", .encoded κ data), ("a", .encoded κ data')]
  have ho : description.order = .ok (filed.map Prod.fst) := order_description
  refine ⟨⟨_, _, importAll_memory_iff.2 ⟨filed, ho, encodes, rfl, rfl⟩⟩, ?_⟩
  rw [putBlocks_eq ho encodes]
  intro b hb b' hb' hcid
  rcases List.mem_pair.1 hb with rfl | rfl <;> rcases List.mem_pair.1 hb' with rfl | rfl
  · rfl
  · exact absurd hcid hne
  · exact absurd hcid.symm hne
  · rfl

/-- The bytes of the list as JSON, around those of the link. -/
def outerJson (χ : Cid) : Bytes :=
  Bytes.ofText (String.join ["[", "\x7b", "\"/\"", ":", Json.quote χ.toText, "\x7d", "]"])

/-- The bytes of the list in binary, around those of the link. -/
def outerBinary (χ : Cid) : Bytes :=
  DagBinary.kindBytes 6 ++ DagBinary.lengthBytes 1
    ++ (DagBinary.kindBytes 8 ++ DagBinary.withLength χ.toBytes)

theorem dagJson_null : Codec.dagJson.encode .null = .ok (Bytes.ofText "null") := by
  simp only [Codec.dagJson, DagJson.encode, DagJson.toJson]
  cbv

theorem dagJson_outer (χ : Cid) :
    Codec.dagJson.encode (.list [.link χ]) = .ok (outerJson χ) := by
  have written : DagJson.toJson (.list [.link χ])
      = .ok (.arr [DagJson.reservedForm (.str χ.toText)]) := by
    rw [DagJson.toJson_list, List.mapM_cons, DagJson.toJson, List.mapM_nil]
    rfl
  have tokens : (Json.arr [DagJson.reservedForm (.str χ.toText)]).tokens
      = [.openArray, .openObject, .str "/", .colon, .str χ.toText, .closeObject, .closeArray] := by
    rw [Json.tokens_arr, List.map_singleton, DagJson.reservedForm, Json.tokens_obj]
    simp [Json.memberTokens, Json.tokens, DagJson.reservedKey]
  have key : Json.quote "/" = "\"/\"" := by decide
  have bytes : Json.toBytes (.arr [DagJson.reservedForm (.str χ.toText)]) = outerJson χ := by
    rw [Json.toBytes, Json.compact, tokens, outerJson, ← key]
    rfl
  calc Codec.dagJson.encode (.list [.link χ])
      = .ok (Json.toBytes (.arr [DagJson.reservedForm (.str χ.toText)])) :=
        congrArg (Json.toBytes <$> ·) written
    _ = .ok (outerJson χ) := congrArg _ bytes

theorem dagBinary_null : Codec.dagBinary.encode .null = .ok [0, 0, 0, 0] := by
  cbv

theorem dagBinary_outer : Codec.dagBinary.encode (.list [.link (.hash .dagBinary [0, 0, 0, 0])])
    = .ok (outerBinary (.hash .dagBinary [0, 0, 0, 0])) := by
  have form (χ : Cid) : DagBinary.form (.list [.link χ]) = outerBinary χ := by
    rw [DagBinary.form, List.flatMap_singleton, DagBinary.form]
    rfl
  have fits : (outerBinary (.hash .dagBinary [0, 0, 0, 0])).length ≤ 1048576 := by decide +kernel
  exact (DagBinary.encode_eq _).trans (by rw [form, if_pos fits])

theorem hash_json_ne : Cid.hash .dagJson (Bytes.ofText "null")
    ≠ .hash .dagJson (outerJson (.hash .dagJson (Bytes.ofText "null"))) := by
  decide +kernel

theorem hash_binary_ne : Cid.hash .dagBinary [0, 0, 0, 0]
    ≠ .hash .dagBinary (outerBinary (.hash .dagBinary [0, 0, 0, 0])) := by
  decide +kernel

/-- A list with one link is selected from alike, as it is read from a text. -/
theorem selection_codec_independent_oneLink :
    Json.ofText? "\x7b\"a\":[\x7b\"/\":\"b\"\x7d],\"b\":null\x7d" = some (.obj description)
      ∧ ∃ cids μ cids' μ' χ χ',
        (importAll .memory formats .dagJson (.obj description)).run .empty = (.ok cids, μ)
        ∧ (importAll .memory formats .dagBinary (.obj description)).run .empty = (.ok cids', μ')
        ∧ cids.find? "a" = some χ ∧ cids'.find? "a" = some χ'
        ∧ ∀ program, SelectAlike formats program cids μ χ cids' μ' χ' := by
  have json : formats.get .dagJson = .ok .dagJson := rfl
  have binary : formats.get .dagBinary = .ok .dagBinary := rfl
  have parsed : Json.ofText? "\x7b\"a\":[\x7b\"/\":\"b\"\x7d],\"b\":null\x7d"
      = some (.obj description) := by cbv
  obtain ⟨⟨cids, μ, h⟩, distinct⟩ :=
    import_description json dagJson_null (dagJson_outer _) hash_json_ne
  obtain ⟨⟨cids', μ', h'⟩, distinct'⟩ :=
    import_description binary dagBinary_null dagBinary_outer hash_binary_ne
  have hroot : "a" ∈ description.names := List.mem_cons_self
  obtain ⟨χ, χ', hχ, hχ', alike⟩ := selection_codec_independent json binary parsed
    floatFree_description closed_description h h' distinct distinct' hroot
  exact ⟨parsed, cids, μ, cids', μ', χ, χ', h, h', hχ, hχ', alike⟩

end OneLink

end BlockWalk
