import BlockWalk.Command
import BlockWalk.Proofs.CodecIndependence
import BlockWalk.Proofs.PrettyText
import BlockWalk.Proofs.StoreHistories

/-!
# Imported nodes, printed

A description that was imported into an empty folder can be had back from there, value by value:
what is printed of the block of a name is a JSON text that stands for the value of the name, where
links to names lead to their identifiers and byte strings are not padded.

The blocks are in the folder because they would be in memory (`FileTree.Agree.importAll`). Each is
decoded to the node of its value (`Description.Encodes.decodes`), a node is written as the value
that it is read from (`DagJson.toJson_of_ofJson`), and this is read back from its lines
(`Json.ofText?_pretty`).

* `Command.runImport_eq_ok_iff` — what an import has done that succeeds.
* `Command.runCat_of_get` — what is printed of a block that is there.
* `Command.cat_after_import` — what is printed of an imported node.
-/

namespace BlockWalk

open Store FileTree

/-- Every block of a list was put in at some time. -/
theorem Store.Puts.exists_run {S : Type} {store : Store (StateM S)} {B : List Block} {s s' : S}
    (h : store.Puts B s s') {b : Block} (hb : b ∈ B) :
    ∃ t u, (store.put b).run t = (.ok (), u) := by
  induction B generalizing s with
  | nil => cases hb
  | cons c B ih =>
    obtain ⟨t, ht, rest⟩ := h
    rcases List.mem_cons.1 hb with rfl | hb
    · exact ⟨s, t, ht⟩
    · exact ih rest hb

/-- **A folder that a description was imported into** holds the blocks of its names. -/
theorem FileTree.kept_of_import {r : Route} {t u : FileTree} {codecs : Registry} {κ : Multicodec}
    {description : Json} {cids : Fields Cid} (empty : t.content r = .ok [])
    (h : (Description.importAll (FileTree.store r) codecs κ description).run t = (.ok cids, u)) :
    ∃ (d : Description) (filed : List (String × Block)), description = .obj d
      ∧ d.order = .ok (filed.map Prod.fst) ∧ Description.Encodes codecs κ d [] filed
      ∧ cids = Description.identify [] filed
      ∧ Kept r u ((filed.map Prod.snd).foldl Memory.put .empty)
      ∧ ∀ b ∈ filed.map Prod.snd, HasRoom r (fileName b.cid) := by
  obtain ⟨d, filed, rfl, ho, encodes, puts, rfl⟩ := Description.importAll_eq_ok_iff.1 h
  -- an import that succeeds has found no fault, so it has done what it does in memory
  obtain ⟨-, -, kept, -⟩ := Agree.importAll codecs κ (.obj d) t .empty (kept_of_empty empty)
    (.inr (by rw [h]; nofun))
  rw [h, Description.importAll_memory_iff.2 ⟨filed, ho, encodes, rfl, rfl⟩] at kept
  refine ⟨d, filed, rfl, ho, encodes, rfl, kept, fun b hb => ?_⟩
  obtain ⟨_, _, put⟩ := puts.exists_run hb
  obtain ⟨-, -, room⟩ := exists_content_of_put put
  exact room

/-- The codecs of commands read back what they write. -/
theorem Registry.exists_standard (c : CodecName) :
    ∃ codec, Registry.standard.get c.multicodec = .ok codec ∧ codec.ReadsBack := by
  cases c with
  | dagJson => exact ⟨.dagJson, rfl, Codec.readsBack_dagJson⟩
  | dagBinary => exact ⟨.dagBinary, rfl, Codec.readsBack_dagBinary⟩

namespace Description

open DagJson

/-- What is printed of an imported block: the value of its name, with identifiers for names and byte
strings that are not padded. -/
theorem Encodes.printed {codecs : Registry} {κ : Multicodec} {d : Description} {c : Codec}
    {filed : List (String × Block)} (h : Encodes codecs κ d [] filed)
    (sorts : d.Sorts (filed.map Prod.fst)) (hc : codecs.get κ = .ok c) (reads : c.ReadsBack)
    (exact : (Json.obj d).FloatFree) (tidy : (Json.obj d).Tidy Json.maxDepth) {n : String}
    {b : Block} (hb : (n, b) ∈ filed) :
    ∃ v node, d.find? n = some v ∧ codecs.decode b = .ok node
      ∧ toJson node = .ok (unpadded (linked (identify [] filed) v))
      ∧ Json.ofText? ((unpadded (linked (identify [] filed) v)).pretty ++ "\n")
        = some (unpadded (linked (identify [] filed) v)) := by
  obtain ⟨v, node, hv, hnode, decoded⟩ := h.decodes sorts hc reads exact tidy hb
  refine ⟨v, node, hv, decoded, toJson_of_ofJson (ofJson_linked hnode), ?_⟩
  obtain ⟨e, he, rfl⟩ := Option.map_eq_some_iff.1 hv
  have he : e ∈ d := List.mem_of_find?_eq_some he
  cases exact with
  | obj exact =>
    obtain ⟨m, hm, -, tidy⟩ := Json.tidy_obj_iff.1 tidy
    have tidy : e.2.Tidy Json.maxDepth := (tidy e he).mono (by omega)
    exact Json.ofText?_pretty (floatFree_unpadded (floatFree_linked _ (exact e he)))
      (tidy_unpadded (tidy_linked _ tidy))

end Description

namespace Command

variable {config : Config} {store : Option String} {t u : FileTree} {s : Store (StateM FileTree)}

/-! ## Running commands -/

/-- A store is opened if the folder at its path is. -/
theorem openStore_eq_ok_iff {path : String} (chosen : (store <|> config.storePath) = some path) :
    (openStore files config store).run.run t = (.ok s, u)
      ↔ ∃ f, (files.openFolder path).run t = (.ok f, u) ∧ s = Store.folder f := by
  rw [openStore, chosen]
  dsimp only
  rw [ExceptT.run_mk, StateT.run_map]
  rcases (files.openFolder path).run t with ⟨ε | f, w⟩
  · constructor
    · intro h
      cases congrArg Prod.fst h
    · rintro ⟨_, h, -⟩
      cases congrArg Prod.fst h
  · constructor
    · intro h
      obtain ⟨hs, rfl⟩ := Prod.mk.inj h
      exact ⟨f, rfl, (Except.ok.inj hs).symm⟩
    · rintro ⟨_, h, rfl⟩
      obtain ⟨hf, rfl⟩ := Prod.mk.inj h
      obtain rfl := Except.ok.inj hf
      rfl

/-- **What an import has done that succeeds**: it has read a description from its file, opened the
store and imported the description there, and prints names and identifiers. -/
theorem runImport_eq_ok_iff {file : String} {codec : Option CodecName} {report : Report} :
    (runImport files config file store codec).run.run t = (.ok report, u)
      ↔ ∃ β v s w cids, t.read (.ofText file) = .ok β ∧ Json.ofBytes? β = some v
        ∧ (openStore files config store).run.run t = (.ok s, w)
        ∧ (Description.importAll s .standard (codec.getD config.importCodec).multicodec v).run w
          = (.ok cids, u)
        ∧ report = ⟨String.join (cids.map fun e => line (e.1 ++ " " ++ e.2.toText)), .ok 0⟩ := by
  constructor
  · intro h
    obtain ⟨β, t₁, hβ, h⟩ := Description.run_bind_eq_ok_iff.1 h
    obtain ⟨read, rfl⟩ := Prod.mk.inj (Description.run_answer_eq_ok_iff.1 hβ)
    rcases hv : Json.ofBytes? β with _ | v
    · rw [hv] at h
      cases congrArg Prod.fst h
    · rw [hv] at h
      obtain ⟨s, w, hs, h⟩ := Description.run_bind_eq_ok_iff.1 h
      obtain ⟨r, w', hr, h⟩ := Description.run_bind_eq_ok_iff.1 h
      rcases r with ε | cids
      · cases congrArg Prod.fst h
      · obtain ⟨hreport, rfl⟩ := Prod.mk.inj h
        obtain ⟨hc, rfl⟩ := Prod.mk.inj hr
        exact ⟨β, v, s, w, cids, read, hv, hs, Prod.ext (Except.ok.inj hc) rfl,
          (Except.ok.inj hreport).symm⟩
  · rintro ⟨β, v, s, w, cids, hβ, hv, hs, hc, rfl⟩
    have read : (readFile files "Failed to read DAG description" file).run.run t = (.ok β, t) :=
      Description.run_answer_eq_ok_iff.2 (Prod.ext hβ rfl)
    refine Description.run_bind_eq_ok_iff.2 ⟨β, t, read, ?_⟩
    rw [hv]
    refine Description.run_bind_eq_ok_iff.2 ⟨s, w, hs, ?_⟩
    exact Description.run_bind_eq_ok_iff.2 ⟨.ok cids, u, congrArg (Prod.map Except.ok id) hc, rfl⟩

/-- **What is printed of a block** that is in the store and can be decoded and written as JSON. -/
theorem runCat_of_get {χ : Cid} {b : Block} {node : Node} {v : Json} {w : FileTree}
    (opened : (openStore files config store).run.run t = (.ok s, u))
    (found : (s.get χ).run u = (.ok (some b), w)) (decoded : Registry.standard.decode b = .ok node)
    (written : DagJson.toJson node = .ok v) :
    (runCat files config χ store).run.run t = (.ok ⟨line v.pretty, .ok 0⟩, w) := by
  refine Description.run_bind_eq_ok_iff.2 ⟨s, u, opened, ?_⟩
  refine Description.run_bind_eq_ok_iff.2 ⟨_, w, congrArg (Prod.map Except.ok id) found, ?_⟩
  simp only [decoded, written]
  rfl

/-- **What is printed of an imported node.** The file of a description holds integers only and is
imported by a command, with either codec, and the folder of the store is empty when it is opened. No
two different blocks of the description have one identifier. Then every name of the description has
an identifier, which is printed, and the command that prints the block of it prints a text that
stands for the value of the name, with the identifiers of names in place of links to names and
without padding in byte strings. -/
theorem cat_after_import {file path : String} {codec : Option CodecName} {β : Bytes}
    {description : Json} {report : Report} (read : t.read (.ofText file) = .ok β)
    (parsed : Json.ofBytes? β = some description) (exact : description.FloatFree)
    (chosen : (store <|> config.storePath) = some path)
    (empty : ((files.openFolder path).run t).2.content (.ofText path) = .ok [])
    (distinct : Description.Distinct (Description.putBlocks .standard
      (codec.getD config.importCodec).multicodec description))
    (imported : (runImport files config file store codec).run.run t = (.ok report, u)) :
    ∃ (d : Description) (cids : Fields Cid), description = .obj d
      ∧ report = ⟨String.join (cids.map fun e => line (e.1 ++ " " ++ e.2.toText)), .ok 0⟩
      ∧ (∀ name, name ∈ cids.names ↔ name ∈ d.names)
      ∧ ∀ name v, d.find? name = some v → ∃ χ text, cids.find? name = some χ
        ∧ (runCat files config χ store).run.run u = (.ok ⟨text, .ok 0⟩, u)
        ∧ Json.ofText? text = some (DagJson.unpadded (Description.linked cids v)) := by
  obtain ⟨β', v, s, w, cids, hβ, hv, hs, hc, rfl⟩ := runImport_eq_ok_iff.1 imported
  obtain rfl := Except.ok.inj (read.symm.trans hβ)
  obtain rfl := Option.some.inj (parsed.symm.trans hv)
  obtain ⟨f, hf, rfl⟩ := (openStore_eq_ok_iff chosen).1 hs
  obtain ⟨rfl, possible⟩ := openFolder_eq_ok hf
  rw [hf] at empty
  obtain ⟨d, filed, rfl, ho, encodes, rfl, kept, rooms⟩ := kept_of_import empty hc
  have sorts := Description.sorts_of_order ho
  rw [Description.putBlocks_eq ho encodes] at distinct
  obtain ⟨c, known, reads⟩ := Registry.exists_standard (codec.getD config.importCodec)
  obtain ⟨text, -, htext⟩ := Option.bind_eq_some_iff.1 parsed
  have tidy := Json.tidy_of_ofText? htext
  -- so it is opened again as it is
  obtain ⟨φ, hφ, -⟩ := kept.mirrors
  have opened : (openStore files config store).run.run u
      = (.ok (FileTree.store (.ofText path)), u) := by
    refine (openStore_eq_ok_iff chosen).2 ⟨_, ?_, rfl⟩
    rw [run_openFolder_of_content hφ, if_pos possible]
  refine ⟨d, _, rfl, rfl, (encodes.imported sorts).named, fun name v hv => ?_⟩
  obtain ⟨⟨_, b⟩, hb, rfl⟩ :=
    List.mem_map.1 ((sorts.mem_iff name).2 (Fields.exists_find?_eq_some.1 ⟨v, hv⟩))
  obtain ⟨v', node, hv', decoded, written, back⟩ :=
    encodes.printed sorts known reads exact tidy hb
  obtain rfl := Option.some.inj (hv'.symm.trans hv)
  have hB : b ∈ filed.map Prod.snd := List.mem_map_of_mem (f := Prod.snd) hb
  have found := run_get_of_kept kept (rooms b hB)
  rw [Description.get?_of_distinct distinct hB] at found
  exact ⟨b.cid, _, Description.find?_identify_of_mem [] sorts.nodup hb,
    runCat_of_get opened found decoded written, back⟩

end Command

/-! ## A list with one link, printed -/

namespace OneLink

open Command Description

/-- The bytes of the description. -/
def text : Bytes := Bytes.ofText "\x7b\"a\":[\x7b\"/\":\"b\"\x7d],\"b\":null\x7d"

theorem ofBytes?_text : Json.ofBytes? text = some (.obj description) := by
  rw [Json.ofBytes?, text, Bytes.toText?_ofText]
  cbv

/-- The description in a file, next to an empty folder. -/
def disk : FileTree := ⟨[("d", .file text), ("st", .folder [])]⟩

theorem read_disk : disk.read (.ofText "d") = .ok text := by
  have route : Route.ofText "d" = ⟨["d"], false, 1⟩ := by cbv
  rw [route]
  rfl

theorem content_disk : disk.content (.ofText "st") = .ok [] := by
  rw [OneDigit.route_ofText]
  rfl

theorem run_openFolder_disk :
    (files.openFolder "st").run disk = (.ok (folder (.ofText "st")), disk) := by
  rw [run_openFolder_of_content content_disk, OneDigit.route_ofText]
  rfl

theorem standard_json : Registry.standard.get .dagJson = .ok .dagJson := rfl

/-- The description can be imported into the folder. -/
theorem exists_import_disk : ∃ cids u,
    (importAll (FileTree.store (.ofText "st")) .standard .dagJson (.obj description)).run disk
      = (.ok cids, u) := by
  obtain ⟨cids, μ, imported⟩ :=
    (import_description standard_json dagJson_null (dagJson_outer _) hash_json_ne).1
  obtain ⟨-, same, -⟩ := Agree.importAll .standard .dagJson (.obj description) disk .empty
    (kept_of_empty content_disk) (.inl OneDigit.roomy_st)
  rw [imported] at same
  exact ⟨cids, _, Prod.ext same rfl⟩

/-- The list is printed with the identifier of what it links to. -/
theorem cat_after_import_oneLink :
    ∃ report u, (runImport files .default "d" (some "st") (some .dagJson)).run.run disk
        = (.ok report, u)
      ∧ ∃ cids : Fields Cid, ∃ χ text, cids.find? "a" = some χ
        ∧ (runCat files .default χ (some "st")).run.run u = (.ok ⟨text, .ok 0⟩, u)
        ∧ Json.ofText? text = some (DagJson.unpadded
          (linked cids (.arr [DagJson.reservedForm (.str "b")]))) := by
  have distinct : Distinct (putBlocks .standard
      ((some CodecName.dagJson).getD Config.default.importCodec).multicodec (.obj description)) :=
    (import_description standard_json dagJson_null (dagJson_outer _) hash_json_ne).2
  obtain ⟨_, u, imported⟩ := exists_import_disk
  obtain ⟨report, done⟩ : ∃ report,
      (runImport files .default "d" (some "st") (some .dagJson)).run.run disk = (.ok report, u) :=
    ⟨_, runImport_eq_ok_iff.2 ⟨_, _, _, _, _, read_disk, ofBytes?_text,
      (openStore_eq_ok_iff rfl).2 ⟨_, run_openFolder_disk, rfl⟩, imported, rfl⟩⟩
  have empty : ((files.openFolder "st").run disk).2.content (.ofText "st") = .ok [] := by
    rw [run_openFolder_disk]
    exact content_disk
  obtain ⟨d, cids, hd, -, -, printed⟩ :=
    cat_after_import read_disk ofBytes?_text floatFree_description rfl empty distinct done
  obtain rfl := Json.obj.inj hd
  obtain ⟨χ, text, hχ, cat, back⟩ := printed "a" _ rfl
  exact ⟨report, u, done, cids, χ, text, hχ, cat, back⟩

end OneLink

end BlockWalk
