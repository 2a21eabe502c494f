import BlockWalk.Proofs.Importing
import BlockWalk.Proofs.StoredFiles

/-!
# A folder and a memory as the same store

A store in a folder and one in memory are used in the same way: blocks are put in, read and asked
for, descriptions are imported, and now and then the folder is opened anew. As long as nothing else
touches the folder and no use of a file fails, the two cannot be told apart.

* `Operation`, `Answer`, `history` — uses of a store, and what comes of them.
* `FileTree.Mirrors` — the files in a folder are those of the blocks of a memory.
* `FileTree.Agree` — two acts, on a folder and on a memory, do the same. Each operation of the two
  stores does: `FileTree.Agree.put`, `FileTree.Agree.get`, `FileTree.Agree.has`,
  `FileTree.Agree.importAll`.
* `FileTree.history_matches_memory` — so whole histories do.
* `FileTree.history_faultless` — all uses of files succeed if the path is short.
-/

namespace BlockWalk

open Store

/-! ## Histories -/

/-- A use of a store. -/
inductive Operation where
  /-- puts a block in -/
  | put (b : Block)
  /-- reads a block -/
  | get (χ : Cid)
  /-- asks whether there is a block -/
  | has (χ : Cid)
  /-- imports a description -/
  | importAll (codecs : Registry) (κ : Multicodec) (description : Json)
  /-- opens the store anew -/
  | reopen

/-- What comes of a use of a store. -/
inductive Answer where
  /-- of a block that was put in -/
  | put (result : Except StorageError Unit)
  /-- of a block that was read -/
  | get (result : Except StorageError (Option Block))
  /-- of a block that was asked for -/
  | has (result : Except StorageError Bool)
  /-- of a description that was imported -/
  | importAll (result : Except ImportError (Fields Cid))
  /-- of a store that was opened -/
  | reopen (result : Except StorageError Unit)

/-- Whether a file could not be used. -/
def Answer.isFault : Answer → Bool
  | put (.error .file) => true
  | get (.error .file) => true
  | has (.error .file) => true
  | importAll (.error (.storage .file)) => true
  | reopen (.error .file) => true
  | _ => false

theorem Answer.isFault_iff {answer : Answer} :
    answer.isFault = true ↔ answer = .put (.error .file) ∨ answer = .get (.error .file)
      ∨ answer = .has (.error .file) ∨ answer = .importAll (.error (.storage .file))
      ∨ answer = .reopen (.error .file) := by
  fun_cases Answer.isFault answer <;> simp_all

/-- The blocks that are put in bear the right identifiers. -/
def Operation.Hashed : Operation → Prop
  | put b => b.Hashed
  | _ => True

section

variable {m : Type → Type} [Monad m] (opened : ExceptT StorageError m (Store m))

/-- What comes of one use, and the store that is used from then on; `opened` opens it anew. -/
def perform (store : Store m) : Operation → m (Answer × Store m)
  | .put b => (fun r => (.put r, store)) <$> store.put b
  | .get χ => (fun r => (.get r, store)) <$> store.get χ
  | .has χ => (fun r => (.has r, store)) <$> store.has χ
  | .importAll codecs κ v =>
    (fun r => (.importAll r, store)) <$> Description.importAll store codecs κ v
  | .reopen =>
    (fun r => (.reopen (r.map fun _ => ()), (r.toOption).getD store)) <$> opened.run

end

/-- What comes of one use after the other, each time with the state that it leaves behind. -/
def history {S : Type} (opened : ExceptT StorageError (StateM S) (Store (StateM S)))
    (store : Store (StateM S)) (s : S) : List Operation → List (Answer × S)
  | [] => []
  | op :: ops =>
    let ((answer, store), s) := (perform opened store op).run s
    (answer, s) :: history opened store s ops

namespace Memory

/-- The blocks of one memory are in the other, too. -/
def Within (μ μ' : Memory) : Prop := ∀ χ b, μ.get? χ = some b → μ'.get? χ = some b

variable {μ μ' μ'' : Memory}

theorem Within.refl (μ : Memory) : μ.Within μ := fun _ _ h => h

theorem Within.trans (h : μ.Within μ') (h' : μ'.Within μ'') : μ.Within μ'' :=
  fun χ b hb => h' χ b (h χ b hb)

/-- No block is lost when one is put in. -/
theorem within_put (μ : Memory) (b : Block) : μ.Within (μ.put b) := by
  intro χ c hc
  rw [get?_put, hc, Option.some_or]

end Memory

namespace FileTree

variable {r : Route} {t : FileTree} {μ : Memory} {φ : Fields Entry} {b : Block} {χ : Cid}

/-! ## A folder that mirrors a memory -/

/-- The file of a block and its name. -/
def blockFile (b : Block) : String × Entry := (fileName b.cid, .file b.data)

/-- In the folder at the end of a route is one file for every block of the memory, with the name and
the bytes of the block, and nothing else. -/
def Mirrors (r : Route) (t : FileTree) (μ : Memory) : Prop :=
  ∃ φ, t.content r = .ok φ ∧ φ.Sorted ∧ φ.Perm (μ.blocks.map blockFile)

/-- The two stores hold the same blocks, and these bear the right identifiers. -/
structure Kept (r : Route) (t : FileTree) (μ : Memory) : Prop where
  /-- the files are those of the blocks -/
  mirrors : Mirrors r t μ
  /-- the identifier of a block is the hash of its bytes -/
  hashed : ∀ b ∈ μ.blocks, b.Hashed

/-- An empty folder and an empty memory hold the same blocks. -/
theorem kept_of_empty (h : t.content r = .ok []) : Kept r t .empty :=
  ⟨⟨[], h, .nil, .refl _⟩, nofun⟩

/-- A name in the folder is that of a block. -/
theorem exists_of_mem_names (perm : φ.Perm (μ.blocks.map blockFile)) {name : String}
    (h : name ∈ φ.names) : ∃ b ∈ μ.blocks, fileName b.cid = name := by
  obtain ⟨e, he, rfl⟩ := List.mem_map.1 h
  obtain ⟨b, hb, rfl⟩ := List.mem_map.1 (perm.mem_iff.1 he)
  exact ⟨b, hb, rfl⟩

/-- No draft is left in the folder. -/
theorem find?_draftName (perm : φ.Perm (μ.blocks.map blockFile)) (χ : Cid) :
    φ.find? (draftName χ) = none := by
  rw [Fields.find?_eq_none]
  intro h
  obtain ⟨b, -, hb⟩ := exists_of_mem_names perm h
  exact draftName_ne_fileName χ b.cid hb.symm

/-- The file of an identifier is that of the block in memory. -/
theorem find?_fileName (sorted : φ.Sorted) (perm : φ.Perm (μ.blocks.map blockFile)) (χ : Cid) :
    φ.find? (fileName χ) = (μ.get? χ).map fun b => .file b.data := by
  cases hμ : μ.get? χ with
  | none =>
    rw [Option.map_none, Fields.find?_eq_none]
    intro h
    obtain ⟨b, hb, hn⟩ := exists_of_mem_names perm h
    exact List.find?_eq_none.1 hμ b hb (decide_eq_true (fileName_injective hn))
  | some b =>
    have label : b.cid = χ := by simpa using List.find?_some hμ
    rw [Option.map_some, sorted.find?_eq_some_iff, ← label, perm.mem_iff]
    exact List.mem_map_of_mem (List.mem_of_find?_eq_some hμ)

/-- What is read of a block, where there can be its file, is the block in memory. -/
theorem run_get_of_kept (kept : Kept r t μ) (room : HasRoom r (fileName χ)) :
    ((store r).get χ).run t = (.ok (μ.get? χ), t) := by
  obtain ⟨φ, hφ, sorted, perm⟩ := kept.mirrors
  rw [run_get, read_child (plain_fileName χ) hφ, find?_fileName sorted perm, if_pos room]
  cases hμ : μ.get? χ with
  | none => rfl
  | some b =>
    obtain rfl : b.cid = χ := by simpa using List.find?_some hμ
    exact Prod.ext (checked_of_hashed (kept.hashed b (List.mem_of_find?_eq_some hμ))) rfl

/-! ## Acts that agree -/

/-- Two acts give the same answer and keep the same blocks, and no block that was there is lost,
unless the first one finds a fault. It finds none where there is room for all files. -/
def Agree {α : Type} (r : Route) (fault : α → Prop) (x : StateM FileTree α) (y : StateM Memory α) :
    Prop :=
  ∀ t μ, Kept r t μ → Roomy r ∨ ¬ fault (x.run t).1 →
    ¬ fault (x.run t).1 ∧ (x.run t).1 = (y.run μ).1 ∧ Kept r (x.run t).2 (y.run μ).2
      ∧ μ.Within (y.run μ).2

namespace Agree

variable {α β : Type}

theorem const {fault : α → Prop} {a : α} (sound : ¬ fault a) : Agree r fault (pure a) (pure a) :=
  fun _ μ kept _ => ⟨sound, rfl, kept, .refl μ⟩

/-- What is made of equal answers is equal. -/
theorem map {fault : α → Prop} {fault' : β → Prop} {x : StateM FileTree α} {y : StateM Memory α}
    (h : Agree r fault x y) (f : α → β) (hf : ∀ a, fault a ↔ fault' (f a)) :
    Agree r fault' (f <$> x) (f <$> y) := by
  intro t μ kept sound
  obtain ⟨sound, same, kept', within⟩ := h t μ kept (sound.imp_right (mt (hf _).1))
  exact ⟨mt (hf _).2 sound, congrArg f same, kept', within⟩

/-- Acts agree one after the other. -/
theorem bind {ε : Type} {e : ε} {x : ExceptT ε (StateM FileTree) α}
    {y : ExceptT ε (StateM Memory) α} {k : α → ExceptT ε (StateM FileTree) β}
    {l : α → ExceptT ε (StateM Memory) β} (h : Agree r (· = .error e) x.run y.run)
    (hk : ∀ a, Agree r (· = .error e) (k a).run (l a).run) :
    Agree r (· = .error e) (x >>= k).run (y >>= l).run := by
  intro t μ kept sound
  rw [ExceptT.run_bind, StateT.run_bind] at sound
  have first : Roomy r ∨ ¬ (x.run.run t).1 = .error e := by
    refine sound.imp_right fun sound hx => ?_
    have failed : x.run.run t = (.error e, (x.run.run t).2) := Prod.ext hx rfl
    rw [failed] at sound
    exact sound rfl
  obtain ⟨faultless, same, kept', within⟩ := h t μ kept first
  simp only [ExceptT.run_bind, StateT.run_bind]
  rcases hx : x.run.run t with ⟨ε | a, t'⟩
  · rw [hx] at faultless same kept'
    have failed : y.run.run μ = (.error ε, (y.run.run μ).2) := Prod.ext same.symm rfl
    rw [failed]
    exact ⟨fun h => faultless (congrArg Except.error (Except.error.inj h)), rfl, kept', within⟩
  · rw [hx] at same kept' sound
    have done : y.run.run μ = (.ok a, (y.run.run μ).2) := Prod.ext same.symm rfl
    rw [done]
    obtain ⟨faultless, same, kept'', within'⟩ := hk a _ _ kept' sound
    exact ⟨faultless, same, kept'', within.trans within'⟩

/-- A block is read from its file as from memory. -/
protected theorem get (χ : Cid) :
    Agree r (· = .error .file) ((store r).get χ) (Store.memory.get χ) := by
  intro t μ kept sound
  have room : HasRoom r (fileName χ) := by
    rcases sound with roomy | sound
    · exact roomy.fileName χ
    · by_contra full
      obtain ⟨φ, hφ, -⟩ := kept.mirrors
      rw [run_get, read_child (plain_fileName χ) hφ, if_neg full] at sound
      exact sound rfl
  rw [run_get_of_kept kept room]
  exact ⟨nofun, rfl, kept, .refl μ⟩

/-- A file is there if its block is in memory. -/
protected theorem has (χ : Cid) :
    Agree r (· = .error .file) ((store r).has χ) (Store.memory.has χ) := by
  intro t μ kept sound
  obtain ⟨φ, hφ, sorted, perm⟩ := kept.mirrors
  have there := isThere_child (plain_fileName χ) hφ
  have room : HasRoom r (fileName χ) := by
    rcases sound with roomy | sound
    · exact roomy.fileName χ
    · by_contra full
      rw [run_has, there, if_neg full] at sound
      exact sound rfl
  have same : ((store r).has χ).run t = (.ok (μ.get? χ).isSome, t) := by
    rw [run_has, there, if_pos room, find?_fileName sorted perm]
    cases μ.get? χ <;> rfl
  rw [same]
  exact ⟨nofun, rfl, kept, .refl μ⟩

/-- A block is put into both. -/
protected theorem put (hashed : b.Hashed) :
    Agree r (· = .error .file) ((store r).put b) (Store.memory.put b) := by
  intro t μ kept sound
  obtain ⟨φ, hφ, sorted, perm⟩ := kept.mirrors
  obtain ⟨u, done⟩ : ∃ u, ((store r).put b).run t = (.ok (), u) := by
    refine ⟨_, Prod.ext ?_ rfl⟩
    rcases sound with roomy | sound
    · have free : NoFolder φ (draftName b.cid) := by rw [NoFolder, find?_draftName perm]; rfl
      exact put_of_room hφ (roomy.fileName b.cid) (roomy.draftName b.cid) free
    · exact (put_answer b t).resolve_right sound
  rw [done]
  refine ⟨by rintro ⟨⟩, rfl, ?_, μ.within_put b⟩
  obtain ⟨ψ, hψ, -, ⟨⟨e, he⟩, rfl⟩ | ⟨new, hu⟩⟩ := put_cases done
  · obtain rfl := Except.ok.inj (hφ.symm.trans hψ)
    rw [find?_fileName sorted perm] at he
    obtain ⟨c, hc, -⟩ := Option.map_eq_some_iff.1 he
    have same : μ.put b = μ := by rw [Memory.put, hc]
    show Kept r u (μ.put b)
    rw [same]
    exact kept
  · obtain rfl := Except.ok.inj (hφ.symm.trans hψ)
    have drafted : withBlock φ b = φ.insert (fileName b.cid) (.file b.data) := by
      rw [withBlock, Fields.erase_insert _ (find?_draftName perm b.cid)]
    have unknown : μ.get? b.cid = none := by
      rw [find?_fileName sorted perm] at new
      exact Option.map_eq_none_iff.1 new
    have grown : μ.put b = ⟨b :: μ.blocks⟩ := by rw [Memory.put, unknown]
    show Kept r u (μ.put b)
    rw [grown]
    refine ⟨⟨_, hu, ?_, ?_⟩, List.forall_mem_cons.2 ⟨hashed, kept.hashed⟩⟩
    · rw [drafted]
      exact sorted.insert _ _
    · rw [drafted]
      exact (Fields.perm_insert _ new).trans (perm.cons _)

/-- A node is imported into both. -/
theorem importNode (codecs : Registry) (κ : Multicodec) (d : Description) (cids : Fields Cid)
    (name : String) :
    Agree r (· = .error (.storage .file))
      (Description.importNode (store r) codecs κ d cids name).run
      (Description.importNode Store.memory codecs κ d cids name).run := by
  unfold Description.importNode
  cases d.find? name with
  | none => exact .const nofun
  | some v =>
    dsimp only
    cases hb : Description.blockOf codecs κ cids v with
    | error ε => exact .const nofun
    | ok b =>
      obtain ⟨node, c, data, -, -, -, rfl⟩ := Description.blockOf_eq_ok_iff.1 hb
      have stored : Agree r (· = .error (.storage .file))
          ((fun r => r.mapError ImportError.storage) <$> (store r).put (.encoded κ data))
          ((fun r => r.mapError ImportError.storage) <$> Store.memory.put (.encoded κ data)) := by
        refine (Agree.put (Block.hashed_encoded κ data)).map _ fun a => ?_
        rcases a with _ | _ <;> simp [Except.mapError]
      have named (_ : Unit) : Agree r (· = Except.error (ImportError.storage .file))
          (pure (.ok (cids.insert name (Cid.hash κ data))))
          (pure (.ok (cids.insert name (Cid.hash κ data)))) := .const nofun
      have both := bind stored named
      exact both

/-- A description is imported into both. -/
theorem importAll (codecs : Registry) (κ : Multicodec) (v : Json) :
    Agree r (· = .error (.storage .file)) (Description.importAll (store r) codecs κ v)
      (Description.importAll Store.memory codecs κ v) := by
  unfold Description.importAll
  cases v.asMembers? with
  | none => exact .const nofun
  | some d =>
    dsimp only
    cases ho : Description.order d with
    | error ε =>
      refine .const ?_
      rintro ⟨⟩
      exact Description.order_ne_storage _ ho
    | ok names =>
      dsimp only
      clear ho
      generalize ([] : Fields Cid) = cids
      induction names generalizing cids with
      | nil => exact .const nofun
      | cons name names ih =>
        rw [List.foldlM_cons, List.foldlM_cons]
        exact (importNode codecs κ d cids name).bind ih

end Agree

/-! ## Whole histories -/

/-- The store in the folder at a path, opened anew. -/
def opened (path : String) : ExceptT StorageError (StateM FileTree) (Store (StateM FileTree)) :=
  Store.folder <$> useFile (files.openFolder path)

/-- Equal answers are reported, and the stores stay the same. -/
theorem Agree.reported {α : Type} {fault : α → Prop} {x : StateM FileTree α} {y : StateM Memory α}
    (agree : Agree r fault x y) (kept : Kept r t μ) {report : α → Answer}
    (faults : ∀ a, fault a ↔ (report a).isFault = true) {answer : Answer}
    {next : Store (StateM FileTree)} {u : FileTree}
    (h : ((fun a => (report a, store r)) <$> x).run t = ((answer, next), u))
    (sound : Roomy r ∨ answer.isFault = false) :
    answer.isFault = false ∧ next = store r
      ∧ ∃ μ', ((fun a => (report a, Store.memory)) <$> y).run μ = ((answer, Store.memory), μ')
      ∧ Kept r u μ' ∧ μ.Within μ' := by
  have done : ((fun a => (report a, store r)) <$> x).run t
      = ((report (x.run t).1, store r), (x.run t).2) := rfl
  obtain ⟨h₁, rfl⟩ := Prod.mk.inj (done.symm.trans h)
  obtain ⟨rfl, rfl⟩ := Prod.mk.inj h₁
  rw [← Bool.not_eq_true, ← faults] at sound ⊢
  obtain ⟨faultless, same, kept', within⟩ := agree t μ kept sound
  refine ⟨faultless, rfl, (y.run μ).2, ?_, kept', within⟩
  rw [same]
  rfl

/-- A store is opened by opening its folder. -/
theorem run_opened_eq (path : String) (t : FileTree) :
    (opened path).run.run t
      = ((((files.openFolder path).run t).1.mapError fun _ => StorageError.file).map Store.folder,
        ((files.openFolder path).run t).2) := by
  have known : (useFile (files.openFolder path)).run.run t
      = (((files.openFolder path).run t).1.mapError fun _ => .file,
        ((files.openFolder path).run t).2) := rfl
  rw [opened, ExceptT.run_map, StateT.run_map, known]
  rfl

/-- The folder of a memory's blocks is opened anew. -/
theorem run_opened {path : String} (kept : Kept (.ofText path) t μ) :
    (opened path).run.run t =
      (if (Route.ofText path).isPossible then .ok (store (.ofText path)) else .error .file, t) := by
  obtain ⟨φ, hφ, -⟩ := kept.mirrors
  rw [run_opened_eq, run_openFolder_of_content hφ]
  by_cases possible : (Route.ofText path).isPossible
  · rw [if_pos possible, if_pos possible]
    rfl
  · rw [if_neg possible, if_neg possible]
    rfl

/-- **One operation** has the same answer on the folder and in memory and keeps the same blocks. -/
theorem perform_agrees {path : String} (kept : Kept (.ofText path) t μ) {op : Operation}
    (hashed : op.Hashed) {answer : Answer} {next : Store (StateM FileTree)} {u : FileTree}
    (h : (perform (opened path) (store (.ofText path)) op).run t = ((answer, next), u))
    (sound : Roomy (.ofText path) ∨ answer.isFault = false) :
    answer.isFault = false ∧ next = store (.ofText path)
      ∧ ∃ μ', (perform (pure Store.memory) Store.memory op).run μ = ((answer, Store.memory), μ')
      ∧ Kept (.ofText path) u μ' ∧ μ.Within μ' := by
  cases op with
  | put b => exact (Agree.put hashed).reported kept (by simp [Answer.isFault_iff]) h sound
  | get χ => exact (Agree.get χ).reported kept (by simp [Answer.isFault_iff]) h sound
  | has χ => exact (Agree.has χ).reported kept (by simp [Answer.isFault_iff]) h sound
  | importAll codecs κ v =>
    exact (Agree.importAll codecs κ v).reported kept (by simp [Answer.isFault_iff]) h sound
  | reopen =>
    rw [perform, StateT.run_map, run_opened kept] at h
    by_cases possible : (Route.ofText path).isPossible
    · rw [if_pos possible] at h
      obtain ⟨h₁, rfl⟩ := Prod.mk.inj h
      obtain ⟨rfl, rfl⟩ := Prod.mk.inj h₁
      exact ⟨rfl, rfl, μ, rfl, kept, .refl μ⟩
    · rw [if_neg possible] at h
      obtain ⟨h₁, -⟩ := Prod.mk.inj h
      obtain ⟨rfl, -⟩ := Prod.mk.inj h₁
      rcases sound with roomy | sound
      · exact absurd roomy.possible possible
      · cases sound

/-- Whole histories have the same answers and keep the same blocks. -/
theorem history_agrees {path : String} {ops : List Operation} (kept : Kept (.ofText path) t μ)
    (hashed : ∀ op ∈ ops, op.Hashed)
    (sound : Roomy (.ofText path) ∨
      ∀ step ∈ history (opened path) (store (.ofText path)) t ops, step.1.isFault = false) :
    (∀ step ∈ history (opened path) (store (.ofText path)) t ops, step.1.isFault = false)
      ∧ List.Forall₂ (fun x y => x.1 = y.1 ∧ Mirrors (.ofText path) x.2 y.2)
        (history (opened path) (store (.ofText path)) t ops)
        (history (pure Store.memory) Store.memory μ ops)
      ∧ ((μ :: (history (pure Store.memory) Store.memory μ ops).map Prod.snd).Pairwise
        Memory.Within) := by
  induction ops generalizing t μ with
  | nil => exact ⟨nofun, .nil, List.pairwise_singleton ..⟩
  | cons op ops ih =>
    obtain ⟨hop, hops⟩ := List.forall_mem_cons.1 hashed
    rw [history] at sound ⊢
    rcases hp : (perform (opened path) (store (.ofText path)) op).run t with ⟨⟨answer, next⟩, u⟩
    rw [hp, List.forall_mem_cons] at sound
    obtain ⟨here, rfl, μ', hm, kept', within⟩ :=
      perform_agrees kept hop hp (sound.imp_right And.left)
    rw [history, hm]
    obtain ⟨later, same, grown⟩ := ih kept' hops (sound.imp_right And.right)
    refine ⟨List.forall_mem_cons.2 ⟨here, later⟩, .cons ⟨rfl, kept'.mirrors⟩ same,
      List.pairwise_cons.2 ⟨?_, grown⟩⟩
    intro ν hν
    rcases List.mem_cons.1 hν with rfl | hν
    · exact within
    · exact within.trans ((List.pairwise_cons.1 grown).1 ν hν)

/-- **No file is found not to be usable** in an empty folder with a short path, if the blocks that
are put in bear the right identifiers. -/
theorem history_faultless {path : String} {ops : List Operation}
    (empty : t.content (.ofText path) = .ok []) (roomy : Roomy (.ofText path))
    (hashed : ∀ op ∈ ops, op.Hashed) :
    ∀ step ∈ history (opened path) (store (.ofText path)) t ops, step.1.isFault = false :=
  (history_agrees (kept_of_empty empty) hashed (.inl roomy)).1

/-- **A folder and a memory are the same store.** Operations on an empty folder and on an empty
memory have the same answers, if the blocks that are put in bear the right identifiers and no file
is found not to be usable. After each of them there is one file for every block of the memory, with
its name and bytes, and nothing else. A block that is under an identifier once is there from then
on. -/
theorem history_matches_memory {path : String} {ops : List Operation}
    (empty : t.content (.ofText path) = .ok []) (hashed : ∀ op ∈ ops, op.Hashed)
    (sound : ∀ step ∈ history (opened path) (store (.ofText path)) t ops, step.1.isFault = false) :
    List.Forall₂ (fun x y => x.1 = y.1 ∧ Mirrors (.ofText path) x.2 y.2)
        (history (opened path) (store (.ofText path)) t ops)
        (history (pure Store.memory) Store.memory .empty ops)
      ∧ ((history (pure Store.memory) Store.memory .empty ops).map Prod.snd).Pairwise
        Memory.Within := by
  obtain ⟨-, same, grown⟩ := history_agrees (kept_of_empty empty) hashed (.inr sound)
  exact ⟨same, (List.pairwise_cons.1 grown).2⟩

end FileTree

namespace OneDigit

open FileTree

/-- A digit is put in twice, read, and asked for after the store was opened anew; then something is
imported that is no description, and one of no nodes. -/
def uses : List Operation :=
  [.put one, .put one, .get one.cid, .reopen, .has one.cid,
    .importAll ⟨[.dagJson]⟩ .dagJson .null, .importAll ⟨[.dagJson]⟩ .dagJson (.obj [])]

theorem route_ofText : Route.ofText "st" = route := by cbv

theorem roomy_st : Roomy (.ofText "st") := by
  rw [route_ofText]
  exact roomy_route

/-- A digit is kept in a folder as in memory. -/
theorem history_matches_memory_one :
    tree.content (.ofText "st") = .ok [] ∧ (∀ op ∈ uses, op.Hashed)
      ∧ (∀ step ∈ history (opened "st") (store (.ofText "st")) tree uses, step.1.isFault = false)
      ∧ List.Forall₂ (fun x y => x.1 = y.1 ∧ Mirrors (.ofText "st") x.2 y.2)
        (history (opened "st") (store (.ofText "st")) tree uses)
        (history (pure Store.memory) Store.memory .empty uses) := by
  have empty : tree.content (.ofText "st") = .ok [] := by
    rw [route_ofText]
    rfl
  have hashed : ∀ op ∈ uses, op.Hashed := by
    have put : (Operation.put one).Hashed := Block.hashed_encoded _ _
    simp only [uses, List.forall_mem_cons, put, true_and]
    exact ⟨trivial, trivial, trivial, trivial, trivial, nofun⟩
  have sound : ∀ step ∈ history (opened "st") (store (.ofText "st")) tree uses,
      step.1.isFault = false :=
    history_faultless empty roomy_st hashed
  exact ⟨empty, hashed, sound, (history_matches_memory empty hashed sound).1⟩

end OneDigit

end BlockWalk
