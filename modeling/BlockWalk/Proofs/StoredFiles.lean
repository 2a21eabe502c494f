import BlockWalk.Proofs.FileTrees
import BlockWalk.Proofs.Identifiers

/-!
# Blocks in files

A store in a folder of a tree: what it answers, and what it does to the folder.

* `Store.draftName_ne_fileName`, `Store.fileName_injective` — no two blocks have a file of the same
  name, and no file has the name of a block while it is written.
* `FileTree.run_get`, `FileTree.run_has`, `FileTree.run_put` — the three operations as one look at
  the tree and the changes that follow.
* `FileTree.Roomy`, `FileTree.put_of_room` — the path of a folder is so short that there is room for
  the files of all blocks, and a block can be put in where there is room for its files.
* `FileTree.put_cases` — a block that was put in has left the folder as it was, if something had the
  name of its file, or its file is new.
* `FileTree.readable_after_put_iff` — so the block can be read afterwards, unless something else had
  that name.
-/

namespace BlockWalk

instance decidableEqExcept {ε α : Type} [DecidableEq ε] [DecidableEq α] :
    DecidableEq (Except ε α)
  | .ok _, .ok _ => decidable_of_iff _ ⟨congrArg Except.ok, Except.ok.inj⟩
  | .error _, .error _ => decidable_of_iff _ ⟨congrArg Except.error, Except.error.inj⟩
  | .ok _, .error _ => isFalse nofun
  | .error _, .ok _ => isFalse nofun

/-- The identifier of the block is the hash of its bytes. -/
def Block.Hashed (b : Block) : Prop := Cid.hash b.cid.codec b.data = b.cid

/-- A block made of bytes has the hash of them. -/
theorem Block.hashed_encoded (κ : Multicodec) (β : Bytes) : (Block.encoded κ β).Hashed := rfl

/-! ## Names -/

namespace Cid

/-- An identifier is known from its text. -/
theorem toText_injective {χ ψ : Cid} (h : χ.toText = ψ.toText) : χ = ψ :=
  Except.ok.inj ((ofText_eq_ok_iff.2 rfl).symm.trans (ofText_eq_ok_iff.2 h))

theorem toList_toText (χ : Cid) : χ.toText.toList = 'f' :: χ.toBytes.flatMap Bytes.Base16.pair := by
  simp [toText, Bytes.Base16.encode]

end Cid

namespace Store

open FileTree

/-- A name that begins with the letter of identifiers is one that a file can have. -/
theorem plain_of_toList {name : String} {σ : List Char} (h : name.toList = 'f' :: σ) :
    Plain name := by
  have other {s : String} {c : Char} {τ : List Char} (hs : s.toList = c :: τ) (hc : c ≠ 'f') :
      name ≠ s := by
    rintro rfl
    exact hc (List.cons.inj (hs.symm.trans h)).1
  refine ⟨?_, ?_⟩
  · rintro rfl
    cases h
  · simp [Route.isDots, other (s := ".") rfl (by decide), other (s := "..") rfl (by decide)]

theorem plain_fileName (χ : Cid) : Plain (fileName χ) := plain_of_toList χ.toList_toText

theorem plain_draftName (χ : Cid) : Plain (draftName χ) := by
  refine plain_of_toList (σ := χ.toBytes.flatMap Bytes.Base16.pair ++ ['.', 't', 'm', 'p']) ?_
  rw [draftName, String.toList_append, χ.toList_toText]
  rfl

/-- Two blocks do not have one file. -/
theorem fileName_injective {χ ψ : Cid} (h : fileName χ = fileName ψ) : χ = ψ :=
  Cid.toText_injective h

/-- Characters of identifiers are letters and digits. -/
theorem mem_fileName {χ : Cid} {c : Char} (h : c ∈ (fileName χ).toList) :
    c = 'f' ∨ ∃ n, n < 16 ∧ c = Bytes.Base16.digit n := by
  rw [fileName, Cid.toList_toText] at h
  exact (List.mem_cons.1 h).imp_right Bytes.Base16.exists_digit_of_mem

/-- What is not a letter or digit is in no name of a block. -/
theorem not_mem_fileName {c : Char} (hf : c ≠ 'f') (hd : ∀ k : Fin 16, c ≠ Bytes.Base16.digit k)
    (χ : Cid) : c ∉ (fileName χ).toList := by
  intro h
  rcases mem_fileName h with rfl | ⟨n, hn, digit⟩
  · exact hf rfl
  · exact hd ⟨n, hn⟩ digit

/-- The point of a draft is in no name of a block. -/
theorem draftName_ne_fileName (χ ψ : Cid) : draftName χ ≠ fileName ψ := by
  intro h
  refine not_mem_fileName (c := '.') (by decide) (by decide) ψ ?_
  rw [← h, draftName, String.toList_append]
  exact List.mem_append_right _ List.mem_cons_self

end Store

namespace FileTree

open Store

variable {t u : FileTree} {r : Route} {φ : Fields Entry} {b : Block} {χ : Cid}

/-! ## Room -/

/-- There is room for the files of all blocks in the folder at the end of the route. -/
structure Roomy (r : Route) : Prop where
  /-- there can be such a path -/
  possible : r.isPossible = true
  /-- it is shorter than it might be -/
  short : r.size + 96 ≤ Route.maxSize

instance (r : Route) : Decidable (Roomy r) :=
  decidable_of_iff (_ ∧ _) ⟨fun h => ⟨h.1, h.2⟩, fun h => ⟨h.1, h.2⟩⟩

/-- In a roomy folder there is room for every short name. -/
theorem Roomy.hasRoom (roomy : Roomy r) {name : String} (short : name.utf8ByteSize ≤ 95)
    (clean : '\x00' ∉ name.toList) : HasRoom r name := by
  have size : (r.child name).size ≤ Route.maxSize := by
    have := roomy.short
    simp only [Route.child]
    split <;> omega
  have names : r.names.all (fun name => !name.toList.contains '\x00') = true :=
    (Bool.and_eq_true_iff.1 roomy.possible).2
  refine ⟨?_, Nat.le_trans short (by decide)⟩
  refine Bool.and_eq_true_iff.2 ⟨decide_eq_true size, ?_⟩
  rw [Route.child, List.all_append, names]
  simpa using clean

theorem Roomy.fileName (roomy : Roomy r) (χ : Cid) : HasRoom r (fileName χ) :=
  roomy.hasRoom (Nat.le_trans χ.utf8ByteSize_toText_le (by decide))
    (not_mem_fileName (by decide) (by decide) χ)

theorem Roomy.draftName (roomy : Roomy r) (χ : Cid) : HasRoom r (draftName χ) := by
  refine roomy.hasRoom ?_ ?_
  · have := χ.utf8ByteSize_toText_le
    have ending : ".tmp".utf8ByteSize = 4 := rfl
    rw [Store.draftName, String.utf8ByteSize_append]
    omega
  · rw [Store.draftName, String.toList_append, List.mem_append]
    exact not_or.2 ⟨not_mem_fileName (by decide) (by decide) χ, by decide⟩

/-! ## Operations -/

variable (r) in
/-- The store in the folder at the end of a route. -/
def store : Store (StateM FileTree) := Store.folder (folder r)

/-- What the store answers about a block, by what was read of its file. -/
def checked (χ : Cid) : Except FileError Bytes → Except StorageError (Option Block)
  | .ok β => if Cid.hash χ.codec β = χ then .ok (some ⟨χ, β⟩) else .error (.corrupt χ)
  | .error .missing => .ok none
  | .error .other => .error .file

/-- The bytes of a hashed block are the block. -/
theorem checked_of_hashed (hashed : b.Hashed) : checked b.cid (.ok b.data) = .ok (some b) :=
  if_pos hashed

/-- A block is read from its file, which leaves the tree as it is. -/
theorem run_get (χ : Cid) (t : FileTree) :
    ((store r).get χ).run t = (checked χ (t.read (r.child (fileName χ))), t) := by
  have read : ((folder r).read (fileName χ)).run t = (t.read (r.child (fileName χ)), t) := rfl
  simp only [store, Store.folder, readBlock, StateT.run_bind, read]
  rcases t.read (r.child (fileName χ)) with (_ | _) | β <;> rfl

/-- The file of a block is looked for, which leaves the tree as it is. -/
theorem run_has (χ : Cid) (t : FileTree) :
    ((store r).has χ).run t =
      ((t.isThere (r.child (fileName χ))).mapError fun _ => .file, t) :=
  rfl

/-- A block is written under another name and renamed, unless something has the name already. -/
theorem run_put (b : Block) (t : FileTree) :
    ((store r).put b).run t =
      match t.isThere (r.child (fileName b.cid)) with
      | .error _ => (.error .file, t)
      | .ok true => (.ok (), t)
      | .ok false =>
        match t.write (r.child (draftName b.cid)) b.data with
        | .error _ => (.error .file, t)
        | .ok u =>
          match u.rename (r.child (draftName b.cid)) (r.child (fileName b.cid)) with
          | .error _ => (.error .file, u)
          | .ok w => (.ok (), w) := by
  have changed (f : FileTree → Except FileError FileTree) (t : FileTree) :
      (useFile (change f)).run.run t = match f t with
        | .error _ => (.error .file, t)
        | .ok u => (.ok (), u) := by
    have moved : (useFile (change f)).run.run t
        = ((change f t).1.mapError fun _ => .file, (change f t).2) := rfl
    rw [moved, change]
    rcases f t with _ | u <;> rfl
  have there : (useFile ((folder r).isThere (fileName b.cid))).run.run t
      = ((t.isThere (r.child (fileName b.cid))).mapError fun _ => .file, t) := rfl
  simp only [store, Store.folder, writeBlock, ExceptT.run_bind, StateT.run_bind, there]
  rcases t.isThere (r.child (fileName b.cid)) with ε | _ | _
  · rfl
  · have write : (folder r).write (draftName b.cid) b.data
        = change fun t => t.write (r.child (draftName b.cid)) b.data := rfl
    have rename : (folder r).rename (draftName b.cid) (fileName b.cid)
        = change fun t => t.rename (r.child (draftName b.cid)) (r.child (fileName b.cid)) := rfl
    show ((useFile ((folder r).write (draftName b.cid) b.data)) >>= fun _ =>
      useFile ((folder r).rename (draftName b.cid) (fileName b.cid))).run.run t = _
    rw [ExceptT.run_bind, StateT.run_bind, write, rename, changed]
    dsimp only
    rcases t.write (r.child (draftName b.cid)) b.data with _ | u
    · rfl
    · exact changed _ u
  · rfl

/-- A block is put in, or a file cannot be used. -/
theorem put_answer (b : Block) (t : FileTree) :
    (((store r).put b).run t).1 = .ok () ∨ (((store r).put b).run t).1 = .error .file := by
  rw [run_put]
  rcases t.isThere (r.child (fileName b.cid)) with _ | _ | _
  · exact .inr rfl
  · rcases t.write (r.child (draftName b.cid)) b.data with _ | u
    · exact .inr rfl
    · dsimp only
      rcases u.rename (r.child (draftName b.cid)) (r.child (fileName b.cid)) with _ | w
      · exact .inr rfl
      · exact .inl rfl
  · exact .inl rfl

/-! ## Blocks that were put in -/

/-- What is in a folder after the file of a block was written and renamed. -/
def withBlock (φ : Fields Entry) (b : Block) : Fields Entry :=
  ((φ.insert (draftName b.cid) (.file b.data)).erase (draftName b.cid)).insert (fileName b.cid)
    (.file b.data)

/-- A new block has its file, and nothing has the name that the file had before. -/
theorem find?_withBlock (φ : Fields Entry) (b : Block) (name : String) :
    (withBlock φ b).find? name =
      if fileName b.cid = name then some (.file b.data)
      else if draftName b.cid = name then none
      else φ.find? name := by
  rw [withBlock, Fields.find?_insert, Fields.find?_erase, Fields.find?_insert]
  split
  · rfl
  · split <;> rfl

/-- A block can only be put into a folder that is there. -/
theorem exists_content_of_put (h : ((store r).put b).run t = (.ok (), u)) :
    ∃ φ, t.content r = .ok φ ∧ HasRoom r (fileName b.cid) := by
  have plain := plain_fileName b.cid
  rw [run_put] at h
  have there : ∃ φ, t.content r = .ok φ := by
    rcases hf : t.find (r.child (fileName b.cid)) with (_ | _) | e
    · rcases hw : t.write (r.child (draftName b.cid)) b.data with ε | v
      · rw [isThere, hf] at h
        simp only [hw] at h
        cases h
      · obtain ⟨φ, hφ, -⟩ := exists_of_write_child (plain_draftName b.cid) hw
        exact ⟨φ, hφ⟩
    · rw [isThere, hf] at h
      cases h
    · exact exists_content_of_find plain hf
  obtain ⟨φ, hφ⟩ := there
  rw [isThere_child plain hφ] at h
  by_cases room : HasRoom r (fileName b.cid)
  · exact ⟨φ, hφ, room⟩
  · rw [if_neg room] at h
    cases h

/-- **A block that was put in** changed nothing if something had the name of its file already, and
has a new file if nothing had. -/
theorem put_cases (h : ((store r).put b).run t = (.ok (), u)) :
    ∃ φ, t.content r = .ok φ ∧ HasRoom r (fileName b.cid)
      ∧ ((∃ e, φ.find? (fileName b.cid) = some e) ∧ u = t
        ∨ φ.find? (fileName b.cid) = none ∧ u.content r = .ok (withBlock φ b)) := by
  have plain := plain_fileName b.cid
  have plain' := plain_draftName b.cid
  have apart := draftName_ne_fileName b.cid b.cid
  obtain ⟨φ, hφ, room⟩ := exists_content_of_put h
  refine ⟨φ, hφ, room, ?_⟩
  rw [run_put, isThere_child plain hφ, if_pos room] at h
  rcases hn : φ.find? (fileName b.cid) with _ | e
  · rw [hn] at h
    refine .inr ⟨rfl, ?_⟩
    rcases hw : t.write (r.child (draftName b.cid)) b.data with ε | v
    · simp only [Option.isSome_none, hw] at h
      cases h
    · obtain ⟨ψ, hψ, -, -, hv⟩ := exists_of_write_child plain' hw
      obtain rfl := Except.ok.inj (hφ.symm.trans hψ)
      rcases hm : v.rename (r.child (draftName b.cid)) (r.child (fileName b.cid)) with ε | w
      · simp only [Option.isSome_none, hw, hm] at h
        cases h
      · simp only [Option.isSome_none, hw, hm] at h
        obtain rfl := (Prod.mk.inj h).2
        have draft : (φ.insert (draftName b.cid) (.file b.data)).find? (draftName b.cid)
            = some (.file b.data) := by rw [Fields.find?_insert, if_pos rfl]
        exact (exists_of_rename_child plain' plain apart hv draft hm).2.2
  · rw [hn] at h
    exact .inl ⟨⟨e, rfl⟩, (Prod.mk.inj h).2.symm⟩

/-- **A block can be put in** where there is room for its file and for its draft, and no folder has
the name of the draft. -/
theorem put_of_room (hφ : t.content r = .ok φ) (room : HasRoom r (fileName b.cid))
    (draftRoom : HasRoom r (draftName b.cid)) (free : NoFolder φ (draftName b.cid)) :
    (((store r).put b).run t).1 = .ok () := by
  have plain := plain_fileName b.cid
  have plain' := plain_draftName b.cid
  have apart := draftName_ne_fileName b.cid b.cid
  rw [run_put, isThere_child plain hφ, if_pos room]
  rcases hn : φ.find? (fileName b.cid) with _ | e
  · obtain ⟨v, hw⟩ := write_child_of_content plain' hφ draftRoom free b.data
    obtain ⟨ψ, hψ, -, -, hv⟩ := exists_of_write_child plain' hw
    obtain rfl := Except.ok.inj (hφ.symm.trans hψ)
    have draft : (φ.insert (draftName b.cid) (.file b.data)).find? (draftName b.cid)
        = some (.file b.data) := by rw [Fields.find?_insert, if_pos rfl]
    have new : NoFolder (φ.insert (draftName b.cid) (.file b.data)) (fileName b.cid) := by
      rw [NoFolder, Fields.find?_insert, if_neg apart, hn]
      rfl
    obtain ⟨w, hm⟩ := rename_child_of_content plain' plain hv draftRoom room draft new
    simp only [Option.isSome_none, hw, hm]
  · rfl

/-! ## Blocks that are read again -/

/-- **A block that was put in can be read** exactly if no file or folder had the name of its file
before, other than a file of the same bytes. -/
theorem readable_after_put_iff (hashed : b.Hashed)
    (h : ((store r).put b).run t = (.ok (), u)) :
    (((store r).get b.cid).run u).1 = .ok (some b)
      ↔ ∀ e, t.find (r.child (fileName b.cid)) = .ok e → e = .file b.data := by
  have plain := plain_fileName b.cid
  obtain ⟨φ, hφ, room, ⟨⟨e, he⟩, rfl⟩ | ⟨hn, hu⟩⟩ := put_cases h
  · rw [run_get, read_child plain hφ, find_child plain hφ, if_pos room, if_pos room, he]
    cases e with
    | file β =>
      constructor
      · intro hg e' he'
        obtain rfl := Except.ok.inj he'
        rw [checked] at hg
        split at hg
        · rw [← congrArg Block.data (Option.some.inj (Except.ok.inj hg))]
        · cases hg
      · intro all
        obtain rfl := Entry.file.inj (all _ rfl)
        exact checked_of_hashed hashed
    | folder ψ => exact ⟨nofun, fun all => nomatch all _ rfl⟩
  · have new : (withBlock φ b).find? (fileName b.cid) = some (.file b.data) := by
      rw [find?_withBlock, if_pos rfl]
    rw [run_get, read_child plain hu, find_child plain hφ, if_pos room, if_pos room, new, hn]
    exact ⟨fun _ => nofun, fun _ => checked_of_hashed hashed⟩

end FileTree

/-! ## One digit -/

namespace OneDigit

open FileTree

/-- The route to the only folder. -/
def route : Route := ⟨["st"], false, 2⟩

theorem roomy_route : Roomy route := by decide

/-- Nothing is in the only folder. -/
def tree : FileTree := ⟨[("st", .folder [])]⟩

/-- The block of the digit one. -/
def one : Block := .encoded .dagJson [49]

/-- A digit that is put into an empty folder can be read. -/
theorem readable_after_put_iff_one :
    one.Hashed ∧ (((store route).put one).run tree).1 = .ok ()
      ∧ (((store route).get one.cid).run (((store route).put one).run tree).2).1
        = .ok (some one) := by
  have empty : tree.content route = .ok [] := rfl
  have done : (((store route).put one).run tree).1 = .ok () :=
    put_of_room empty (roomy_route.fileName _) (roomy_route.draftName _) rfl
  have put : ((store route).put one).run tree = (.ok (), (((store route).put one).run tree).2) :=
    Prod.mk.eta.symm.trans (congrArg (·, _) done)
  have hashed : one.Hashed := Block.hashed_encoded _ _
  refine ⟨hashed, done, (readable_after_put_iff hashed put).2 fun e he => ?_⟩
  rw [find_child (Store.plain_fileName _) empty] at he
  split at he <;> cases he

/-- Puts the digit in, writes another one over it, puts it in again and reads it. -/
def damaged : StateM FileTree (Except StorageError Unit × Except FileError Unit
    × Except StorageError Unit × Except StorageError (Option Block)) := do
  let first ← (store route).put one
  let written ← change fun t => t.write (route.child (Store.fileName one.cid)) [50]
  let second ← (store route).put one
  let got ← (store route).get one.cid
  return (first, written, second, got)

/-- **A damaged file is not repaired**: putting its block in again succeeds, and the block cannot be
read. -/
theorem corrupt_after_put :
    (damaged.run tree).1 = (.ok (), .ok (), .ok (), .error (.corrupt one.cid)) := by
  decide +kernel

end OneDigit

end BlockWalk
