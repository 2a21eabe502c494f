import BlockWalk.Proofs.StoreHistories

/-!
# A store among other users of its files

The folder of a store is open to everything else that uses the files. Between two uses of the store
its files can be written, renamed or removed, folders can be made and all of it can be wiped out;
the tree may then be any tree at all (`FileTree.Reached`). Nothing is kept of such a tree but that
the store still looks at the same folder, so what is shown here of the store is shown of every tree.

A tree is known by the single entries at all places (`FileTree.alone?`). The store writes and
renames files in its own folder, so it is enough to know what becomes of the entries of that folder
(`FileTree.put_effect`, `FileTree.alone_changeInside`).

* `FileTree.get_gives_hashed`, `FileTree.get_eq_none_iff` — what the store answers.
* `FileTree.spares_put` — putting a block in changes two entries at most, and none if something has
  the name of its file.
* `FileTree.get_after_put` — so it changes nothing that is read of another block.
* `FileTree.serves_only_hashed` — the main statement.
-/

namespace BlockWalk

open Store

/-- An entry by itself: a folder without what is in it. -/
def Entry.alone : Entry → Entry
  | .file β => .file β
  | .folder _ => .folder []

namespace FileTree

variable {t u : FileTree} {r : Route} {p q : Place} {name m : String} {φ ψ : Fields Entry}
  {b : Block} {χ : Cid}

/-! ## Single entries -/

/-- The entry of a name in the folder at a place, by itself. -/
def alone? (t : FileTree) (p : Place) (name : String) : Option Entry :=
  (inside? p t.root >>= Fields.find? name).map Entry.alone

theorem alone?_of_inside? (h : inside? p t.root = some φ) (name : String) :
    t.alone? p name = (φ.find? name).map Entry.alone := by
  rw [alone?, h]
  rfl

/-- If files inside one folder change, and no folder in it does, then of all entries in the tree
only those of the files change. -/
theorem alone_changeInside {f : Fields Entry → Fields Entry} (h : inside? p φ = some ψ)
    (folders : ∀ name, ((f ψ).find? name >>= Entry.inside?) = (ψ.find? name >>= Entry.inside?))
    (same : q = p → ((f ψ).find? m).map Entry.alone = (ψ.find? m).map Entry.alone) :
    (inside? q (changeInside f p φ) >>= Fields.find? m).map Entry.alone
      = (inside? q φ >>= Fields.find? m).map Entry.alone := by
  induction p generalizing φ q with
  | nil =>
    obtain rfl := Option.some.inj h
    cases q with
    | nil => exact same rfl
    | cons n q => rw [changeInside, inside?_cons, inside?_cons, folders]
  | cons n p ih =>
    rw [changeInside]
    rw [inside?] at h
    split at h
    · next ω hω =>
      cases q with
      | nil =>
        -- the folder that leads to the change is still a folder
        show ((φ.insert n (.folder (changeInside f p ω))).find? m).map Entry.alone
          = (φ.find? m).map Entry.alone
        rw [Fields.find?_insert]
        by_cases hm : n = m
        · rw [if_pos hm, ← hm, hω]
          rfl
        · rw [if_neg hm]
      | cons k q =>
        rw [inside?_cons, inside?_cons, Fields.find?_insert]
        by_cases hk : n = k
        · rw [if_pos hk, ← hk, hω]
          exact ih h fun hq => same (by rw [hq, hk])
        · rw [if_neg hk]
    · cases h

/-- Where a file is put, no other entry changes. -/
theorem alone?_put (h : inside? p t.root = some φ) (free : NoFolder φ name) (β : Bytes)
    (other : q = p → m ≠ name) : (t.put p name (.file β)).alone? q m = t.alone? q m := by
  refine alone_changeInside h (fun n => ?_) fun hq => ?_
  · rw [Fields.find?_insert]
    by_cases hn : name = n
    · rw [if_pos hn, ← hn, free]
      rfl
    · rw [if_neg hn]
  · rw [Fields.find?_insert, if_neg (other hq).symm]

/-- Where a file is taken out, no other entry changes. -/
theorem alone?_take (h : inside? p t.root = some φ) (free : NoFolder φ name)
    (other : q = p → m ≠ name) : (t.take p name).alone? q m = t.alone? q m := by
  refine alone_changeInside h (fun n => ?_) fun hq => ?_
  · rw [Fields.find?_erase]
    by_cases hn : name = n
    · rw [if_pos hn, ← hn, free]
      rfl
    · rw [if_neg hn]
  · rw [Fields.find?_erase, if_neg (other hq).symm]

/-- A file that was put in is no folder. -/
theorem noFolder_insert (φ : Fields Entry) (name : String) (β : Bytes) :
    NoFolder (φ.insert name (.file β)) name := by
  rw [NoFolder, Fields.find?_insert, if_pos rfl]
  rfl

/-! ## What it does to a tree to put a block in -/

/-- The folder at a place, which a route leads to, takes a block in: nothing has the name of its
file, and no folder that of its draft. -/
structure Receives (r : Route) (t : FileTree) (b : Block) (p : Place) (φ : Fields Entry) :
    Prop where
  /-- the route leads to the folder -/
  leads : r.names.foldlM t.enter [] = .ok p
  /-- what is in the folder -/
  inside : inside? p t.root = some φ
  /-- nothing has the name of the file -/
  new : φ.find? (fileName b.cid) = none
  /-- no folder has the name of the draft -/
  free : NoFolder φ (draftName b.cid)

/-- The tree after a draft was written in the folder at a place. -/
def drafted (t : FileTree) (p : Place) (b : Block) : FileTree :=
  t.put p (draftName b.cid) (.file b.data)

/-- The tree after a draft was written and renamed in the folder at a place. -/
def stored (t : FileTree) (p : Place) (b : Block) : FileTree :=
  ((t.drafted p b).take p (draftName b.cid)).put p (fileName b.cid) (.file b.data)

namespace Receives

variable (h : Receives r t b p φ)

include h

theorem inside?_drafted : inside? p (t.drafted p b).root
    = some (φ.insert (draftName b.cid) (.file b.data)) :=
  inside?_put h.inside _ _

theorem inside?_taken : inside? p ((t.drafted p b).take p (draftName b.cid)).root
    = some ((φ.insert (draftName b.cid) (.file b.data)).erase (draftName b.cid)) :=
  inside?_take h.inside?_drafted _

theorem inside?_stored : inside? p (t.stored p b).root = some (withBlock φ b) :=
  inside?_put h.inside?_taken _ _

/-- Nothing has the name of the file when the draft is renamed. -/
theorem noFolder_taken : NoFolder
    ((φ.insert (draftName b.cid) (.file b.data)).erase (draftName b.cid)) (fileName b.cid) := by
  have apart := draftName_ne_fileName b.cid b.cid
  rw [NoFolder, Fields.find?_erase, if_neg apart, Fields.find?_insert, if_neg apart, h.new]
  rfl

theorem sameFolders_drafted : SameFolders t (t.drafted p b) :=
  sameFolders_put h.inside h.free b.data

theorem sameFolders_stored : SameFolders t (t.stored p b) :=
  (h.sameFolders_drafted.trans (sameFolders_take h.inside?_drafted (noFolder_insert φ _ _))).trans
    (sameFolders_put h.inside?_taken h.noFolder_taken b.data)

/-- A draft changes no other entry. -/
theorem alone?_drafted (other : q = p → m ≠ draftName b.cid) :
    (t.drafted p b).alone? q m = t.alone? q m :=
  alone?_put h.inside h.free b.data other

/-- A draft that is renamed changes no entry but that of its new name. -/
theorem alone?_stored (other : q = p → m ≠ fileName b.cid ∧ m ≠ draftName b.cid) :
    (t.stored p b).alone? q m = t.alone? q m :=
  calc (t.stored p b).alone? q m
      = ((t.drafted p b).take p (draftName b.cid)).alone? q m :=
        alone?_put h.inside?_taken h.noFolder_taken b.data fun hq => (other hq).1
    _ = (t.drafted p b).alone? q m :=
        alone?_take h.inside?_drafted (noFolder_insert φ _ _) fun hq => (other hq).2
    _ = t.alone? q m := h.alone?_drafted fun hq => (other hq).2

end Receives

/-- **What it does to a tree to put a block in**, whether that succeeds or not: nothing, or the
draft is written and perhaps renamed, in a folder that takes the block in. -/
theorem put_effect (r : Route) (b : Block) (t : FileTree) :
    (((store r).put b).run t).2 = t
      ∨ ∃ p φ, Receives r t b p φ ∧ ((((store r).put b).run t).2 = t.drafted p b
        ∨ (((store r).put b).run t).2 = t.stored p b) := by
  have plain := plain_fileName b.cid
  have plain' := plain_draftName b.cid
  rw [run_put]
  rcases there : t.isThere (r.child (fileName b.cid)) with ε | _ | _
  · exact .inl rfl
  · rcases hw : t.write (r.child (draftName b.cid)) b.data with ε | v
    · exact .inl rfl
    · obtain ⟨p, φ, leads, inside, -, free, rfl⟩ := eq_put_of_write_child plain' hw
      have new : φ.find? (fileName b.cid) = none := by
        rw [isThere_child plain (content_eq_ok_iff.2 ⟨p, leads, inside⟩)] at there
        split at there
        · simpa using there
        · cases there
      have receives : Receives r t b p φ := ⟨leads, inside, new, free⟩
      refine .inr ⟨p, φ, receives, ?_⟩
      dsimp only
      rcases hm : (t.drafted p b).rename (r.child (draftName b.cid)) (r.child (fileName b.cid))
        with ε | w
      · left
        rw [drafted] at hm
        rw [hm]
        rfl
      · have leads' := (foldlM_enter (p := []) rfl leads).2 receives.sameFolders_drafted
        have draft : (φ.insert (draftName b.cid) (.file b.data)).find? (draftName b.cid)
            = some (.file b.data) := by rw [Fields.find?_insert, if_pos rfl]
        obtain ⟨-, -, rfl⟩ := eq_put_of_rename_child plain' plain
          (draftName_ne_fileName b.cid b.cid) leads' receives.inside?_drafted draft hm
        right
        rw [drafted] at hm
        rw [hm]
        rfl
  · exact .inl rfl

/-- Nothing has changed from one tree to another but entries of some names in the folder that a
route leads to: any other entry, wherever it is in the tree, is as it was, and where there was none,
there is none. -/
def Spares (r : Route) (names : List String) (t u : FileTree) : Prop :=
  ∀ p name, (r.names.foldlM t.enter [] = .ok p → name ∉ names) → u.alone? p name = t.alone? p name

/-- **A block that is put in changes two entries at most**: those of its file and its draft. -/
theorem spares_put (r : Route) (b : Block) (t : FileTree) :
    Spares r [fileName b.cid, draftName b.cid] t (((store r).put b).run t).2 := by
  intro q m spared
  obtain same | ⟨p, φ, receives, effect⟩ := put_effect r b t
  · rw [same]
  · have other : q = p → m ≠ fileName b.cid ∧ m ≠ draftName b.cid := by
      rintro rfl
      simpa using spared receives.leads
    rcases effect with drafted | stored
    · rw [drafted, receives.alone?_drafted fun hq => (other hq).2]
    · rw [stored, receives.alone?_stored other]

/-- **Nothing changes when a block is put in** whose file has the name of something that is
there. -/
theorem put_of_entry {e : Entry} (leads : r.names.foldlM t.enter [] = .ok p)
    (there : t.alone? p (fileName b.cid) = some e) : (((store r).put b).run t).2 = t := by
  obtain same | ⟨p', φ, receives, -⟩ := put_effect r b t
  · exact same
  · obtain rfl := Except.ok.inj (leads.symm.trans receives.leads)
    rw [alone?_of_inside? receives.inside, receives.new] at there
    cases there

/-- In the folder of the store, the entries of other names are as they were. -/
theorem content_after_put (r : Route) (b : Block) (t : FileTree) :
    (((store r).put b).run t).2 = t
      ∨ ∃ φ ψ, t.content r = .ok φ ∧ (((store r).put b).run t).2.content r = .ok ψ
        ∧ ∀ name, name ≠ fileName b.cid → name ≠ draftName b.cid →
          ψ.find? name = φ.find? name := by
  obtain same | ⟨p, φ, receives, effect⟩ := put_effect r b t
  · exact .inl same
  · have before : t.content r = .ok φ :=
      content_eq_ok_iff.2 ⟨p, receives.leads, receives.inside⟩
    right
    rcases effect with drafted | stored
    · have after := content_of_sameFolders receives.sameFolders_drafted receives.leads
        receives.inside?_drafted
      rw [drafted]
      refine ⟨φ, _, before, after, fun name _ other => ?_⟩
      rw [Fields.find?_insert, if_neg other.symm]
    · have after := content_of_sameFolders receives.sameFolders_stored receives.leads
        receives.inside?_stored
      rw [stored]
      refine ⟨φ, _, before, after, fun name other other' => ?_⟩
      rw [find?_withBlock, if_neg other.symm, if_neg other'.symm]

/-- **What is read of a block** is the same after another one was put in, as they have no name in
common. -/
theorem get_after_put (r : Route) (t : FileTree) (other : χ ≠ b.cid) :
    (((store r).get χ).run (((store r).put b).run t).2).1 = (((store r).get χ).run t).1 := by
  obtain same | ⟨φ, ψ, hφ, hψ, kept⟩ := content_after_put r b t
  · rw [same]
  · have plain := plain_fileName χ
    have name := kept (fileName χ) (fun h => other (fileName_injective h))
      (draftName_ne_fileName b.cid χ).symm
    rw [run_get, run_get, read_child plain hψ, read_child plain hφ, name]

/-! ## Answers -/

/-- **A block that is given out** is the one that was asked for, and its identifier is the hash of
its bytes. -/
theorem get_gives_hashed (h : ((store r).get χ).run t = (.ok (some b), u)) :
    b.cid = χ ∧ Cid.hash χ.codec b.data = χ := by
  rw [run_get] at h
  have answer : checked χ (t.read (r.child (fileName χ))) = .ok (some b) := congrArg Prod.fst h
  rcases hr : t.read (r.child (fileName χ)) with (_ | _) | β
  · rw [hr] at answer
    cases answer
  · rw [hr] at answer
    cases answer
  · rw [hr, checked] at answer
    split at answer
    · next hash =>
      obtain rfl := Option.some.inj (Except.ok.inj answer)
      exact ⟨rfl, hash⟩
    · cases answer

/-- A file is missing where nothing is found. -/
theorem read_eq_missing_iff {s : Route} :
    t.read s = .error .missing ↔ t.find s = .error .missing := by
  rw [read]
  rcases t.find s with ε | β | φ
  · exact ⟨fun h => congrArg _ (Except.error.inj h), fun h => congrArg _ (Except.error.inj h)⟩
  · exact iff_of_false (by rintro ⟨⟩) (by rintro ⟨⟩)
  · exact iff_of_false (by rintro ⟨⟩) (by rintro ⟨⟩)

theorem isThere_eq_false_iff {s : Route} :
    t.isThere s = .ok false ↔ t.find s = .error .missing := by
  rw [isThere]
  rcases t.find s with (_ | _) | e
  · exact ⟨fun _ => rfl, fun _ => rfl⟩
  · exact iff_of_false (by rintro ⟨⟩) (by rintro ⟨⟩)
  · exact iff_of_false (by rintro ⟨⟩) (by rintro ⟨⟩)

/-- **No block is given out** exactly if the store says that it has none. -/
theorem get_eq_none_iff (r : Route) (χ : Cid) (t : FileTree) :
    (((store r).get χ).run t).1 = .ok none ↔ (((store r).has χ).run t).1 = .ok false := by
  have none : checked χ (t.read (r.child (fileName χ))) = .ok none
      ↔ t.read (r.child (fileName χ)) = .error .missing := by
    rcases t.read (r.child (fileName χ)) with (_ | _) | β
    · exact ⟨fun _ => rfl, fun _ => rfl⟩
    · exact iff_of_false (by rintro ⟨⟩) (by rintro ⟨⟩)
    · rw [checked]
      split <;> exact iff_of_false (by rintro ⟨⟩) (by rintro ⟨⟩)
  rw [run_get, run_has, mapError_eq_ok_iff, isThere_eq_false_iff, ← read_eq_missing_iff]
  exact none

/-! ## Uses and changes in turn -/

/-- The store that is in use, and the tree, after a store was opened at a path and then it was used
and the tree was changed from outside, in turn and in any way. -/
inductive Reached (path : String) : Store (StateM FileTree) → FileTree → Prop
  /-- the store was opened -/
  | opened {s : Store (StateM FileTree)} {t u : FileTree}
      (h : (opened path).run.run t = (.ok s, u)) : Reached path s u
  /-- the store was used; it is another one from then on if it was opened anew -/
  | used {s next : Store (StateM FileTree)} {t u : FileTree} {op : Operation} {answer : Answer}
      (before : Reached path s t)
      (h : (perform (FileTree.opened path) s op).run t = ((answer, next), u)) :
      Reached path next u
  /-- files were written, renamed or removed, folders were made, or all of it was wiped out -/
  | edited {s : Store (StateM FileTree)} {t : FileTree} (before : Reached path s t)
      (u : FileTree) : Reached path s u

section

variable {path : String} {s next : Store (StateM FileTree)} {op : Operation} {answer : Answer}

/-- A store that was opened is that of the folder at the path. -/
theorem eq_store_of_opened (h : (opened path).run.run t = (.ok s, u)) :
    s = store (.ofText path) := by
  rw [run_opened_eq] at h
  rcases ho : (files.openFolder path).run t with ⟨ε | f, w⟩
  · rw [ho] at h
    cases congrArg Prod.fst h
  · rw [ho] at h
    obtain ⟨rfl, -⟩ := openFolder_eq_ok ho
    exact (Except.ok.inj (congrArg Prod.fst h)).symm

/-- The store stays that of the folder when it is used. -/
theorem eq_store_of_perform
    (h : (perform (opened path) (store (.ofText path)) op).run t = ((answer, next), u)) :
    next = store (.ofText path) := by
  have next_eq := congrArg (fun p => p.1.2) h
  cases op with
  | reopen =>
    rcases ho : (opened path).run.run t with ⟨ε | s, w⟩
    · rw [perform, StateT.run_map, ho] at next_eq
      exact next_eq.symm
    · rw [perform, StateT.run_map, ho] at next_eq
      exact next_eq.symm.trans (eq_store_of_opened ho)
  | _ => exact next_eq.symm

/-- **The store looks at the same folder** all the time. -/
theorem Reached.eq_store (reached : Reached path s t) : s = store (.ofText path) := by
  induction reached with
  | opened h => exact eq_store_of_opened h
  | used before h ih =>
    subst ih
    exact eq_store_of_perform h
  | edited before u ih => exact ih

/-- **The store serves no wrong bytes, whatever happens to its files.** Say it was opened at some
time, and that it was used since and the files were changed by others, in any order and way. Then a
block that it gives out is the one that was asked for and has the hash that its identifier says; it
gives none out exactly if it says that there is none; and neither changes a file. To put a block in,
whether that succeeds or not, changes no entry of the whole tree but those of its file and its draft
in the folder of the store, none at all if something has the name of its file, and nothing that is
read of another block. -/
theorem serves_only_hashed (reached : Reached path s t) :
    (∀ χ b u, (s.get χ).run t = (.ok (some b), u) → b.cid = χ ∧ Cid.hash χ.codec b.data = χ)
      ∧ (∀ χ, ((s.get χ).run t).1 = .ok none ↔ ((s.has χ).run t).1 = .ok false)
      ∧ (∀ χ, ((s.get χ).run t).2 = t ∧ ((s.has χ).run t).2 = t)
      ∧ ∀ b answer u, (s.put b).run t = (answer, u) →
        Spares (.ofText path) [fileName b.cid, draftName b.cid] t u
          ∧ (∀ p e, (Route.ofText path).names.foldlM t.enter [] = .ok p →
            t.alone? p (fileName b.cid) = some e → u = t)
          ∧ ∀ χ, χ ≠ b.cid → ((s.get χ).run u).1 = ((s.get χ).run t).1 := by
  obtain rfl := reached.eq_store
  refine ⟨fun χ b u h => get_gives_hashed h, fun χ => get_eq_none_iff _ χ t, fun χ => ?_, ?_⟩
  · rw [run_get, run_has]
    exact ⟨rfl, rfl⟩
  · intro b answer u h
    obtain rfl : (((store (.ofText path)).put b).run t).2 = u := congrArg Prod.snd h
    exact ⟨spares_put _ b t, fun p e leads there => put_of_entry leads there,
      fun χ other => get_after_put _ t other⟩

end

end FileTree

/-! ## One digit, damaged -/

namespace OneDigit

open FileTree

/-- Another digit has been written over the file of the digit one. -/
def overwritten : FileTree := ⟨[("st", .folder [(fileName one.cid, .file [50])])]⟩

/-- The digit is put in and its file is written over. To put it in again changes nothing then, and
nothing else is given out in its place. -/
theorem serves_only_hashed_overwritten :
    ∃ s, Reached "st" s overwritten ∧ (((s.put one).run overwritten).2 = overwritten)
      ∧ ∀ b u, (s.get one.cid).run overwritten = (.ok (some b), u) →
        Cid.hash one.cid.codec b.data = one.cid := by
  have empty : tree.content (.ofText "st") = .ok [] := by
    rw [route_ofText]
    rfl
  have start : Reached "st" (store (.ofText "st")) tree := by
    refine .opened (t := tree) ?_
    rw [run_opened (kept_of_empty empty), if_pos roomy_st.possible]
  have put : (perform (opened "st") (store (.ofText "st")) (.put one)).run tree
      = ((.put (((store (.ofText "st")).put one).run tree).1, store (.ofText "st")),
        (((store (.ofText "st")).put one).run tree).2) := rfl
  have reached : Reached "st" (store (.ofText "st")) overwritten :=
    .edited (.used start put) overwritten
  obtain ⟨gives, -, -, puts⟩ := serves_only_hashed reached
  have leads : (Route.ofText "st").names.foldlM overwritten.enter [] = .ok ["st"] := by
    rw [route_ofText]
    rfl
  have there : overwritten.alone? ["st"] (fileName one.cid) = some (.file [50]) := by
    have inside : inside? ["st"] overwritten.root = some [(fileName one.cid, .file [50])] := rfl
    rw [alone?_of_inside? inside, Fields.find?_cons, if_pos rfl]
    rfl
  refine ⟨_, reached, (puts one _ _ rfl).2.1 _ _ leads there, fun b u h => ?_⟩
  exact (gives one.cid b u h).2

end OneDigit

end BlockWalk
