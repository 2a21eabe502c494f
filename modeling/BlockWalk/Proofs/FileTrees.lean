import BlockWalk.Proofs.Readers
import BlockWalk.Store.FileTree
import Mathlib

/-!
# What is in a folder

A route leads through a tree to a folder, and what is in that folder is all that the files inside it
depend on (`FileTree.content`). Reading a file, writing one and renaming one are here said of the
content: a change puts an entry in or takes one out, and no folder comes or goes, so the same route
leads to the same folder afterwards (`FileTree.SameFolders`).

* `FileTree.find_child` — what a name in the folder stands for.
* `FileTree.exists_of_write_child`, `FileTree.exists_of_rename_child` — what a change that was made
  has done.
* `FileTree.makeFolders_of_content` — where there is a folder, none is made.
-/

namespace BlockWalk

/-! ## Putting members in and taking them out -/

namespace Fields

variable {α : Type}

theorem find?_erase (φ : Fields α) (k l : String) :
    (φ.erase k).find? l = if k = l then none else φ.find? l := by
  induction φ with
  | nil => simp [erase, find?]
  | cons e φ ih =>
    rw [erase, List.filter_cons]
    by_cases hk : e.1 = k
    · rw [if_neg (by simpa using hk), ← erase, ih, find?_cons, hk]
      split <;> rfl
    · rw [if_pos (by simpa using hk), ← erase, find?_cons, ih, find?_cons]
      by_cases hl : e.1 = l
      · rw [if_pos hl, if_pos hl, if_neg fun h => hk (hl.trans h.symm)]
      · rw [if_neg hl, if_neg hl]

theorem Sorted.erase {φ : Fields α} (h : Sorted φ) (k : String) : Sorted (φ.erase k) :=
  List.Pairwise.filter _ h

/-- Members in order are found by their names. -/
theorem Sorted.find?_eq_some_iff {φ : Fields α} (h : Sorted φ) {k : String} {a : α} :
    φ.find? k = some a ↔ (k, a) ∈ φ := by
  induction φ with
  | nil => exact ⟨nofun, nofun⟩
  | cons e φ ih =>
    obtain ⟨he, hφ⟩ := List.pairwise_cons.1 h
    rw [find?_cons, List.mem_cons]
    split
    · next hk =>
      subst hk
      refine ⟨fun ha => .inl (congrArg (Prod.mk e.1) (Option.some.inj ha).symm), fun ha => ?_⟩
      rcases ha with ha | ha
      · exact congrArg some (congrArg Prod.snd ha).symm
      · exact absurd (he _ ha) (String.lt_irrefl _)
    · next hk =>
      rw [ih hφ]
      exact ⟨.inr, fun ha => ha.resolve_left fun h => hk (congrArg Prod.fst h).symm⟩

/-- A member of a new name is one more. -/
theorem perm_insert {φ : Fields α} {k : String} (a : α) (new : φ.find? k = none) :
    (φ.insert k a).Perm ((k, a) :: φ) := by
  induction φ with
  | nil => exact .refl _
  | cons e φ ih =>
    rw [find?_cons] at new
    split at new
    · cases new
    · next hk =>
      rw [insert]
      split
      · exact .refl _
      · rw [if_neg (Ne.symm hk)]
        exact ((ih new).cons e).trans (.swap (k, a) e φ)

/-- A member of a new name can be taken out again. -/
theorem erase_insert {φ : Fields α} {k : String} (a : α) (new : φ.find? k = none) :
    (φ.insert k a).erase k = φ := by
  induction φ with
  | nil => simp [insert, erase]
  | cons e φ ih =>
    have keep : ∀ f ∈ e :: φ, f.1 ≠ k := by
      intro f hf hk
      exact find?_eq_none.1 new (List.mem_map.2 ⟨f, hf, hk⟩)
    have all : Fields.erase k (e :: φ) = e :: φ :=
      List.filter_eq_self.2 fun f hf => by simpa using keep f hf
    rw [insert]
    split
    · rw [erase, List.filter_cons_of_neg (by simp), ← erase, all]
    · rw [if_neg (keep e List.mem_cons_self).symm, erase,
        List.filter_cons_of_pos (by simpa using keep e List.mem_cons_self), ← erase]
      rw [find?_cons, if_neg (keep e List.mem_cons_self)] at new
      rw [ih new]

end Fields

/-- What is inside, if the entry is a folder. -/
def Entry.inside? : Entry → Option (Fields Entry)
  | .folder φ => some φ
  | .file _ => none

namespace FileTree

/-! ## Places -/

theorem inside?_cons (name : String) (p : Place) (φ : Fields Entry) :
    inside? (name :: p) φ = φ.find? name >>= Entry.inside? >>= inside? p := by
  rw [inside?]
  rcases φ.find? name with _ | β | ψ <;> rfl

/-- A folder is looked for one name after the other. -/
theorem inside?_snoc (p : Place) (name : String) (φ : Fields Entry) :
    inside? (p ++ [name]) φ = inside? p φ >>= fun ψ => ψ.find? name >>= Entry.inside? := by
  induction p generalizing φ with
  | nil =>
    rw [List.nil_append, inside?_cons]
    exact bind_pure _
  | cons m p ih =>
    rw [List.cons_append, inside?_cons, inside?_cons]
    rcases φ.find? m >>= Entry.inside? with _ | ψ
    · rfl
    · exact ih ψ

/-- There is a folder at the place. -/
def IsFolder (t : FileTree) (p : Place) : Prop := (inside? p t.root).isSome

variable {t u : FileTree} {p q : Place} {name : String} {φ ψ : Fields Entry} {r : Route}

/-- The folder that a folder is in is a folder. -/
theorem IsFolder.dropLast (h : t.IsFolder p) : t.IsFolder p.dropLast := by
  rcases List.eq_nil_or_concat p with rfl | ⟨p, name, rfl⟩
  · exact h
  · rw [List.concat_eq_append] at h ⊢
    rw [IsFolder, inside?_snoc] at h
    rw [List.dropLast_concat]
    obtain ⟨ψ, hψ⟩ := Option.isSome_iff_exists.1 h
    obtain ⟨ω, hω, -⟩ := Option.bind_eq_some_iff.1 hψ
    exact Option.isSome_iff_exists.2 ⟨ω, hω⟩

theorem look_of_inside? (h : inside? p t.root = some φ) (name : String) :
    t.look p name
      = if Route.maxName < name.utf8ByteSize then .error .other else .ok (φ.find? name) := by
  rw [look, h]

theorem look_eq_ok_iff (h : inside? p t.root = some φ) {e : Option Entry} :
    t.look p name = .ok e ↔ name.utf8ByteSize ≤ Route.maxName ∧ φ.find? name = e := by
  rw [look_of_inside? h]
  split
  · next long => exact ⟨nofun, fun h => absurd h.1 (Nat.not_le.2 long)⟩
  · next short =>
    exact ⟨fun h => ⟨Nat.not_lt.1 short, Except.ok.inj h⟩, fun h => congrArg Except.ok h.2⟩

/-- Where going on by one name leads. -/
theorem enter_eq_ok_iff (hp : t.IsFolder p) :
    t.enter p name = .ok q ↔
      if name = "." then q = p
      else if name = ".." then q = p.dropLast
      else name.utf8ByteSize ≤ Route.maxName ∧ t.IsFolder (p ++ [name]) ∧ q = p ++ [name] := by
  obtain ⟨φ, hφ⟩ := Option.isSome_iff_exists.1 hp
  have there : t.IsFolder (p ++ [name]) ↔ (φ.find? name >>= Entry.inside?).isSome := by
    rw [IsFolder, inside?_snoc, hφ]
    rfl
  rw [enter, there, look_of_inside? hφ]
  split
  · exact ⟨fun h => (Except.ok.inj h).symm, fun h => congrArg Except.ok h.symm⟩
  · split
    · exact ⟨fun h => (Except.ok.inj h).symm, fun h => congrArg Except.ok h.symm⟩
    · by_cases long : Route.maxName < name.utf8ByteSize
      · rw [if_pos long]
        exact ⟨nofun, fun h => absurd h.1 (Nat.not_le.2 long)⟩
      · rw [if_neg long]
        rcases φ.find? name with _ | β | ψ
        · exact ⟨nofun, fun h => by cases h.2.1⟩
        · exact ⟨nofun, fun h => by cases h.2.1⟩
        · exact ⟨fun h => ⟨Nat.not_lt.1 long, rfl, (Except.ok.inj h).symm⟩,
            fun h => congrArg Except.ok h.2.2.symm⟩

/-- Going on leads to a folder. -/
theorem isFolder_of_enter (hp : t.IsFolder p) (h : t.enter p name = .ok q) : t.IsFolder q := by
  have h := (enter_eq_ok_iff hp).1 h
  split at h
  · exact h ▸ hp
  · split at h
    · exact h ▸ hp.dropLast
    · exact h.2.2 ▸ h.2.1

/-- The same places have folders. -/
def SameFolders (t u : FileTree) : Prop := ∀ p, t.IsFolder p ↔ u.IsFolder p

theorem SameFolders.enter (same : SameFolders t u) (hp : t.IsFolder p)
    (h : t.enter p name = .ok q) : u.enter p name = .ok q := by
  rw [enter_eq_ok_iff ((same p).1 hp), ← same]
  exact (enter_eq_ok_iff hp).1 h

/-- Names lead to a folder, and to the same one in a tree of the same folders. -/
theorem foldlM_enter {names : List String} (hp : t.IsFolder p)
    (h : names.foldlM t.enter p = .ok q) :
    t.IsFolder q ∧ ∀ {u}, SameFolders t u → names.foldlM u.enter p = .ok q := by
  induction names generalizing p with
  | nil =>
    obtain rfl := Except.ok.inj h
    exact ⟨hp, fun _ => rfl⟩
  | cons name names ih =>
    obtain ⟨p', hp', h⟩ := bind_eq_ok_iff.1 h
    obtain ⟨hq, later⟩ := ih (isFolder_of_enter hp hp') h
    exact ⟨hq, fun same => bind_eq_ok_iff.2 ⟨p', same.enter hp hp', later same⟩⟩

theorem exists_inside?_of_foldlM {names : List String} (h : names.foldlM t.enter [] = .ok p) :
    ∃ φ, inside? p t.root = some φ :=
  Option.isSome_iff_exists.1 (foldlM_enter (p := []) rfl h).1

/-! ## Changes of files -/

/-- The folder at a place is changed as it should be. -/
theorem inside?_changeInside {f : Fields Entry → Fields Entry} (h : inside? p φ = some ψ) :
    inside? p (changeInside f p φ) = some (f ψ) := by
  induction p generalizing φ with
  | nil =>
    obtain rfl := Option.some.inj h
    rfl
  | cons name p ih =>
    rw [changeInside]
    rw [inside?] at h
    split at h
    · next ω hω =>
      rw [inside?_cons, Fields.find?_insert, if_pos rfl]
      exact ih h
    · cases h

/-- If only files inside one folder change, no folder comes or goes. -/
theorem isSome_inside?_changeInside {f : Fields Entry → Fields Entry} (h : inside? p φ = some ψ)
    (hf : ∀ name, ((f ψ).find? name >>= Entry.inside?) = (ψ.find? name >>= Entry.inside?))
    (q : Place) : (inside? q (changeInside f p φ)).isSome = (inside? q φ).isSome := by
  induction p generalizing φ q with
  | nil =>
    obtain rfl := Option.some.inj h
    cases q with
    | nil => rfl
    | cons m q => rw [changeInside, inside?_cons, inside?_cons, hf]
  | cons name p ih =>
    rw [changeInside]
    rw [inside?] at h
    split at h
    · next ω hω =>
      cases q with
      | nil => rfl
      | cons m q =>
        rw [inside?_cons, inside?_cons, Fields.find?_insert]
        by_cases hm : name = m
        · rw [if_pos hm, ← hm, hω]
          exact ih h q
        · rw [if_neg hm]
    · cases h

/-- No folder has this name. -/
def NoFolder (φ : Fields Entry) (name : String) : Prop := (φ.find? name >>= Entry.inside?) = none

theorem sameFolders_put (h : inside? p t.root = some φ) (free : NoFolder φ name) (β : Bytes) :
    SameFolders t (t.put p name (.file β)) := by
  intro q
  refine Eq.to_iff (congrArg (· = true) (isSome_inside?_changeInside h (fun m => ?_) q).symm)
  rw [Fields.find?_insert]
  split
  · next hm => rw [← hm, free]; rfl
  · rfl

theorem sameFolders_take (h : inside? p t.root = some φ) (free : NoFolder φ name) :
    SameFolders t (t.take p name) := by
  intro q
  refine Eq.to_iff (congrArg (· = true) (isSome_inside?_changeInside h (fun m => ?_) q).symm)
  rw [Fields.find?_erase]
  split
  · next hm => rw [← hm, free]; rfl
  · rfl

theorem inside?_put (h : inside? p t.root = some φ) (name : String) (e : Entry) :
    inside? p (t.put p name e).root = some (φ.insert name e) :=
  inside?_changeInside h

theorem inside?_take (h : inside? p t.root = some φ) (name : String) :
    inside? p (t.take p name).root = some (φ.erase name) :=
  inside?_changeInside h

/-! ## The content of a folder -/

/-- What is in the folder that the names of a route lead to. -/
def content (t : FileTree) (r : Route) : Except FileError (Fields Entry) := do
  let p ← r.names.foldlM t.enter []
  return (inside? p t.root).getD []

/-- The names of a route with content lead to a folder that holds it. -/
theorem content_eq_ok_iff :
    t.content r = .ok φ ↔ ∃ p, r.names.foldlM t.enter [] = .ok p ∧ inside? p t.root = some φ := by
  rw [content, bind_eq_ok_iff]
  refine exists_congr fun p => and_congr_right fun hp => ?_
  obtain ⟨ψ, hψ⟩ := exists_inside?_of_foldlM hp
  rw [hψ]
  exact ⟨fun h => congrArg some (Except.ok.inj h), fun h => congrArg Except.ok (Option.some.inj h)⟩

/-- What a change of files inside a folder leaves in it. -/
theorem content_of_sameFolders (same : SameFolders t u) (hp : r.names.foldlM t.enter [] = .ok p)
    (h : inside? p u.root = some φ) : u.content r = .ok φ := by
  have root : t.IsFolder [] := rfl
  exact content_eq_ok_iff.2 ⟨p, (foldlM_enter root hp).2 same, h⟩

/-! ## Files in a folder -/

/-- A name that a file can have, if it is not too long. -/
structure Plain (name : String) : Prop where
  /-- it is not the empty name -/
  ne_empty : name ≠ ""
  /-- it does not lead back -/
  not_dots : Route.isDots name = false

/-- There can be a file of this name in the folder at the end of a route. -/
def HasRoom (r : Route) (name : String) : Prop :=
  (r.child name).isPossible = true ∧ name.utf8ByteSize ≤ Route.maxName

instance (r : Route) (name : String) : Decidable (HasRoom r name) :=
  inferInstanceAs (Decidable (_ ∧ _))

/-- A route to a name in a folder ends at that name. -/
theorem locate_child (plain : Plain name) :
    t.locate (r.child name) =
      if (r.child name).isPossible then
        r.names.foldlM t.enter [] >>= fun p => .ok (p, some name)
      else .error .other := by
  have size : (r.child name).size ≠ 0 := by
    have := mt String.utf8ByteSize_eq_zero_iff.1 plain.ne_empty
    simp only [Route.child]
    omega
  have names : (r.child name).names = r.names ++ [name] := rfl
  rw [locate, if_neg size, names, List.dropLast_concat, List.getLast?_concat]
  by_cases possible : (r.child name).isPossible
  · simp only [possible, plain.not_dots, Bool.not_true, Bool.false_eq_true, if_false, if_true]
    rfl
  · simp only [possible, Bool.not_false, Bool.false_eq_true, if_false, if_true]
    rfl

/-- **What a name in a folder stands for.** -/
theorem find_child (plain : Plain name) (h : t.content r = .ok φ) :
    t.find (r.child name) =
      if HasRoom r name then (φ.find? name).elim (.error .missing) .ok else .error .other := by
  obtain ⟨p, hp, hφ⟩ := content_eq_ok_iff.1 h
  rw [find, locate_child plain, hp]
  by_cases possible : (r.child name).isPossible
  · by_cases long : Route.maxName < name.utf8ByteSize
    · rw [if_pos possible, if_neg fun h => absurd h.2 (Nat.not_le.2 long)]
      simp only [bind, Except.bind, look_of_inside? hφ, if_pos long]
    · rw [if_pos possible, if_pos ⟨possible, Nat.not_lt.1 long⟩]
      simp only [bind, Except.bind, look_of_inside? hφ, if_neg long]
      rcases φ.find? name with _ | β | ψ <;> rfl
  · rw [if_neg possible, if_neg fun h => possible h.1]
    rfl

/-- Whether a name in a folder is taken. -/
theorem isThere_child (plain : Plain name) (h : t.content r = .ok φ) :
    t.isThere (r.child name) =
      if HasRoom r name then .ok (φ.find? name).isSome else .error .other := by
  rw [isThere, find_child plain h]
  by_cases room : HasRoom r name
  · rw [if_pos room, if_pos room]
    rcases φ.find? name with _ | e <;> rfl
  · rw [if_neg room, if_neg room]

/-- What is read of a name in a folder. -/
theorem read_child (plain : Plain name) (h : t.content r = .ok φ) :
    t.read (r.child name) =
      if HasRoom r name then
        match φ.find? name with
        | none => .error .missing
        | some (.file β) => .ok β
        | some (.folder _) => .error .other
      else .error .other := by
  rw [read, find_child plain h]
  by_cases room : HasRoom r name
  · rw [if_pos room, if_pos room]
    rcases φ.find? name with _ | β | ψ <;> rfl
  · rw [if_neg room, if_neg room]
    rfl

/-- Only a name in a folder stands for something. -/
theorem exists_content_of_find (plain : Plain name) {e : Entry}
    (h : t.find (r.child name) = .ok e) : ∃ φ, t.content r = .ok φ := by
  rw [find, locate_child plain] at h
  split at h
  · obtain ⟨_, hl, -⟩ := bind_eq_ok_iff.1 h
    obtain ⟨p, hp, -⟩ := bind_eq_ok_iff.1 hl
    exact ⟨_, bind_eq_ok_iff.2 ⟨p, hp, rfl⟩⟩
  · cases h

/-- Where a route to a name in a folder leads that is to be changed. -/
theorem target_child_eq_ok_iff (plain : Plain name) {other : String} :
    t.target (r.child name) = .ok (p, other) ↔
      (r.child name).isPossible = true ∧ r.names.foldlM t.enter [] = .ok p ∧ other = name := by
  rw [target, locate_child plain]
  by_cases possible : (r.child name).isPossible
  · rw [if_pos possible]
    rcases r.names.foldlM t.enter [] with ε | p'
    · exact ⟨nofun, fun h => nomatch h.2.1⟩
    · constructor
      · intro h
        obtain ⟨rfl, rfl⟩ := Prod.mk.inj (Except.ok.inj h)
        exact ⟨possible, rfl, rfl⟩
      · rintro ⟨-, h, rfl⟩
        exact congrArg Except.ok (Prod.ext (Except.ok.inj h) rfl)
  · rw [if_neg possible]
    exact ⟨nofun, fun h => absurd h.1 possible⟩

/-- A file that was written is put in the folder at the end of the route, where no folder had its
name. -/
theorem eq_put_of_write_child (plain : Plain name) {β : Bytes}
    (h : t.write (r.child name) β = .ok u) :
    ∃ p φ, r.names.foldlM t.enter [] = .ok p ∧ inside? p t.root = some φ ∧ HasRoom r name
      ∧ NoFolder φ name ∧ u = t.put p name (.file β) := by
  rw [write] at h
  obtain ⟨⟨p, other⟩, ht, h⟩ := bind_eq_ok_iff.1 h
  obtain ⟨possible, hp, rfl⟩ := (target_child_eq_ok_iff plain).1 ht
  obtain ⟨φ, hφ⟩ := exists_inside?_of_foldlM hp
  obtain ⟨e, he, h⟩ := bind_eq_ok_iff.1 h
  obtain ⟨short, rfl⟩ := (look_eq_ok_iff hφ).1 he
  refine ⟨p, φ, hp, hφ, ⟨possible, short⟩, ?_⟩
  rw [NoFolder]
  rcases hn : φ.find? other with _ | γ | ψ
  · rw [hn] at h
    exact ⟨rfl, (Except.ok.inj h).symm⟩
  · rw [hn] at h
    exact ⟨rfl, (Except.ok.inj h).symm⟩
  · rw [hn] at h
    cases h

/-- **A file that was written** is in the folder then, where no folder had its name. -/
theorem exists_of_write_child (plain : Plain name) {β : Bytes}
    (h : t.write (r.child name) β = .ok u) :
    ∃ φ, t.content r = .ok φ ∧ HasRoom r name ∧ NoFolder φ name
      ∧ u.content r = .ok (φ.insert name (.file β)) := by
  obtain ⟨p, φ, hp, hφ, room, free, rfl⟩ := eq_put_of_write_child plain h
  exact ⟨φ, content_eq_ok_iff.2 ⟨p, hp, hφ⟩, room, free,
    content_of_sameFolders (sameFolders_put hφ free β) hp (inside?_put hφ name _)⟩

/-- A file can be written where there is room for it and no folder has its name. -/
theorem write_child_of_content (plain : Plain name) (h : t.content r = .ok φ)
    (room : HasRoom r name) (free : NoFolder φ name) (β : Bytes) :
    ∃ u, t.write (r.child name) β = .ok u := by
  obtain ⟨p, hp, hφ⟩ := content_eq_ok_iff.1 h
  have target := (target_child_eq_ok_iff plain).2 ⟨room.1, hp, rfl⟩
  have look : t.look p name = .ok (φ.find? name) := (look_eq_ok_iff hφ).2 ⟨room.2, rfl⟩
  refine ⟨t.put p name (.file β), bind_eq_ok_iff.2 ⟨_, target, bind_eq_ok_iff.2 ⟨_, look, ?_⟩⟩⟩
  rw [NoFolder] at free
  rcases hn : φ.find? name with _ | γ | ψ
  · rfl
  · rfl
  · rw [hn] at free
    cases free

theorem SameFolders.trans {w : FileTree} (h : SameFolders t u) (h' : SameFolders u w) :
    SameFolders t w :=
  fun p => (h p).trans (h' p)

/-- A file that was renamed is taken out of the folder at the end of the route and put in there
under its new name, which no folder had. -/
theorem eq_put_of_rename_child (plain : Plain name) {other : String} (plain' : Plain other)
    (hne : name ≠ other) (hp : r.names.foldlM t.enter [] = .ok p) (hφ : inside? p t.root = some φ)
    {β : Bytes} (file : φ.find? name = some (.file β))
    (h : t.rename (r.child name) (r.child other) = .ok u) :
    HasRoom r other ∧ NoFolder φ other ∧ u = (t.take p name).put p other (.file β) := by
  rw [rename] at h
  obtain ⟨⟨p₁, name₁⟩, ht, h⟩ := bind_eq_ok_iff.1 h
  obtain ⟨-, hp₁, rfl⟩ := (target_child_eq_ok_iff plain).1 ht
  obtain ⟨⟨p₂, other₁⟩, ht, h⟩ := bind_eq_ok_iff.1 h
  obtain ⟨possible, hp₂, rfl⟩ := (target_child_eq_ok_iff plain').1 ht
  obtain rfl := Except.ok.inj (hp.symm.trans hp₁)
  obtain rfl := Except.ok.inj (hp.symm.trans hp₂)
  obtain ⟨e, he, h⟩ := bind_eq_ok_iff.1 h
  obtain ⟨-, rfl⟩ := (look_eq_ok_iff hφ).1 he
  obtain ⟨e, he, h⟩ := bind_eq_ok_iff.1 h
  obtain ⟨short, rfl⟩ := (look_eq_ok_iff hφ).1 he
  refine ⟨⟨possible, short⟩, ?_⟩
  have other {e : Entry} : (if p = p ∧ name₁ = other₁ then t else (t.take p name₁).put p other₁ e)
      = (t.take p name₁).put p other₁ e := if_neg fun h => hne h.2
  rw [file] at h
  rw [NoFolder]
  rcases hn : φ.find? other₁ with _ | γ | ψ
  · rw [hn] at h
    exact ⟨rfl, (Except.ok.inj h).symm.trans other⟩
  · rw [hn] at h
    exact ⟨rfl, (Except.ok.inj h).symm.trans other⟩
  · rw [hn] at h
    cases h

/-- **A file that was renamed** has its new name then, which no folder had, and not the old one. -/
theorem exists_of_rename_child (plain : Plain name) {other : String} (plain' : Plain other)
    (hne : name ≠ other) (hφ : t.content r = .ok φ) {β : Bytes}
    (file : φ.find? name = some (.file β))
    (h : t.rename (r.child name) (r.child other) = .ok u) :
    HasRoom r other ∧ NoFolder φ other
      ∧ u.content r = .ok ((φ.erase name).insert other (.file β)) := by
  obtain ⟨p, hp, hφ⟩ := content_eq_ok_iff.1 hφ
  obtain ⟨room, free, rfl⟩ := eq_put_of_rename_child plain plain' hne hp hφ file h
  have taken := inside?_take hφ name
  have freeName : NoFolder φ name := by rw [NoFolder, file]; rfl
  have freeOther : NoFolder (φ.erase name) other := by
    rw [NoFolder, Fields.find?_erase, if_neg hne]
    exact free
  exact ⟨room, free, content_of_sameFolders
    ((sameFolders_take hφ freeName).trans (sameFolders_put taken freeOther β)) hp
    (inside?_put taken other _)⟩

/-- A file can be renamed where there is room for it and no folder has its new name. -/
theorem rename_child_of_content (plain : Plain name) {other : String} (plain' : Plain other)
    (h : t.content r = .ok φ) (room : HasRoom r name) (room' : HasRoom r other) {β : Bytes}
    (file : φ.find? name = some (.file β)) (free : NoFolder φ other) :
    ∃ u, t.rename (r.child name) (r.child other) = .ok u := by
  obtain ⟨p, hp, hφ⟩ := content_eq_ok_iff.1 h
  have target := (target_child_eq_ok_iff plain).2 ⟨room.1, hp, rfl⟩
  have target' := (target_child_eq_ok_iff plain').2 ⟨room'.1, hp, rfl⟩
  have look : t.look p name = .ok (φ.find? name) := (look_eq_ok_iff hφ).2 ⟨room.2, rfl⟩
  have look' : t.look p other = .ok (φ.find? other) := (look_eq_ok_iff hφ).2 ⟨room'.2, rfl⟩
  refine ⟨if p = p ∧ name = other then t else (t.take p name).put p other (.file β), ?_⟩
  refine bind_eq_ok_iff.2 ⟨_, target, bind_eq_ok_iff.2 ⟨_, target', ?_⟩⟩
  refine bind_eq_ok_iff.2 ⟨_, look, bind_eq_ok_iff.2 ⟨_, look', ?_⟩⟩
  rw [NoFolder] at free
  rw [file]
  rcases hn : φ.find? other with _ | γ | ψ
  · rfl
  · rfl
  · rw [hn] at free
    cases free

/-! ## Opening a folder -/

/-- The name that stands for the folder itself leads nowhere else. -/
theorem foldlM_enter_filter (names : List String) (p : Place) :
    (names.filter fun name => name ≠ ".").foldlM t.enter p = names.foldlM t.enter p := by
  induction names generalizing p with
  | nil => rfl
  | cons name names ih =>
    by_cases hn : name = "."
    · have here : t.enter p name = .ok p := by rw [enter, if_pos hn]; rfl
      rw [List.filter_cons_of_neg (by simpa using hn), List.foldlM_cons, here, ih]
      rfl
    · rw [List.filter_cons_of_pos (by simpa using hn), List.foldlM_cons, List.foldlM_cons]
      exact bind_congr ih

/-- No folder is made where all of them are there. -/
theorem foldlM_enterOrMake {names : List String} (h : names.foldlM t.enter p = .ok q) :
    (names.foldlM enterOrMake p).run.run t = (.ok q, t) := by
  induction names generalizing p with
  | nil =>
    obtain rfl := Except.ok.inj h
    rfl
  | cons name names ih =>
    obtain ⟨p', hp', h⟩ := bind_eq_ok_iff.1 h
    have here : (enterOrMake p name).run.run t = (.ok p', t) := by
      simp only [enterOrMake, ExceptT.run, StateT.run, hp']
    rw [List.foldlM_cons, ExceptT.run_bind, StateT.run_bind, here]
    exact ih h

/-- **Where there is a folder, none is made.** -/
theorem makeFolders_of_content (h : t.content r = .ok φ) (possible : r.isPossible = true) :
    (makeFolders r).run.run t = (.ok (), t) := by
  obtain ⟨p, hp, -⟩ := content_eq_ok_iff.1 h
  rw [← foldlM_enter_filter] at hp
  simp only [makeFolders, possible, Bool.not_true, Bool.false_eq_true, if_false]
  generalize r.names.filter (fun name => name ≠ ".") = names at hp ⊢
  have parts : ∃ later, names
      = (if r.names.getLast? = some "." then names.dropLast else names) ++ later := by
    split
    · exact ⟨names.drop (names.length - 1), by rw [List.dropLast_eq_take, List.take_append_drop]⟩
    · exact ⟨[], (List.append_nil _).symm⟩
  obtain ⟨later, hl⟩ := parts
  generalize (if r.names.getLast? = some "." then names.dropLast else names) = made at hl ⊢
  subst hl
  rw [List.foldlM_append] at hp
  obtain ⟨p', hp', hp⟩ := bind_eq_ok_iff.1 hp
  rw [List.drop_left, ExceptT.run_bind, StateT.run_bind,
    foldlM_enterOrMake hp']
  -- what is left to enter after the folders that would be made is there, too
  have here : (get : ExceptT FileError (StateM FileTree) FileTree) t = (.ok t, t) := rfl
  dsimp only [bind, ExceptT.run, StateT.run, ExceptT.bind, ExceptT.mk, ExceptT.bindCont,
    StateT.bind]
  rw [here]
  dsimp only
  rw [hp]
  rfl

/-- A folder is opened by making it. -/
theorem run_openFolder (path : String) (t : FileTree) :
    (files.openFolder path).run t =
      (((makeFolders (.ofText path)).run.run t).1.map fun _ => folder (.ofText path),
        ((makeFolders (.ofText path)).run.run t).2) :=
  rfl

/-- No folders are made on a path that there cannot be. -/
theorem makeFolders_of_impossible (impossible : ¬ r.isPossible = true) (t : FileTree) :
    (makeFolders r).run.run t = (.error .other, t) := by
  rw [makeFolders, if_pos (by simpa using impossible)]
  rfl

/-- A folder that is there is opened, unless there can be no such path. -/
theorem run_openFolder_of_content {path : String} (h : t.content (.ofText path) = .ok φ) :
    (files.openFolder path).run t =
      (if (Route.ofText path).isPossible then .ok (folder (.ofText path)) else .error .other,
        t) := by
  rw [run_openFolder]
  by_cases possible : (Route.ofText path).isPossible
  · rw [makeFolders_of_content h possible, if_pos possible]
    rfl
  · rw [makeFolders_of_impossible possible, if_neg possible]
    rfl

/-- Only a path that there can be is opened. -/
theorem openFolder_eq_ok {path : String} {f : Folder (StateM FileTree)}
    (h : (files.openFolder path).run t = (.ok f, u)) :
    f = folder (.ofText path) ∧ (Route.ofText path).isPossible = true := by
  rw [run_openFolder] at h
  obtain ⟨hf, -⟩ := Prod.mk.inj h
  by_cases possible : (Route.ofText path).isPossible
  · refine ⟨?_, possible⟩
    rcases hm : ((makeFolders (.ofText path)).run.run t).1 with ε | a
    · rw [hm] at hf
      cases hf
    · rw [hm] at hf
      exact (Except.ok.inj hf).symm
  · rw [makeFolders_of_impossible possible] at hf
    cases hf

end FileTree

end BlockWalk
