/-!
# Members in key order

Objects, maps and tables name their members by texts. The members are kept in the order of their
names, which is the order of the bytes of the names, and each name occurs once: `Sorted`.

* `Fields.find?` — the member of a name.
* `Fields.insert` — puts a member in its place, over an earlier one of its name.
* `Fields.erase` — takes a member out.
* `Fields.ofList` — puts members in one after the other, so that the last of a name stays.
-/

namespace BlockWalk

/-- Named members. -/
abbrev Fields (α : Type) : Type := List (String × α)

namespace Fields

variable {α : Type}

/-- The names increase, so no name occurs twice. -/
def Sorted (φ : Fields α) : Prop := φ.Pairwise fun e f => e.1 < f.1

/-- The member of the given name. -/
def find? (k : String) (φ : Fields α) : Option α := (List.find? (fun e => e.1 == k) φ).map Prod.snd

/-- Is there a member of the given name? -/
def contains (k : String) (φ : Fields α) : Bool := φ.any fun e => e.1 == k

/-- The names, in order. -/
def names (φ : Fields α) : List String := φ.map Prod.fst

/-- Puts a member in its place. A member of the same name is replaced. -/
def insert (k : String) (a : α) : Fields α → Fields α
  | [] => [(k, a)]
  | e :: φ =>
    if k < e.1 then (k, a) :: e :: φ
    else if k = e.1 then (k, a) :: φ
    else e :: insert k a φ

/-- Takes the member of the given name out. -/
def erase (k : String) (φ : Fields α) : Fields α := φ.filter fun e => e.1 != k

/-- Puts the members of a list in, first to last. -/
def ofList (l : List (String × α)) : Fields α := l.foldl (fun φ e => insert e.1 e.2 φ) []

theorem find?_cons (k : String) (e : String × α) (φ : Fields α) :
    find? k (e :: φ) = if e.1 = k then some e.2 else find? k φ := by
  by_cases h : e.1 = k <;> simp [find?, h]

/-- What has no name among the members is not found. -/
theorem find?_eq_none {k : String} {φ : Fields α} : φ.find? k = none ↔ k ∉ φ.names := by
  induction φ with
  | nil => simp [find?, names]
  | cons e φ ih =>
    rw [find?_cons, names, List.map_cons, List.mem_cons, not_or, ← names, ← ih]
    split
    · next h => simp [h]
    · next h => exact ⟨fun hn => ⟨fun hk => h hk.symm, hn⟩, And.right⟩

/-- What has a name among the members is found. -/
theorem exists_find?_eq_some {k : String} {φ : Fields α} :
    (∃ a, φ.find? k = some a) ↔ k ∈ φ.names := by
  rw [← Option.ne_none_iff_exists', ne_eq, find?_eq_none, Decidable.not_not]

theorem contains_iff {k : String} {φ : Fields α} : φ.contains k ↔ k ∈ φ.names := by
  simp [contains, names]

/-- Only what is put in is found in a new way. -/
theorem find?_insert (φ : Fields α) (k l : String) (a : α) :
    (φ.insert k a).find? l = if k = l then some a else φ.find? l := by
  induction φ with
  | nil => rw [insert, find?_cons]
  | cons e φ ih =>
    unfold insert
    split
    · rw [find?_cons]
    · split
      · next h => simp only [find?_cons, ← h]; split <;> rfl
      · next h =>
        -- the members before the place of `k` have other names
        rw [find?_cons, find?_cons, ih]
        split
        · next he => rw [if_neg fun hk => h (hk.trans he.symm)]
        · rfl

/-- A member is the one put in, or was there before. -/
theorem find?_insert_eq_some {φ : Fields α} {k l : String} {a b : α} :
    (φ.insert k a).find? l = some b ↔ l = k ∧ a = b ∨ l ≠ k ∧ φ.find? l = some b := by
  rw [find?_insert]
  by_cases h : k = l
  · simp [h]
  · simp [h, Ne.symm h]

/-- A member is the one put in, or was there before. -/
theorem mem_insert {φ : Fields α} {k : String} {a : α} {e : String × α} (h : e ∈ φ.insert k a) :
    e = (k, a) ∨ e ∈ φ := by
  induction φ with
  | nil => exact .inl (List.mem_singleton.1 h)
  | cons f φ ih =>
    unfold insert at h
    split at h
    · exact List.mem_cons.1 h
    · split at h
      · exact (List.mem_cons.1 h).imp_right (List.mem_cons_of_mem f)
      · rcases List.mem_cons.1 h with rfl | h
        · exact .inr List.mem_cons_self
        · exact (ih h).imp_right (List.mem_cons_of_mem f)

/-- Members stay in order when one is put in. -/
theorem Sorted.insert {φ : Fields α} (h : Sorted φ) (k : String) (a : α) :
    Sorted (φ.insert k a) := by
  induction φ with
  | nil => exact List.pairwise_singleton ..
  | cons e φ ih =>
    obtain ⟨he, hφ⟩ := List.pairwise_cons.1 h
    unfold Fields.insert
    split
    · next hk =>
      refine List.pairwise_cons.2 ⟨fun f hf => ?_, h⟩
      rcases List.mem_cons.1 hf with rfl | hf
      · exact hk
      · exact String.lt_trans hk (he f hf)
    · next hk =>
      split
      · next hk =>
        subst hk
        exact List.pairwise_cons.2 ⟨he, hφ⟩
      · next hne =>
        refine List.pairwise_cons.2 ⟨fun f hf => ?_, ih hφ⟩
        rcases mem_insert hf with rfl | hf
        · -- one of the two comes first, and it is not `k`
          exact Decidable.byContradiction fun he =>
            hne (String.le_antisymm (String.not_lt.1 he) (String.not_lt.1 hk))
        · exact he f hf

/-- A member whose name comes last is put at the end. -/
theorem insert_of_forall_lt {φ : Fields α} {k : String} (a : α) (h : ∀ e ∈ φ, e.1 < k) :
    φ.insert k a = φ ++ [(k, a)] := by
  induction φ with
  | nil => rfl
  | cons e φ ih =>
    have he : e.1 < k := h e List.mem_cons_self
    have hφ : ∀ f ∈ φ, f.1 < k := fun f hf => h f (List.mem_cons_of_mem e hf)
    rw [insert, if_neg (String.lt_asymm he), if_neg (Ne.symm (String.ne_of_lt he)), ih hφ]
    rfl

/-- Members in order stay in order when they are put in one after the other. -/
theorem foldl_insert_of_sorted {before later : Fields α} (h : Sorted (before ++ later)) :
    later.foldl (fun φ e => insert e.1 e.2 φ) before = before ++ later := by
  induction later generalizing before with
  | nil => rw [List.foldl_nil, List.append_nil]
  | cons e later ih =>
    have last : ∀ f ∈ before, f.1 < e.1 := fun f hf =>
      (List.pairwise_append.1 h).2.2 f hf e List.mem_cons_self
    have h' : Sorted (before ++ [(e.1, e.2)] ++ later) := by rwa [List.append_assoc]
    rw [List.foldl_cons, insert_of_forall_lt e.2 last, ih h', List.append_assoc]
    rfl

/-- Members in order are what they are put together from. -/
theorem ofList_of_sorted {φ : Fields α} (h : Sorted φ) : ofList φ = φ := by
  have inOrder : Sorted ([] ++ φ) := h
  exact foldl_insert_of_sorted inOrder

/-- A member is smaller than the members it is among: what recursion on members descends by. -/
theorem sizeOf_value_lt [SizeOf α] {e : String × α} {φ : Fields α} (h : e ∈ φ) :
    sizeOf e.2 < sizeOf φ := by
  have h₁ := List.sizeOf_lt_of_mem h
  have h₂ : sizeOf e = 1 + sizeOf e.1 + sizeOf e.2 := rfl
  omega

end Fields

end BlockWalk
