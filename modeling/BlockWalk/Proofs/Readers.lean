import BlockWalk.Bytes

/-!
# Readers

What is needed again and again to say which inputs a reader accepts: when a chain of readings gives
a result, that a text is determined by its bytes, and that it is read back from them.
-/

namespace BlockWalk

section

variable {ε ε' α β : Type} {x : Except ε α} {b : β}

/-- A chain gives a result if its first part does and what follows does with that. -/
theorem bind_eq_ok_iff {k : α → Except ε β} : x >>= k = .ok b ↔ ∃ a, x = .ok a ∧ k a = .ok b := by
  cases x with
  | error e => exact ⟨nofun, fun ⟨_, h, _⟩ => nomatch h⟩
  | ok a => exact ⟨fun h => ⟨a, rfl, h⟩, fun ⟨_, h, hk⟩ => (Except.ok.inj h) ▸ hk⟩

/-- A chain gives an error if its first part does, or what follows does. -/
theorem bind_eq_error_iff {k : α → Except ε β} {e : ε} :
    x >>= k = .error e ↔ x = .error e ∨ ∃ a, x = .ok a ∧ k a = .error e := by
  cases x with
  | error e' => exact ⟨fun h => .inl (congrArg Except.error (Except.error.inj h)),
      fun h => h.elim (fun h => congrArg Except.error (Except.error.inj h)) nofun⟩
  | ok a => exact ⟨fun h => .inr ⟨a, rfl, h⟩,
      fun h => h.elim nofun fun ⟨_, h, hk⟩ => (Except.ok.inj h) ▸ hk⟩

/-- There is a result where another one is made into it. -/
theorem exists_bind_ok_iff {k : α → β} :
    (∃ b, (x >>= fun a => .ok (k a)) = .ok b) ↔ ∃ a, x = .ok a := by
  constructor
  · rintro ⟨b, h⟩
    obtain ⟨a, ha, -⟩ := bind_eq_ok_iff.1 h
    exact ⟨a, ha⟩
  · rintro ⟨a, ha⟩
    exact ⟨k a, bind_eq_ok_iff.2 ⟨a, ha, rfl⟩⟩

/-- A result is what is made of another result. -/
theorem map_eq_ok_iff {k : α → β} : k <$> x = .ok b ↔ ∃ a, x = .ok a ∧ k a = b := by
  cases x with
  | error e => exact ⟨nofun, fun ⟨_, h, _⟩ => nomatch h⟩
  | ok a => exact ⟨fun h => ⟨a, rfl, Except.ok.inj h⟩,
      fun ⟨_, h, hk⟩ => congrArg Except.ok (Except.ok.inj h ▸ hk)⟩

/-- Other words for an error do not change a result. -/
theorem mapError_eq_ok_iff {g : ε → ε'} {a : α} : x.mapError g = .ok a ↔ x = .ok a := by
  cases x with
  | error e => exact ⟨nofun, nofun⟩
  | ok b => exact ⟨fun h => congrArg Except.ok (Except.ok.inj h),
      fun h => congrArg Except.ok (Except.ok.inj h)⟩

/-- Other words for an error stand for an error. -/
theorem mapError_eq_error_iff {g : ε → ε'} {e : ε'} :
    x.mapError g = .error e ↔ ∃ e', x = .error e' ∧ g e' = e := by
  cases x with
  | error e' => exact ⟨fun h => ⟨e', rfl, Except.error.inj h⟩,
      fun ⟨_, h, he⟩ => congrArg Except.error (Except.error.inj h ▸ he)⟩
  | ok a => exact ⟨nofun, fun ⟨_, h, _⟩ => nomatch h⟩

/-- A check that gives an error, and then the rest. -/
theorem check_eq_ok_iff {c : Prop} [Decidable c] {e : ε} {y : Except ε β} :
    (if c then .error e else y) = .ok b ↔ ¬c ∧ y = .ok b := by
  by_cases h : c <;> simp [h]

/-- A list is read item by item. -/
theorem mapM_cons_eq_ok_iff {f : α → Except ε β} {a : α} {l : List α} {bs : List β} :
    (a :: l).mapM f = .ok bs ↔ ∃ b bs', f a = .ok b ∧ l.mapM f = .ok bs' ∧ bs = b :: bs' := by
  simp only [List.mapM_cons, bind_eq_ok_iff]
  constructor
  · rintro ⟨b, hb, bs', hbs, h⟩
    exact ⟨b, bs', hb, hbs, (Except.ok.inj h).symm⟩
  · rintro ⟨b, bs', hb, hbs, rfl⟩
    exact ⟨b, hb, bs', hbs, rfl⟩

/-- A list is read if every item is. -/
theorem exists_mapM_eq_ok_iff {f : α → Except ε β} {l : List α} :
    (∃ bs, l.mapM f = .ok bs) ↔ ∀ a ∈ l, ∃ b, f a = .ok b := by
  induction l with
  | nil => exact ⟨nofun, fun _ => ⟨[], rfl⟩⟩
  | cons a l ih =>
    rw [List.forall_mem_cons, ← ih]
    constructor
    · rintro ⟨bs, h⟩
      obtain ⟨b, bs', hb, hbs, -⟩ := mapM_cons_eq_ok_iff.1 h
      exact ⟨⟨b, hb⟩, bs', hbs⟩
    · rintro ⟨⟨b, hb⟩, bs', hbs⟩
      exact ⟨b :: bs', mapM_cons_eq_ok_iff.2 ⟨b, bs', hb, hbs, rfl⟩⟩

/-- A list that is not read has an item that is not read. -/
theorem exists_of_mapM_error {f : α → Except ε β} {l : List α} {e : ε}
    (h : l.mapM f = .error e) : ∃ a ∈ l, f a = .error e := by
  induction l with
  | nil => cases h
  | cons a l ih =>
    rw [List.mapM_cons] at h
    obtain ha | ⟨b, -, h⟩ := bind_eq_error_iff.1 h
    · exact ⟨a, List.mem_cons_self, ha⟩
    · obtain h | ⟨bs, -, h⟩ := bind_eq_error_iff.1 h
      · obtain ⟨c, hc, he⟩ := ih h
        exact ⟨c, List.mem_cons_of_mem a hc, he⟩
      · cases h

/-- What is read from a list is read from one of its items. -/
theorem exists_of_mem_mapM {f : α → Except ε β} {l : List α} {bs : List β} (hl : l.mapM f = .ok bs)
    (hb : b ∈ bs) : ∃ a ∈ l, f a = .ok b := by
  induction l generalizing bs with
  | nil =>
    obtain rfl : [] = bs := Except.ok.inj hl
    cases hb
  | cons a l ih =>
    obtain ⟨c, cs, hc, hcs, rfl⟩ := mapM_cons_eq_ok_iff.1 hl
    rcases List.mem_cons.1 hb with rfl | hb
    · exact ⟨a, List.mem_cons_self, hc⟩
    · obtain ⟨d, hd, h⟩ := ih hcs hb
      exact ⟨d, List.mem_cons_of_mem a hd, h⟩

/-- What is read from the items of a list is read in its turn, item by item. -/
theorem mapM_of_mapM {γ : Type} {f : α → Except ε β} {g : β → Except ε' γ} {k : α → γ}
    {l : List α} {bs : List β} (h : ∀ a ∈ l, ∀ b, f a = .ok b → g b = .ok (k a))
    (hl : l.mapM f = .ok bs) : bs.mapM g = .ok (l.map k) := by
  induction l generalizing bs with
  | nil =>
    obtain rfl : [] = bs := Except.ok.inj hl
    rfl
  | cons a l ih =>
    obtain ⟨ha, hl'⟩ := List.forall_mem_cons.1 h
    obtain ⟨b, bs', hb, hbs, rfl⟩ := mapM_cons_eq_ok_iff.1 hl
    exact mapM_cons_eq_ok_iff.2 ⟨k a, l.map k, ha b hb, ih hl' hbs, rfl⟩

/-- What is the same for an item and for what it is read to is the same for a list. -/
theorem map_eq_of_mapM {γ : Type} {f : α → Except ε β} {g : β → γ} {k : α → γ} {l : List α}
    {bs : List β} (h : ∀ a ∈ l, ∀ b, f a = .ok b → g b = k a) (hl : l.mapM f = .ok bs) :
    bs.map g = l.map k := by
  induction l generalizing bs with
  | nil =>
    obtain rfl : [] = bs := Except.ok.inj hl
    rfl
  | cons a l ih =>
    obtain ⟨ha, hl'⟩ := List.forall_mem_cons.1 h
    obtain ⟨b, bs', hb, hbs, rfl⟩ := mapM_cons_eq_ok_iff.1 hl
    rw [List.map_cons, List.map_cons, ha b hb, ih hl' hbs]

/-- Only the items matter. -/
theorem mapM_congr {f g : α → Except ε β} {l : List α} (h : ∀ a ∈ l, f a = g a) :
    l.mapM f = l.mapM g := by
  induction l with
  | nil => rfl
  | cons a l ih =>
    obtain ⟨ha, hl⟩ := List.forall_mem_cons.1 h
    rw [List.mapM_cons, List.mapM_cons, ha, ih hl]

/-- A list is read if every item is read, and to the same. -/
theorem mapM_eq_ok_mono {f : α → Except ε β} {g : α → Except ε' β} {l : List α} {bs : List β}
    (h : ∀ a ∈ l, ∀ b, f a = .ok b → g a = .ok b) (hl : l.mapM f = .ok bs) :
    l.mapM g = .ok bs := by
  induction l generalizing bs with
  | nil =>
    obtain rfl : [] = bs := Except.ok.inj hl
    rfl
  | cons a l ih =>
    obtain ⟨ha, hl'⟩ := List.forall_mem_cons.1 h
    obtain ⟨b, bs', hb, hbs, rfl⟩ := mapM_cons_eq_ok_iff.1 hl
    exact mapM_cons_eq_ok_iff.2 ⟨b, bs', ha b hb, ih hl' hbs, rfl⟩

end

namespace Bytes

/-- A text is determined by its bytes. -/
theorem ofText_injective : Function.Injective ofText := by
  intro s t h
  refine String.toByteArray_inj.1 (ByteArray.ext ?_)
  exact Array.toList_inj.1 h

/-- A text is read back from its bytes. -/
theorem toText?_ofText (s : String) : toText? (ofText s) = some s := by
  have valid : s.toByteArray.IsValidUTF8 := s.isValidUTF8
  have bytes : (⟨(ofText s).toArray⟩ : ByteArray) = s.toByteArray := by simp [ofText]
  rw [toText?, bytes, String.fromUTF8?, dif_pos valid]
  exact congrArg some (String.toByteArray_inj.1 rfl)

theorem length_ofText (s : String) : (ofText s).length = s.utf8ByteSize := by
  simp [ofText]

/-- The bytes of characters below 128 are their numbers. -/
theorem ofText_ofList {cs : List Char} (h : ∀ c ∈ cs, c.utf8Size = 1) :
    ofText (String.ofList cs) = cs.map Char.toUInt8 := by
  induction cs with
  | nil => rfl
  | cons c cs ih =>
    have hcs := ih fun d hd => h d (List.mem_cons_of_mem c hd)
    simp only [ofText, String.toUTF8_eq_toByteArray, String.toByteArray_ofList] at hcs ⊢
    rw [List.utf8Encode_cons, List.utf8Encode_singleton,
      String.utf8EncodeChar_eq_singleton (h c List.mem_cons_self), ByteArray.data_append,
      Array.toList_append, hcs]
    rfl

end Bytes

end BlockWalk
