import BlockWalk.Json.Reader
import BlockWalk.Proofs.JsonTokens

/-!
# JSON texts read back

The text of a value is read as the value, if it holds integers only, its objects are in the order of
their names, and it is not nested deeper than a reader goes (`Json.ofText?_compact`). There are two
parts to this: the text spells the tokens of the value (`Json.spelled_tokens`), and a reader that is
given these tokens in the middle of any container puts the value there (`Json.Reader.reads_tokens`).
The text has no end of line in it (`Json.newline_not_mem_compact`).

The other way round, whatever a reader makes of a text is in order and not nested too deep
(`Json.tidy_of_ofText?`). Every step of the reader keeps this for the containers that are open
(`Json.Reader.State.Valid.step`).
-/

namespace BlockWalk.Json

/-- No number in the value is a floating point number. -/
inductive FloatFree : Json → Prop
  /-- a value without parts -/
  | null : FloatFree null
  /-- a value without parts -/
  | bool (b : Bool) : FloatFree (bool b)
  /-- an integer -/
  | int (n : Int) (lower : -0x8000000000000000 ≤ n) (upper : n < 0x10000000000000000) :
      FloatFree (num (.int n lower upper))
  /-- a value without parts -/
  | str (s : String) : FloatFree (str s)
  /-- an array of such values -/
  | arr {items : List Json} (h : ∀ v ∈ items, FloatFree v) : FloatFree (arr items)
  /-- an object with such values -/
  | obj {members : List (String × Json)} (h : ∀ e ∈ members, FloatFree e.2) :
      FloatFree (obj members)

/-- How many arrays and objects stand inside each other. -/
def nesting : Json → Nat
  | arr items => 1 + (items.map nesting).foldr max 0
  | obj members => 1 + (members.map fun e => nesting e.2).foldr max 0
  | _ => 0
decreasing_by
  · decreasing_tactic
  · have := Fields.sizeOf_value_lt ‹_›
    simp only [obj.sizeOf_spec]
    omega

theorem foldr_max_le_iff {l : List Nat} {n : Nat} : l.foldr max 0 ≤ n ↔ ∀ a ∈ l, a ≤ n := by
  induction l with
  | nil => simp
  | cons a l ih => rw [List.foldr_cons, Nat.max_le, ih, List.forall_mem_cons]

theorem nesting_arr_le_iff {items : List Json} {n : Nat} :
    nesting (arr items) ≤ n + 1 ↔ ∀ v ∈ items, v.nesting ≤ n := by
  have h : nesting (arr items) = (items.map nesting).foldr max 0 + 1 := by
    rw [nesting, Nat.add_comm]
  rw [h, Nat.add_le_add_iff_right, foldr_max_le_iff, List.forall_mem_map]

theorem nesting_obj_le_iff {members : List (String × Json)} {n : Nat} :
    nesting (obj members) ≤ n + 1 ↔ ∀ e ∈ members, e.2.nesting ≤ n := by
  have h : nesting (obj members) = (members.map fun e => nesting e.2).foldr max 0 + 1 := by
    rw [nesting, Nat.add_comm]
  rw [h, Nat.add_le_add_iff_right, foldr_max_le_iff, List.forall_mem_map]

/-! ## The text of a value spells its tokens -/

theorem tokens_arr (items : List Json) :
    tokens (arr items)
      = .openArray :: (List.intercalate [.comma] (items.map tokens) ++ [.closeArray]) := by
  rw [tokens]

/-- The tokens of a member. -/
def memberTokens (e : String × Json) : List Token := .str e.1 :: .colon :: e.2.tokens

theorem tokens_obj (members : List (String × Json)) :
    tokens (obj members)
      = .openObject
        :: (List.intercalate [.comma] (members.map memberTokens) ++ [.closeObject]) := by
  rw [tokens]
  rfl

namespace Token

/-- The text `π` is a way to write the tokens `ts`, before a rest that no word or number goes on
in. -/
def Written (π : List Char) (ts : List Token) : Prop :=
  ∀ σ later, Apart σ → Spells σ later → Spells (π ++ σ) (ts ++ later)

section

variable {π ρ : List Char} {ts us : List Token}

/-- Tokens that are written one after the other. -/
theorem Written.append (h : Written π ts) (h' : Written ρ us) (apart : ∀ σ, Apart (ρ ++ σ)) :
    Written (π ++ ρ) (ts ++ us) := by
  intro σ later hσ rest
  rw [List.append_assoc, List.append_assoc]
  exact h _ _ (apart σ) (h' σ later hσ rest)

/-- A token before others. -/
theorem Written.cons {t : Token} (exact : t.Exact) (solid : ¬t.Solid) (h : Written π ts) :
    Written (t.text.toList ++ π) (t :: ts) := by
  intro σ later hσ rest
  rw [List.append_assoc]
  exact .token exact (fun h => absurd h solid) (h σ later hσ rest)

/-- A token by itself. -/
theorem written_token {t : Token} (exact : t.Exact) : Written t.text.toList [t] :=
  fun _ _ hσ rest => .token exact (fun _ => hσ) rest

end

/-- The text of tokens, without blanks. -/
def spell (ts : List Token) : List Char := ts.flatMap fun t => t.text.toList

/-- Tokens that are spelled by their text, before a rest that no word or number goes on in. -/
def Spelled (ts : List Token) : Prop :=
  ∀ σ later, Apart σ → Spells σ later → Spells (spell ts ++ σ) (ts ++ later)

theorem spell_append (ts us : List Token) : spell (ts ++ us) = spell ts ++ spell us :=
  List.flatMap_append

theorem apart_cons {c : Char} (σ : List Char) (hn : Scanner.inNumber c = false)
    (hl : c.isLower = false) : Apart (c :: σ) := by
  rintro _ ⟨⟩
  exact ⟨hn, hl⟩

/-- Without blanks, tokens are written as they are spelled. -/
theorem spelled_iff_written {ts : List Token} : Spelled ts ↔ Written (spell ts) ts := .rfl

/-- One token is spelled by its text. -/
theorem spelled_singleton {t : Token} (exact : t.Exact) : Spelled [t] := by
  rw [spelled_iff_written, spell, List.flatMap_singleton]
  exact written_token exact

/-- Tokens after one that is seen to end. -/
theorem Spelled.cons {t : Token} {ts : List Token} (exact : t.Exact) (solid : ¬t.Solid)
    (h : Spelled ts) : Spelled (t :: ts) :=
  Written.cons exact solid h

/-- Tokens before one that cannot belong to a word or number. -/
theorem Spelled.append {ts us : List Token} (h : Spelled ts) (h' : Spelled us)
    (apart : ∀ σ, Apart (spell us ++ σ)) : Spelled (ts ++ us) := by
  rw [spelled_iff_written, spell_append]
  exact Written.append h h' apart

/-- Parts with commas between them. -/
theorem spelled_intercalate {parts : List (List Token)} (h : ∀ ts ∈ parts, Spelled ts) :
    Spelled (List.intercalate [.comma] parts) := by
  match parts with
  | [] => exact fun σ later _ rest => rest
  | [ts] =>
    rw [List.intercalate_singleton]
    exact h ts List.mem_cons_self
  | ts :: us :: parts =>
    obtain ⟨hts, hparts⟩ := List.forall_mem_cons.1 h
    rw [List.intercalate_cons_cons, List.append_assoc]
    exact hts.append (.cons trivial id (spelled_intercalate hparts)) fun σ => apart_cons _ rfl rfl

end Token

/-- **The text of a value spells its tokens.** -/
theorem spelled_tokens {v : Json} (h : v.FloatFree) : Token.Spelled v.tokens := by
  induction h with
  | arr _ ih =>
    rw [tokens_arr]
    refine .cons trivial id ((Token.spelled_intercalate ?_).append
      (Token.spelled_singleton trivial) fun σ => Token.apart_cons _ rfl rfl)
    exact List.forall_mem_map.2 ih
  | obj _ ih =>
    rw [tokens_obj]
    refine .cons trivial id ((Token.spelled_intercalate ?_).append
      (Token.spelled_singleton trivial) fun σ => Token.apart_cons _ rfl rfl)
    refine List.forall_mem_map.2 fun e he => ?_
    exact .cons trivial id (.cons trivial id (ih e he))
  | _ =>
    rw [tokens]
    exact Token.spelled_singleton trivial

theorem scan?_compact {v : Json} (h : v.FloatFree) :
    Token.scan? v.compact.toList = some v.tokens := by
  have text : v.compact.toList = Token.spell v.tokens ++ [] := by
    rw [compact, String.toList_join, List.flatMap_map, List.append_nil]
    rfl
  have spells := spelled_tokens h [] [] nofun .nil
  rw [List.append_nil v.tokens] at spells
  rw [text]
  exact Token.scan?_of_spells spells

/-! ## The text of a value is one line -/

theorem newline_not_mem_hexadecimalPadded :
    ∀ n < 32, '\n' ∉ (Text.hexadecimalPadded 4 n).toList := by
  decide

/-- No character between quotes ends the line. -/
theorem newline_not_mem_escape (c : Char) : '\n' ∉ escape c := by
  by_cases newline : c = '\n'
  · subst newline
    decide
  · unfold escape
    repeat' split
    all_goals
      first
      | decide
      | next h => simp [newline_not_mem_hexadecimalPadded _ h]
      | simp [Ne.symm newline]

namespace Token

/-- No token ends the line. -/
theorem newline_not_mem_text {t : Token} (exact : t.Exact) : '\n' ∉ t.text.toList := by
  cases t with
  | num n =>
    cases n with
    | int n lower upper =>
      obtain ⟨c, σ, hσ, first, later⟩ := Scanner.text_int_eq_cons n lower upper
      rw [text, hσ]
      intro h
      rcases List.mem_cons.1 h with rfl | h
      · rcases first with first | first <;> cases first
      · cases later _ h
    | float x finite => cases exact
  | str s =>
    have quoted : (text (.str s)).toList = '"' :: (s.toList.flatMap escape ++ ['"']) :=
      String.toList_ofList
    simp [quoted, newline_not_mem_escape]
  | bool b => cases b <;> decide
  | _ => decide

theorem forall_mem_intercalate {P : Token → Prop} (comma : P .comma) {parts : List (List Token)}
    (h : ∀ ts ∈ parts, ∀ t ∈ ts, P t) : ∀ t ∈ List.intercalate [.comma] parts, P t := by
  match parts with
  | [] => exact List.forall_mem_nil _
  | [ts] =>
    rw [List.intercalate_singleton]
    exact h ts List.mem_cons_self
  | ts :: us :: parts =>
    obtain ⟨hts, hparts⟩ := List.forall_mem_cons.1 h
    rw [List.intercalate_cons_cons]
    intro t ht
    rcases List.mem_append.1 ht with ht | ht
    · rcases List.mem_append.1 ht with ht | ht
      · exact hts t ht
      · rw [List.mem_singleton.1 ht]
        exact comma
    · exact forall_mem_intercalate comma hparts t ht

end Token

/-- A value without floating point numbers has no tokens of them. -/
theorem exact_tokens {v : Json} (h : v.FloatFree) : ∀ t ∈ v.tokens, t.Exact := by
  induction h with
  | arr _ ih =>
    have items := Token.forall_mem_intercalate (P := Token.Exact) trivial
      (List.forall_mem_map.2 ih)
    rw [tokens_arr]
    refine List.forall_mem_cons.2 ⟨trivial, List.forall_mem_append.2 ⟨items, ?_⟩⟩
    exact List.forall_mem_singleton.2 trivial
  | @obj members _ ih =>
    have member : ∀ e ∈ members, ∀ t ∈ memberTokens e, t.Exact := fun e he =>
      List.forall_mem_cons.2 ⟨trivial, List.forall_mem_cons.2 ⟨trivial, ih e he⟩⟩
    have members := Token.forall_mem_intercalate (P := Token.Exact) trivial
      (List.forall_mem_map.2 member)
    rw [tokens_obj]
    refine List.forall_mem_cons.2 ⟨trivial, List.forall_mem_append.2 ⟨members, ?_⟩⟩
    exact List.forall_mem_singleton.2 trivial
  | _ =>
    rw [tokens]
    exact List.forall_mem_singleton.2 trivial

theorem newline_not_mem_compact {v : Json} (h : v.FloatFree) : '\n' ∉ v.compact.toList := by
  rw [compact, String.toList_join, List.flatMap_map]
  intro mem
  obtain ⟨t, ht, mem⟩ := List.mem_flatMap.1 mem
  exact Token.newline_not_mem_text (exact_tokens h t ht) mem

/-! ## The tokens of a value are read as the value -/

namespace Reader

/-- Tokens taken in one after the other. -/
def read (s : State) (ts : List Token) : Option State := ts.foldlM step s

theorem read_append (s : State) (ts us : List Token) :
    read s (ts ++ us) = read s ts >>= fun s => read s us :=
  List.foldlM_append

/-- A container is opened where there is room for it. -/
theorem read_push {κ : List Container} {t : Token} (c : Container) (p : Phase)
    (h : κ.length < maxDepth) (begins : begin κ t = push c p κ) :
    read ⟨κ, .value⟩ [t] = some ⟨c :: κ, p⟩ := by
  have first : step ⟨κ, .value⟩ t = some ⟨c :: κ, p⟩ := begins.trans (if_pos h)
  rw [read, List.foldlM_cons, first]
  rfl

/-- The tokens `ts` are read as one value: where a value may come, `v` is accepted after them. -/
def Reads (ts : List Token) (v : Json) (κ : List Container) : Prop :=
  read ⟨κ, .value⟩ ts = some (accept v κ)

/-- Where the first item may come, anything but the end is read as a value. -/
theorem read_firstItem {κ : List Container} {t : Token} (h : t ≠ .closeArray) (ts : List Token) :
    read ⟨κ, .firstItem⟩ (t :: ts) = read ⟨κ, .value⟩ (t :: ts) := by
  have first : step ⟨κ, .firstItem⟩ t = step ⟨κ, .value⟩ t := if_neg h
  rw [read, read, List.foldlM_cons, List.foldlM_cons, first]

/-- Items with commas between them are read one after the other. -/
theorem read_items {κ : List Container} {items : List Json} (h : items ≠ [])
    (each : ∀ v ∈ items, ∀ before, Reads v.tokens v (.array before :: κ)) (before : List Json) :
    read ⟨.array before :: κ, .value⟩ (List.intercalate [.comma] (items.map tokens))
      = some ⟨.array (items.reverse ++ before) :: κ, .separator⟩ := by
  induction items generalizing before with
  | nil => exact absurd rfl h
  | cons v items ih =>
    obtain ⟨hv, hitems⟩ := List.forall_mem_cons.1 each
    have first : read _ v.tokens = some ⟨.array (v :: before) :: κ, .separator⟩ := hv before
    cases items with
    | nil =>
      rw [List.map_singleton, List.intercalate_singleton, first]
      rfl
    | cons w items =>
      have comma : read ⟨.array (v :: before) :: κ, .separator⟩ [.comma]
          = some ⟨.array (v :: before) :: κ, .value⟩ := rfl
      rw [List.map_cons, List.map_cons, List.intercalate_cons_cons, List.append_assoc, read_append,
        first, Option.bind_eq_bind, Option.bind_some, read_append, comma, Option.bind_eq_bind,
        Option.bind_some, ← List.map_cons, ih (List.cons_ne_nil w items) hitems,
        List.reverse_cons (a := v), List.append_assoc]
      rfl

/-- A member is read where a name may come. -/
theorem read_member {κ : List Container} {e : String × Json} {φ : Fields Json} (name : String)
    (h : Reads e.2.tokens e.2 (.object φ e.1 :: κ)) :
    read ⟨.object φ name :: κ, .name⟩ (memberTokens e)
      = some ⟨.object (φ.insert e.1 e.2) e.1 :: κ, .separator⟩ := h

/-- Members with commas between them are put in one after the other. -/
theorem read_members {κ : List Container} {members : Fields Json} (h : members ≠ [])
    (each : ∀ e ∈ members, ∀ φ, Reads e.2.tokens e.2 (.object φ e.1 :: κ)) (φ : Fields Json)
    (name : String) :
    ∃ name', read ⟨.object φ name :: κ, .name⟩
        (List.intercalate [.comma] (members.map memberTokens))
      = some ⟨.object (members.foldl (fun φ e => φ.insert e.1 e.2) φ) name' :: κ, .separator⟩ := by
  induction members generalizing φ name with
  | nil => exact absurd rfl h
  | cons e members ih =>
    obtain ⟨he, hmembers⟩ := List.forall_mem_cons.1 each
    have first := read_member name (he φ)
    cases members with
    | nil =>
      rw [List.map_singleton, List.intercalate_singleton, first]
      exact ⟨e.1, rfl⟩
    | cons f members =>
      have comma : read ⟨.object (φ.insert e.1 e.2) e.1 :: κ, .separator⟩ [.comma]
          = some ⟨.object (φ.insert e.1 e.2) e.1 :: κ, .name⟩ := rfl
      rw [List.map_cons, List.map_cons, List.intercalate_cons_cons, List.append_assoc, read_append,
        first, Option.bind_eq_bind, Option.bind_some, read_append, comma, Option.bind_eq_bind,
        Option.bind_some, ← List.map_cons]
      exact ih (List.cons_ne_nil f members) hmembers _ _

end Reader

open Reader

/-- The first token of a value is not the end of an array. -/
theorem tokens_eq_cons (v : Json) : ∃ t ts, v.tokens = t :: ts ∧ t ≠ .closeArray := by
  cases v with
  | null => exact ⟨.null, [], by rw [tokens], by simp⟩
  | bool b => exact ⟨.bool b, [], by rw [tokens], by simp⟩
  | num n => exact ⟨.num n, [], by rw [tokens], by simp⟩
  | str s => exact ⟨.str s, [], by rw [tokens], by simp⟩
  | arr items => exact ⟨.openArray, _, tokens_arr items, by simp⟩
  | obj members => exact ⟨.openObject, _, tokens_obj members, by simp⟩

/-- The items of an array are read after its bracket as they are where a value may come. -/
theorem read_items_firstItem {κ : List Container} {items : List Json} (h : items ≠ []) :
    read ⟨κ, .firstItem⟩ (List.intercalate [.comma] (items.map tokens))
      = read ⟨κ, .value⟩ (List.intercalate [.comma] (items.map tokens)) := by
  cases items with
  | nil => exact absurd rfl h
  | cons v items =>
    obtain ⟨t, ts, ht, first⟩ := tokens_eq_cons v
    obtain ⟨us, hus⟩ : ∃ us, List.intercalate [.comma] ((v :: items).map tokens) = t :: us := by
      cases items with
      | nil => exact ⟨ts, by rw [List.map_singleton, List.intercalate_singleton, ht]⟩
      | cons w items =>
        exact ⟨_, by rw [List.map_cons, List.map_cons, List.intercalate_cons_cons, ht]; rfl⟩
    rw [hus, read_firstItem first]

/-- The members of an object are read after its bracket as they are where a name may come. -/
theorem read_members_firstName {κ : List Container} {members : Fields Json} (h : members ≠ []) :
    read ⟨κ, .firstName⟩ (List.intercalate [.comma] (members.map memberTokens))
      = read ⟨κ, .name⟩ (List.intercalate [.comma] (members.map memberTokens)) := by
  cases members with
  | nil => exact absurd rfl h
  | cons e members =>
    cases members with
    | nil => rw [List.map_singleton, List.intercalate_singleton]; rfl
    | cons f members => rw [List.map_cons, List.map_cons, List.intercalate_cons_cons]; rfl

/-- **The tokens of a value are read as the value**, if its members are in order and it is not
nested too deep. -/
theorem reads_tokens {v : Json} (sorted : v.Sorted) {κ : List Container}
    (deep : κ.length + v.nesting ≤ maxDepth) : Reads v.tokens v κ := by
  induction v using Json.ind generalizing κ with
  | arr items ih =>
    obtain ⟨n, hn⟩ : ∃ n, nesting (arr items) = n + 1 := ⟨_, by rw [nesting, Nat.add_comm]⟩
    have opened : read ⟨κ, .value⟩ [.openArray] = some ⟨.array [] :: κ, .firstItem⟩ :=
      read_push _ _ (by omega) rfl
    -- the items are read in the open array, and are one level less deep
    have each (v : Json) (hv : v ∈ items) (before : List Json) :
        Reads v.tokens v (.array before :: κ) := by
      cases sorted with
      | arr sorted =>
        have le := nesting_arr_le_iff.1 (Nat.le_of_eq hn) v hv
        exact ih v hv (sorted v hv) (by rw [List.length_cons]; omega)
    rw [Reads, tokens_arr, ← List.singleton_append, read_append, opened, Option.bind_eq_bind,
      Option.bind_some, read_append]
    by_cases empty : items = []
    · subst empty
      rfl
    · have closed : read ⟨.array (items.reverse ++ []) :: κ, .separator⟩ [.closeArray]
          = some (accept (arr (items.reverse ++ []).reverse) κ) := rfl
      rw [read_items_firstItem empty, read_items empty each, Option.bind_eq_bind, Option.bind_some,
        closed, List.append_nil, List.reverse_reverse]
  | obj members ih =>
    obtain ⟨n, hn⟩ : ∃ n, nesting (obj members) = n + 1 := ⟨_, by rw [nesting, Nat.add_comm]⟩
    have opened : read ⟨κ, .value⟩ [.openObject] = some ⟨.object [] "" :: κ, .firstName⟩ :=
      read_push _ _ (by omega) rfl
    obtain ⟨ordered, sorted⟩ : Fields.Sorted members ∧ ∀ e ∈ members, e.2.Sorted := by
      cases sorted with
      | obj ordered sorted => exact ⟨ordered, sorted⟩
    have each (e : String × Json) (he : e ∈ members) (φ : Fields Json) :
        Reads e.2.tokens e.2 (.object φ e.1 :: κ) := by
      have le := nesting_obj_le_iff.1 (Nat.le_of_eq hn) e he
      exact ih e he (sorted e he) (by rw [List.length_cons]; omega)
    rw [Reads, tokens_obj, ← List.singleton_append, read_append, opened, Option.bind_eq_bind,
      Option.bind_some, read_append]
    by_cases empty : members = []
    · subst empty
      rfl
    · obtain ⟨name, h⟩ := read_members empty each [] ""
      have closed (φ : Fields Json) : read ⟨.object φ name :: κ, .separator⟩ [.closeObject]
          = some (accept (obj φ) κ) := rfl
      -- members that are in order are put in where they were
      rw [read_members_firstName empty, h, Option.bind_eq_bind, Option.bind_some, closed,
        ← Fields.ofList, Fields.ofList_of_sorted ordered]
  | _ =>
    rw [Reads, tokens]
    rfl

theorem ofTokens?_tokens {v : Json} (sorted : v.Sorted) (deep : v.nesting ≤ maxDepth) :
    ofTokens? v.tokens = some v := by
  have h : Reads v.tokens v [] := reads_tokens sorted (by simpa using deep)
  rw [ofTokens?, show v.tokens.foldlM step State.start = some (accept v []) from h]
  rfl

/-- **A value is read back from its text**, if no number in it is a floating point number, its
members are in order and it is not nested too deep. -/
theorem ofText?_compact {v : Json} (exact : v.FloatFree) (sorted : v.Sorted)
    (deep : v.nesting ≤ maxDepth) : ofText? v.compact = some v := by
  rw [ofText?, scan?_compact exact]
  exact ofTokens?_tokens sorted deep

theorem ofBytes?_toBytes {v : Json} (exact : v.FloatFree) (sorted : v.Sorted)
    (deep : v.nesting ≤ maxDepth) : ofBytes? v.toBytes = some v := by
  rw [ofBytes?, toBytes, Bytes.toText?_ofText]
  exact ofText?_compact exact sorted deep

/-! ## What is read is in order -/

/-- The value is in order and nested no deeper than `n`. -/
def Tidy (n : Nat) (v : Json) : Prop := v.Sorted ∧ v.nesting ≤ n

theorem Tidy.mono {n m : Nat} {v : Json} (h : Tidy n v) (hm : n ≤ m) : Tidy m v :=
  ⟨h.1, Nat.le_trans h.2 hm⟩

theorem tidy_arr_iff {n : Nat} {items : List Json} :
    Tidy n (arr items) ↔ ∃ m, n = m + 1 ∧ ∀ v ∈ items, Tidy m v := by
  constructor
  · rintro ⟨sorted, deep⟩
    obtain ⟨m, rfl⟩ : ∃ m, n = m + 1 := ⟨n - 1, by rw [nesting] at deep; omega⟩
    cases sorted with
    | arr sorted => exact ⟨m, rfl, fun v hv => ⟨sorted v hv, nesting_arr_le_iff.1 deep v hv⟩⟩
  · rintro ⟨m, rfl, h⟩
    exact ⟨.arr fun v hv => (h v hv).1, nesting_arr_le_iff.2 fun v hv => (h v hv).2⟩

theorem tidy_obj_iff {n : Nat} {members : Fields Json} :
    Tidy n (obj members) ↔ ∃ m, n = m + 1 ∧ members.Sorted ∧ ∀ e ∈ members, Tidy m e.2 := by
  constructor
  · rintro ⟨sorted, deep⟩
    obtain ⟨m, rfl⟩ : ∃ m, n = m + 1 := ⟨n - 1, by rw [nesting] at deep; omega⟩
    cases sorted with
    | obj ordered sorted =>
      exact ⟨m, rfl, ordered, fun e he => ⟨sorted e he, nesting_obj_le_iff.1 deep e he⟩⟩
  · rintro ⟨m, rfl, ordered, h⟩
    exact ⟨.obj ordered fun e he => (h e he).1, nesting_obj_le_iff.2 fun e he => (h e he).2⟩

/-- A value without parts has nothing to put in order. -/
theorem tidy_leaf (n : Nat) {v : Json} (noItems : v.asItems? = none)
    (noMembers : v.asMembers? = none) : Tidy n v := by
  cases v with
  | null => exact ⟨.null, by simp [nesting]⟩
  | bool b => exact ⟨.bool b, by simp [nesting]⟩
  | num n => exact ⟨.num n, by simp [nesting]⟩
  | str s => exact ⟨.str s, by simp [nesting]⟩
  | arr items => cases noItems
  | obj members => cases noMembers

namespace Reader

/-- What is in an open container leaves room for the `n` levels around it. -/
def Container.Fits (n : Nat) : Container → Prop
  | .array items => ∀ v ∈ items, Tidy n v
  | .object members _ => Fields.Sorted members ∧ ∀ e ∈ members, Tidy n e.2

/-- No more containers are open than may be, and what is in them leaves room for them. -/
def Fits : List Container → Prop
  | [] => True
  | c :: κ => κ.length < maxDepth ∧ c.Fits (maxDepth - (κ.length + 1)) ∧ Fits κ

/-- What holds throughout a reading. -/
def State.Valid (s : State) : Prop :=
  Fits s.stack ∧ ∀ v, s.phase = .done v → Tidy maxDepth v

variable {κ : List Container} {s s' : State} {t : Token}

/-- A value that there is room for is accepted. -/
theorem valid_accept {v : Json} (h : Fits κ) (hv : Tidy (maxDepth - κ.length) v) :
    (accept v κ).Valid := by
  cases κ with
  | nil => exact ⟨trivial, fun w hw => Phase.done.inj hw ▸ hv⟩
  | cons c κ =>
    obtain ⟨room, hc, hκ⟩ := h
    cases c with
    | array items => exact ⟨⟨room, List.forall_mem_cons.2 ⟨hv, hc⟩, hκ⟩, nofun⟩
    | object members name =>
      refine ⟨⟨room, ⟨hc.1.insert name v, fun e he => ?_⟩, hκ⟩, nofun⟩
      rcases Fields.mem_insert he with rfl | he
      · exact hv
      · exact hc.2 e he

theorem valid_begin (h : Fits κ) (ht : begin κ t = some s') : s'.Valid := by
  have opened {c : Container} {p : Phase} (ht : push c p κ = some s') (hc : ∀ n, c.Fits n)
      (hp : ∀ v, p ≠ .done v) : s'.Valid := by
    rw [push] at ht
    split at ht
    · next room =>
      obtain rfl := Option.some.inj ht
      exact ⟨⟨room, hc _, h⟩, fun v hv => absurd hv (hp v)⟩
    · cases ht
  cases t with
  | null =>
    obtain rfl := Option.some.inj ht
    exact valid_accept h (tidy_leaf _ rfl rfl)
  | bool b =>
    obtain rfl := Option.some.inj ht
    exact valid_accept h (tidy_leaf _ rfl rfl)
  | num n =>
    obtain rfl := Option.some.inj ht
    exact valid_accept h (tidy_leaf _ rfl rfl)
  | str s =>
    obtain rfl := Option.some.inj ht
    exact valid_accept h (tidy_leaf _ rfl rfl)
  | openArray =>
    have empty (n : Nat) : Container.Fits n (.array []) := fun v hv => nomatch hv
    exact opened ht empty nofun
  | openObject =>
    have empty (n : Nat) : Container.Fits n (.object [] "") := ⟨.nil, fun e he => nomatch he⟩
    exact opened ht empty nofun
  | _ => cases ht

theorem valid_finish (h : Fits κ) (ht : finish t κ = some s') : s'.Valid := by
  unfold finish at ht
  split at ht
  · next items κ =>
    obtain ⟨room, hc, hκ⟩ := h
    obtain rfl := Option.some.inj ht
    refine valid_accept hκ (tidy_arr_iff.2 ⟨_, by omega, fun v hv => hc v (List.mem_reverse.1 hv)⟩)
  · next members name κ =>
    obtain ⟨room, hc, hκ⟩ := h
    obtain rfl := Option.some.inj ht
    exact valid_accept hκ (tidy_obj_iff.2 ⟨_, by omega, hc⟩)
  · cases ht

theorem valid_nameMember (h : Fits κ) (ht : nameMember t κ = some s') : s'.Valid := by
  unfold nameMember at ht
  split at ht
  · obtain rfl := Option.some.inj ht
    exact ⟨h, nofun⟩
  · cases ht

theorem valid_next (h : Fits κ) (ht : next κ = some s') : s'.Valid := by
  unfold next at ht
  split at ht
  · obtain rfl := Option.some.inj ht
    exact ⟨h, nofun⟩
  · obtain rfl := Option.some.inj ht
    exact ⟨h, nofun⟩
  · cases ht

/-- What holds throughout a reading is kept by every token. -/
theorem State.Valid.step (h : s.Valid) (ht : step s t = some s') : s'.Valid := by
  obtain ⟨κ, phase⟩ := s
  obtain ⟨fits, -⟩ := h
  -- a container may end where its first part may come, and after every part
  cases phase with
  | value => exact valid_begin fits ht
  | firstItem =>
    simp only [Reader.step] at ht
    split at ht
    · exact valid_finish fits ht
    · exact valid_begin fits ht
  | firstName =>
    simp only [Reader.step] at ht
    split at ht
    · exact valid_finish fits ht
    · exact valid_nameMember fits ht
  | name => exact valid_nameMember fits ht
  | colon =>
    simp only [Reader.step] at ht
    split at ht
    · obtain rfl := Option.some.inj ht
      exact ⟨fits, nofun⟩
    · cases ht
  | separator =>
    simp only [Reader.step] at ht
    split at ht
    · exact valid_next fits ht
    · exact valid_finish fits ht
  | done v => cases ht

/-- What holds throughout a reading holds at its end. -/
theorem State.Valid.read {ts : List Token} (h : s.Valid) (ht : read s ts = some s') : s'.Valid := by
  induction ts generalizing s with
  | nil => exact Option.some.inj ht ▸ h
  | cons t ts ih =>
    obtain ⟨u, hu, rest⟩ := Option.bind_eq_some_iff.1 ht
    exact ih (h.step hu) rest

end Reader

/-- **Every value that is read is in order**, and nested no deeper than a reader allows. -/
theorem tidy_of_ofText? {s : String} {v : Json} (h : ofText? s = some v) : Tidy maxDepth v := by
  obtain ⟨ts, -, h⟩ := Option.bind_eq_some_iff.1 h
  obtain ⟨u, hu, hv⟩ := Option.bind_eq_some_iff.1 h
  have valid : State.start.Valid := ⟨trivial, nofun⟩
  obtain ⟨-, tidy⟩ := valid.read hu
  refine tidy v ?_
  unfold State.result? at hv
  split at hv
  · next hp => rw [hp, Option.some.inj hv]
  · cases hv

end BlockWalk.Json
