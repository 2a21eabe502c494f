import BlockWalk.Proofs.BinaryReading

/-!
# Bytes cut short and bytes too many

A reader looks at no byte before it takes it. So what it has made of bytes, a part of a node or an
error, stays when more bytes come after them; only where it found that they end too early may it do
something else then (`DagBinary.Extends`). This is kept when readers are put one after the other,
and so it is true of the reader of nodes. That no bytes that decode are the beginning of others
follows from it.

Lengths and counts are believed by the reader, and may be larger than anything that is there
(`DagBinary.Declares`). Then the bytes are no form, and do not decode. The reader need not count
that far to find out: it stops at the end of the bytes.

* `DagBinary.extends_readNode` — more bytes change nothing that was read.
* `DagBinary.Declares.le` — what the form of a node declares is there.
* `DagBinary.readMany_eq_of_length_lt` — a reader that is asked for more parts than there are bytes
  does as if there were one more than bytes.
* `DagBinary.accepts_prefix_free` — the main statement.
-/

namespace BlockWalk.DagBinary

/-! ## More bytes -/

/-- What `read` makes of bytes, `read'` makes of them when others come after, unless `read` finds
that they end too early. -/
structure Extends {α : Type} (read read' : Reader α) : Prop where
  /-- a part is read again, and more is left -/
  part : ∀ {β γ : Bytes} {a : α}, read β = .ok (a, γ) →
    ∀ more, read' (β ++ more) = .ok (a, γ ++ more)
  /-- an error is found again -/
  error : ∀ {β : Bytes} {ε : DecodeError}, read β = .error ε → ε ≠ .endOfBytes →
    ∀ more, read' (β ++ more) = .error ε

section

variable {α ρ : Type} {read read' : Reader α}

theorem extends_pure (a : α) : Extends (pure a) (pure a) where
  part h more := by
    obtain ⟨rfl, rfl⟩ := Prod.mk.inj (Except.ok.inj h)
    rfl
  error h _ _ := nomatch h

theorem extends_throw (ε : DecodeError) : Extends (throw ε : Reader α) (throw ε) where
  part h _ := nomatch h
  error h _ _ := by
    obtain rfl := Except.error.inj h
    rfl

/-- Two readers, one after the other, are extended by two others. -/
theorem Extends.bind {k k' : α → Reader ρ} (h : Extends read read')
    (hk : ∀ a, Extends (k a) (k' a)) : Extends (read >>= k) (read' >>= k') where
  part hβ more := by
    obtain ⟨a, δ, ha, hδ⟩ := bind_reads_iff.1 hβ
    exact bind_reads_iff.2 ⟨a, δ ++ more, h.part ha more, (hk a).part hδ more⟩
  error hβ early more := by
    refine bind_eq_error_iff.2 ?_
    obtain hε | ⟨⟨a, δ⟩, ha, hδ⟩ := bind_eq_error_iff.1 hβ
    · exact .inl (h.error hε early more)
    · exact .inr ⟨(a, δ ++ more), h.part ha more, (hk a).error hδ early more⟩

/-- Something is made of what is read. -/
theorem Extends.pure_bind (h : Extends read read') (f : α → ρ) :
    Extends (read >>= fun a => pure (f a)) (read' >>= fun a => pure (f a)) :=
  h.bind fun a => extends_pure (f a)

theorem extends_readBytes (n : Nat) : Extends (readBytes n) (readBytes n) where
  part h more := by
    obtain ⟨rfl, length⟩ := readBytes_eq_ok_iff.1 h
    exact readBytes_eq_ok_iff.2 ⟨List.append_assoc .., length⟩
  error h early _ := by
    rw [readBytes] at h
    split at h
    · cases h
    · exact absurd (Except.error.inj h).symm early

theorem extends_readNat (w : Nat) : Extends (readNat w) (readNat w) := by
  rw [readNat, ← bind_pure_comp]
  exact (extends_readBytes w).pure_bind _

theorem extends_readWithLength : Extends readWithLength readWithLength :=
  (extends_readNat 8).bind extends_readBytes

theorem extends_readText : Extends readText readText := by
  refine extends_readWithLength.bind fun σ => ?_
  cases Bytes.toText? σ with
  | none => exact extends_throw .utf8
  | some s => exact extends_pure s

theorem extends_readLink : Extends readLink readLink := by
  refine extends_readWithLength.bind fun σ => ?_
  cases Cid.ofBytes σ with
  | error ε => exact extends_throw (.cid ε)
  | ok χ => exact extends_pure χ

theorem extends_readBool : Extends readBool readBool := by
  refine (extends_readNat 1).bind fun n => ?_
  split
  · exact extends_pure false
  · exact extends_pure true
  · exact extends_throw _

/-- To read parts is to read one and then the others. -/
theorem readMany_succ (read : Reader α) (n : Nat) (before : List α) :
    readMany read (n + 1) before = read >>= fun a => readMany read n (a :: before) := by
  funext β
  rw [readMany]
  show _ = (read β >>= fun r => readMany read n (r.1 :: before) r.2)
  cases read β <;> rfl

/-- Parts that are read one by one are read again. -/
theorem extends_readMany (h : Extends read read') (n : Nat) (before : List α) :
    Extends (readMany read n before) (readMany read' n before) := by
  induction n generalizing before with
  | zero => exact extends_pure before.reverse
  | succ n ih =>
    rw [readMany_succ, readMany_succ]
    exact h.bind fun a => ih (a :: before)

theorem extends_readEntry {read read' : Reader Node} (h : Extends read read') :
    Extends (readEntry read) (readEntry read') :=
  extends_readText.bind fun k => h.pure_bind (Prod.mk k)

end

/-- **More bytes change nothing that was read of a node**, also if the reader goes deeper then. -/
theorem extends_readNode {d d' : Nat} (deeper : d ≤ d') : Extends (readNode d) (readNode d') := by
  induction d generalizing d' with
  | zero => exact ⟨nofun, fun h early => absurd (Except.error.inj h).symm early⟩
  | succ d ih =>
    obtain ⟨d', rfl⟩ : ∃ e, d' = e + 1 := ⟨d' - 1, by omega⟩
    have inner : Extends (readNode d) (readNode d') := ih (by omega)
    rw [readNode, readNode]
    refine (extends_readNat 4).bind fun kind => ?_
    split
    · exact extends_pure Node.null
    · exact extends_readBool.pure_bind Node.bool
    · exact (extends_readNat 8).pure_bind _
    · exact (extends_readNat 8).pure_bind _
    · exact extends_readText.pure_bind Node.str
    · exact extends_readWithLength.pure_bind Node.bytes
    · exact (extends_readNat 8).bind fun n => (extends_readMany inner n []).pure_bind Node.list
    · exact (extends_readNat 8).bind fun n =>
        (extends_readMany (extends_readEntry inner) n []).pure_bind _
    · exact extends_readLink.pure_bind Node.link
    · exact extends_throw _

/-- The bytes that decode are read as a node and leave nothing. -/
theorem readNode_of_decode {β : Bytes} {v : Node} (h : decode β = .ok v) :
    readNode (β.length + 1) β = .ok (v, []) := by
  obtain ⟨⟨u, γ⟩, read, whole⟩ := bind_eq_ok_iff.1 h
  dsimp only at whole
  split at whole
  · next empty =>
    obtain rfl := Except.ok.inj whole
    rw [read, List.isEmpty_iff.1 empty]
  · cases whole

/-- **Bytes that decode do not decode when they are cut short**: they end too early. -/
theorem decode_of_cut {β π more : Bytes} {v : Node} (h : decode β = .ok v) (cut : π ++ more = β)
    (short : more ≠ []) : decode π = .error .endOfBytes := by
  have whole := readNode_of_decode h
  have less : π.length + 1 ≤ β.length + 1 := by
    rw [← cut, List.length_append]
    omega
  have extends' := extends_readNode less
  rw [← cut] at whole
  rcases read : readNode (π.length + 1) π with ε | ⟨u, γ⟩
  · by_cases early : ε = .endOfBytes
    · rw [early] at read
      exact bind_eq_error_iff.2 (.inl read)
    · -- any other error would be found in all of the bytes
      have again := extends'.error read early more
      rw [← cut] at again
      rw [whole] at again
      cases again
  · -- what is left of all of the bytes would be what was cut off, and more
    have again := extends'.part read more
    rw [← cut] at again
    rw [whole] at again
    have left := (Prod.mk.inj (Except.ok.inj again)).2
    exact absurd (List.append_eq_nil_iff.1 left.symm).2 short

/-- **Bytes that decode do not decode with other bytes behind them.** -/
theorem decode_of_more {β more : Bytes} {v : Node} (h : decode β = .ok v) (long : more ≠ []) :
    decode (β ++ more) = .error .trailing := by
  have less : β.length + 1 ≤ (β ++ more).length + 1 := by
    rw [List.length_append]
    omega
  have read := (extends_readNode less).part (readNode_of_decode h) more
  refine bind_eq_error_iff.2 (.inr ⟨_, read, ?_⟩)
  rw [List.nil_append]
  exact if_neg (by simpa using long)

/-! ## Lengths that are not there -/

/-- The form of an entry of a map. -/
def entryForm (e : String × Node) : Bytes := withLength (Bytes.ofText e.1) ++ form e.2

/-- The bytes begin like a node, and somewhere in it declare a length or a count for which there
have to be at least `need` bytes. The bytes after it are `rest`. What stands before it can be
read. -/
inductive Declares : (β : Bytes) → (need : Nat) → (rest : Bytes) → Prop
  /-- the length of a text, a byte string or a link -/
  | sized {kind n : Nat} {rest : Bytes} (kinds : kind ∈ [4, 5, 8]) (few : n < 2 ^ 64) :
      Declares (kindBytes kind ++ (lengthBytes n ++ rest)) n rest
  /-- the number of items of a list; each of them takes four bytes or more -/
  | items {n : Nat} {rest : Bytes} (few : n < 2 ^ 64) :
      Declares (kindBytes 6 ++ (lengthBytes n ++ rest)) (4 * n) rest
  /-- the number of entries of a map; each of them takes twelve bytes or more -/
  | entries {n : Nat} {rest : Bytes} (few : n < 2 ^ 64) :
      Declares (kindBytes 7 ++ (lengthBytes n ++ rest)) (12 * n) rest
  /-- something in an item of a list -/
  | item {n : Nat} {before : List Node} {β rest : Bytes} {need : Nat} (few : n < 2 ^ 64)
      (fits : ∀ v ∈ before, Fits v) (more : before.length < n) (inside : Declares β need rest) :
      Declares (kindBytes 6 ++ (lengthBytes n ++ (before.flatMap form ++ β))) need rest
  /-- the length of a key of a map -/
  | key {n k : Nat} {before : List (String × Node)} {rest : Bytes} (few : n < 2 ^ 64)
      (fits : ∀ e ∈ before, e.1.utf8ByteSize < 2 ^ 64 ∧ Fits e.2) (more : before.length < n)
      (few' : k < 2 ^ 64) :
      Declares (kindBytes 7 ++ (lengthBytes n ++ (before.flatMap entryForm
        ++ (lengthBytes k ++ rest)))) k rest
  /-- something in a value of a map -/
  | value {n : Nat} {before : List (String × Node)} {k : String} {β rest : Bytes} {need : Nat}
      (few : n < 2 ^ 64) (fits : ∀ e ∈ before, e.1.utf8ByteSize < 2 ^ 64 ∧ Fits e.2)
      (more : before.length < n) (short : k.utf8ByteSize < 2 ^ 64)
      (inside : Declares β need rest) :
      Declares (kindBytes 7 ++ (lengthBytes n ++ (before.flatMap entryForm
        ++ (withLength (Bytes.ofText k) ++ β)))) need rest

section

variable {w : Node} {γ τ : Bytes}

/-- Bytes that begin with the kind of texts, byte strings or links are those of one of these. -/
theorem exists_bytes_of_form {kind : Nat} (kinds : kind ∈ [4, 5, 8]) (fits : Fits w)
    (same : form w ++ γ = kindBytes kind ++ τ) :
    ∃ σ : Bytes, σ.length < 2 ^ 64 ∧ τ = withLength σ ++ γ := by
  have kinds : kind = 4 ∨ kind = 5 ∨ kind = 8 := by simpa using kinds
  have small : kind < Nat.pow 256 4 := Nat.lt_trans (by omega : kind < 9) (by decide)
  cases w with
  | str s =>
    rw [form, List.append_assoc] at same
    obtain ⟨-, rest⟩ := (takes_readNat (by decide)).append_inj (takes_readNat small) same
    exact ⟨_, Bytes.length_ofText s ▸ fits_str.1 fits, rest.symm⟩
  | bytes σ =>
    rw [form, List.append_assoc] at same
    obtain ⟨-, rest⟩ := (takes_readNat (by decide)).append_inj (takes_readNat small) same
    exact ⟨σ, fits_bytes.1 fits, rest.symm⟩
  | link χ =>
    rw [form, List.append_assoc] at same
    obtain ⟨-, rest⟩ := (takes_readNat (by decide)).append_inj (takes_readNat small) same
    exact ⟨_, fits_link.1 fits, rest.symm⟩
  | _ => rcases kinds with rfl | rfl | rfl <;> simp [form, kindBytes, Bytes.littleEndian] at same

/-- Bytes that begin with the kind of lists are those of a list. -/
theorem exists_list_of_form (same : form w ++ γ = kindBytes 6 ++ τ) :
    ∃ items, w = .list items ∧ τ = lengthBytes items.length ++ (items.flatMap form ++ γ) := by
  cases w with
  | list items =>
    rw [form, List.append_assoc, List.append_assoc] at same
    exact ⟨items, rfl, (List.append_cancel_left same).symm⟩
  | _ => simp [form, kindBytes, Bytes.littleEndian] at same

/-- Bytes that begin with the kind of maps are those of a map. -/
theorem exists_map_of_form (same : form w ++ γ = kindBytes 7 ++ τ) :
    ∃ entries, w = .map entries
      ∧ τ = lengthBytes entries.length ++ (entries.flatMap entryForm ++ γ) := by
  cases w with
  | map entries =>
    rw [form, List.append_assoc, List.append_assoc] at same
    exact ⟨entries, rfl, (List.append_cancel_left same).symm⟩
  | _ => simp [form, kindBytes, Bytes.littleEndian] at same

end

/-- Where fewer parts stand in a row at the beginning of others, another part comes after them. -/
theorem exists_part_of_append {ρ : Type} {write : ρ → Bytes} {parts before : List ρ} {γ τ : Bytes}
    (free : ∀ p ∈ parts, ∀ q ∈ before, ∀ γ δ, write p ++ γ = write q ++ δ → γ = δ)
    (more : before.length < parts.length)
    (same : parts.flatMap write ++ γ = before.flatMap write ++ τ) :
    ∃ p ∈ parts, ∃ δ, τ = write p ++ δ := by
  induction before generalizing parts with
  | nil =>
    cases parts with
    | nil => cases more
    | cons p parts =>
      refine ⟨p, List.mem_cons_self, parts.flatMap write ++ γ, ?_⟩
      rw [← List.append_assoc, ← List.flatMap_cons, same]
      rfl
  | cons q before ih =>
    cases parts with
    | nil => cases more
    | cons p parts =>
      rw [List.flatMap_cons, List.flatMap_cons, List.append_assoc, List.append_assoc] at same
      have rest := free p List.mem_cons_self q List.mem_cons_self _ _ same
      obtain ⟨p', hp', there⟩ := ih (fun p hp q hq =>
        free p (List.mem_cons_of_mem _ hp) q (List.mem_cons_of_mem _ hq))
        (Nat.lt_of_succ_lt_succ more) rest
      exact ⟨p', List.mem_cons_of_mem p hp', there⟩

/-- Parts of `k` bytes or more take as many bytes together. -/
theorem mul_length_le {ρ : Type} {write : ρ → Bytes} {k : Nat} (h : ∀ p, k ≤ (write p).length)
    (parts : List ρ) : k * parts.length ≤ (parts.flatMap write).length := by
  have sum := List.card_nsmul_le_sum (parts.map fun p => (write p).length) k fun n hn => by
    obtain ⟨p, -, rfl⟩ := List.mem_map.1 hn
    exact h p
  rwa [List.length_map, smul_eq_mul, Nat.mul_comm, ← List.length_flatMap] at sum

theorem four_le_length_form (v : Node) : 4 ≤ (form v).length :=
  length_form v ▸ four_le_size v

theorem twelve_le_length_entryForm (e : String × Node) : 12 ≤ (entryForm e).length := by
  have := four_le_length_form e.2
  rw [entryForm, List.length_append, length_withLength]
  omega

/-- Entries of maps can be told apart in a row. -/
theorem entryForm_append_inj {e f : String × Node} (he : e.1.utf8ByteSize < 2 ^ 64 ∧ Fits e.2)
    (hf : f.1.utf8ByteSize < 2 ^ 64 ∧ Fits f.2) {γ δ : Bytes}
    (same : entryForm e ++ γ = entryForm f ++ δ) : e = f ∧ γ = δ := by
  rw [entryForm, entryForm, List.append_assoc, List.append_assoc] at same
  obtain ⟨key, rest⟩ := (takes_readText he.1).append_inj (takes_readText hf.1) same
  obtain ⟨value, left⟩ := form_append_inj he.2 hf.2 rest
  exact ⟨Prod.ext key value, left⟩

section

variable {w : Node} {γ τ : Bytes} {n : Nat}

/-- In the form of a list another item comes after some items, if there are more than these. -/
theorem exists_item_of_form {before : List Node} (few : n < 2 ^ 64) (fits : Fits w)
    (fits' : ∀ v ∈ before, Fits v) (more : before.length < n)
    (same : form w ++ γ = kindBytes 6 ++ (lengthBytes n ++ (before.flatMap form ++ τ))) :
    ∃ v δ, Fits v ∧ form v ++ δ = τ := by
  obtain ⟨items, rfl, rest⟩ := exists_list_of_form same
  obtain ⟨few', fits⟩ := fits_list.1 fits
  obtain ⟨rfl, parts⟩ := (takes_readNat few).append_inj (takes_readNat few') rest
  obtain ⟨v, hv, δ, there⟩ := exists_part_of_append
    (fun p hp q hq _ _ h => (form_append_inj (fits p hp) (fits' q hq) h).2) more parts.symm
  exact ⟨v, δ, fits v hv, there.symm⟩

/-- In the form of a map another entry comes after some entries, if there are more than these. -/
theorem exists_entry_of_form {before : List (String × Node)} (few : n < 2 ^ 64) (fits : Fits w)
    (fits' : ∀ e ∈ before, e.1.utf8ByteSize < 2 ^ 64 ∧ Fits e.2) (more : before.length < n)
    (same : form w ++ γ = kindBytes 7 ++ (lengthBytes n ++ (before.flatMap entryForm ++ τ))) :
    ∃ (e : String × Node) (δ : Bytes), (e.1.utf8ByteSize < 2 ^ 64 ∧ Fits e.2)
      ∧ withLength (Bytes.ofText e.1) ++ (form e.2 ++ δ) = τ := by
  obtain ⟨entries, rfl, rest⟩ := exists_map_of_form same
  obtain ⟨few', fits⟩ := fits_map.1 fits
  obtain ⟨rfl, parts⟩ := (takes_readNat few).append_inj (takes_readNat few') rest
  obtain ⟨e, he, δ, there⟩ := exists_part_of_append
    (fun p hp q hq _ _ h => (entryForm_append_inj (fits p hp) (fits' q hq) h).2) more parts.symm
  rw [entryForm, List.append_assoc] at there
  exact ⟨e, δ, fits e he, there.symm⟩

end

/-- A length at the beginning of bytes is that of the bytes that follow it. -/
theorem length_le_of_lengthBytes {σ γ rest : Bytes} {n : Nat} (small : σ.length < 2 ^ 64)
    (few : n < 2 ^ 64) (same : lengthBytes n ++ rest = withLength σ ++ γ) : n ≤ rest.length := by
  rw [withLength, List.append_assoc] at same
  obtain ⟨rfl, rfl⟩ := (takes_readNat few).append_inj (takes_readNat small) same
  rw [List.length_append]
  omega

/-- **What the form of a node declares is there.** -/
theorem Declares.le {β rest : Bytes} {need : Nat} (h : Declares β need rest) {w : Node}
    (fits : Fits w) {γ : Bytes} (same : form w ++ γ = β) : need ≤ rest.length := by
  induction h generalizing w γ with
  | sized kinds few =>
    obtain ⟨σ, small, rest⟩ := exists_bytes_of_form kinds fits same
    exact length_le_of_lengthBytes small few rest
  | items few =>
    obtain ⟨items, rfl, rest⟩ := exists_list_of_form same
    obtain ⟨rfl, rfl⟩ := (takes_readNat few).append_inj (takes_readNat (fits_list.1 fits).1) rest
    have := mul_length_le four_le_length_form items
    rw [List.length_append]
    omega
  | entries few =>
    obtain ⟨entries, rfl, rest⟩ := exists_map_of_form same
    obtain ⟨rfl, rfl⟩ := (takes_readNat few).append_inj (takes_readNat (fits_map.1 fits).1) rest
    have := mul_length_le twelve_le_length_entryForm entries
    rw [List.length_append]
    omega
  | item few fits' more inside ih =>
    obtain ⟨v, δ, fits, there⟩ := exists_item_of_form few fits fits' more same
    exact ih fits there
  | key few fits' more few' =>
    obtain ⟨e, δ, ⟨short, -⟩, there⟩ := exists_entry_of_form few fits fits' more same
    exact length_le_of_lengthBytes (Bytes.length_ofText e.1 ▸ short) few' there.symm
  | value few fits' more short inside ih =>
    obtain ⟨e, δ, ⟨short', fits⟩, there⟩ := exists_entry_of_form few fits fits' more same
    obtain ⟨-, value⟩ := (takes_readText short).append_inj (takes_readText short') there.symm
    exact ih fits value.symm

/-- **A length or count that is larger than what is there** is found to be wrong. -/
theorem exists_error_of_declares {β rest : Bytes} {need : Nat} (h : Declares β need rest)
    (short : rest.length < need) : ∃ ε, decode β = .error ε := by
  rcases hβ : decode β with ε | v
  · exact ⟨ε, rfl⟩
  · obtain ⟨w, fits, rfl, -⟩ := decode_eq_ok_iff.1 hβ
    have := h.le fits (List.append_nil _)
    omega

/-! ## Where a reader of many parts stops -/

/-- A reader that takes some of the bytes. -/
def Shortens {α : Type} (read : Reader α) : Prop :=
  ∀ β a γ, read β = .ok (a, γ) → γ.length < β.length

theorem shortens_readNode (d : Nat) : Shortens (readNode d) := by
  intro β v γ h
  obtain ⟨w, -, -, rfl⟩ := exists_form_of_readNode h
  have := four_le_length_form w
  rw [List.length_append]
  omega

theorem shortens_readEntry {read : Reader Node} (h : Shortens read) :
    Shortens (readEntry read) := by
  intro β e γ hβ
  obtain ⟨k, δ, hk, value⟩ := bind_reads_iff.1 hβ
  obtain ⟨rfl, -⟩ := readText_eq_ok_iff.1 hk
  obtain ⟨v, hv, -⟩ := pure_bind_reads_iff.1 value
  have := h δ v γ hv
  rw [List.length_append]
  omega

/-- **A reader stops at the end of the bytes**: if it is asked for more parts than there are bytes,
it does not matter for how many. -/
theorem readMany_eq_of_length_lt {α : Type} {read : Reader α} (shorter : Shortens read)
    {β : Bytes} {n m : Nat} (hn : β.length < n) (hm : β.length < m) (before : List α) :
    readMany read n before β = readMany read m before β := by
  induction n generalizing β m before with
  | zero => cases hn
  | succ n ih =>
    obtain ⟨m, rfl⟩ : ∃ k, m = k + 1 := ⟨m - 1, by omega⟩
    rw [readMany, readMany]
    rcases hβ : read β with ε | ⟨a, γ⟩
    · rfl
    · have := shorter β a γ hβ
      exact ih (by omega) (by omega) (a :: before)

/-- **Bytes that decode are neither cut short nor continued.** Of bytes that decode, no shorter
beginning decodes, as it ends too early, and nothing longer that begins with them, as there are
bytes too many. Bytes that somewhere declare a length or a count for which there are too few bytes
do not decode, whatever else is in them. The count, which may be up to `2 ^ 64 - 1`, does not say
how long it takes to find that out: the reader stops at the end of the bytes. -/
theorem accepts_prefix_free :
    (∀ β v, decode β = .ok v →
      (∀ π, π <+: β → π ≠ β → decode π = .error .endOfBytes)
        ∧ ∀ π, β <+: π → π ≠ β → decode π = .error .trailing)
      ∧ (∀ β need rest, Declares β need rest → rest.length < need → ∃ ε, decode β = .error ε)
      ∧ ∀ (d n : Nat) (β : Bytes), β.length < n →
        readMany (readNode d) n [] β = readMany (readNode d) (β.length + 1) [] β
          ∧ readMany (readEntry (readNode d)) n [] β
            = readMany (readEntry (readNode d)) (β.length + 1) [] β := by
  refine ⟨fun β v h => ⟨?_, ?_⟩, fun β need rest => exists_error_of_declares, fun d n β few => ?_⟩
  · rintro π ⟨more, cut⟩ other
    refine decode_of_cut h cut ?_
    rintro rfl
    exact other ((List.append_nil π).symm.trans cut)
  · rintro π ⟨more, rfl⟩ other
    refine decode_of_more h ?_
    rintro rfl
    exact other (List.append_nil β)
  · have node := shortens_readNode d
    exact ⟨readMany_eq_of_length_lt node few (Nat.lt_succ_self _) [],
      readMany_eq_of_length_lt (shortens_readEntry node) few (Nat.lt_succ_self _) []⟩

/-- A list that is said to have more items than can be counted has none. -/
example : decode (kindBytes 6 ++ lengthBytes (2 ^ 64 - 1)) = .error .endOfBytes := by rfl

end BlockWalk.DagBinary
