import BlockWalk.Json.Printer
import BlockWalk.Proofs.Readers
import Mathlib.Data.List.TakeWhile

/-!
# Tokens of JSON read back

A token is scanned as it is written, wherever it stands. The scanner is taken through the text from
any list of tokens before it: `ofChars?_text_int` is about the digits of an integer, `scan_quote`
about a text between quotes with all its escapes, and `scan_token` about every token. A number or a
word has no sign of its own that it has ended, so it is known only by the character after it
(`Token.Apart`).

A text spells tokens if they stand in it one after the other, with blanks or without. It is cut into
just these (`Token.scan?_of_spells`). Floating point numbers are left out: their shortest decimals
are another matter.
-/

namespace BlockWalk.Json

/-! ## Integers -/

namespace Number

/-- The digits of a number, by their values. -/
def digitValues (n : Nat) : List Nat := (Nat.toDigits 10 n).map fun c => c.toNat - 48

theorem digitValues_of_lt {n : Nat} (h : n < 10) : digitValues n = [n] := by
  rw [digitValues, Nat.toDigits_of_lt_base h, List.map_singleton,
    Nat.toNat_digitChar_sub_48_of_lt_ten h]

theorem digitValues_of_le {n : Nat} (h : 10 ≤ n) :
    digitValues n = digitValues (n / 10) ++ [n % 10] := by
  have last : n % 10 < 10 := Nat.mod_lt n (by decide)
  rw [digitValues, Nat.toDigits_of_base_le (by decide) h, List.map_append, List.map_singleton,
    Nat.toNat_digitChar_sub_48_of_lt_ten last, digitValues]

/-- The first digit of a number is zero for zero alone. -/
theorem digitValues_of_pos {n : Nat} (h : 0 < n) :
    ∃ d ds, digitValues n = (d + 1) :: ds := by
  induction n using Nat.strongRecOn with
  | _ n ih =>
    by_cases hn : n < 10
    · exact ⟨n - 1, [], by rw [digitValues_of_lt hn, Nat.sub_add_cancel h]⟩
    · obtain ⟨d, ds, hd⟩ := ih (n / 10) (by omega) (by omega)
      exact ⟨d, ds ++ [n % 10], by rw [digitValues_of_le (Nat.not_lt.1 hn), hd]; rfl⟩

/-- A number below the limit is what its digits spell. -/
theorem natBelow?_digitValues {limit n : Nat} (h : n < limit) :
    Numeral.natBelow? limit (digitValues n) = some n := by
  induction n using Nat.strongRecOn with
  | _ n ih =>
    by_cases hn : n < 10
    · rw [digitValues_of_lt hn]
      simp [Numeral.natBelow?, h]
    · -- the digits before the last spell a tenth, which is below the limit too
      have hle : 10 ≤ n := Nat.not_lt.1 hn
      have first := ih (n / 10) (by omega) (by omega)
      have same : 10 * (n / 10) + n % 10 = n := Nat.div_add_mod n 10
      rw [Numeral.natBelow?] at first
      rw [digitValues_of_le hle, Numeral.natBelow?, List.foldlM_append, first]
      simp [same, h]

theorem isDigit_of_mem_toDigits {n : Nat} {c : Char} (h : c ∈ Nat.toDigits 10 n) :
    c.isDigit = true :=
  Nat.isDigit_of_mem_toDigits (by decide) (by decide) h

theorem spanDigits_toDigits (n : Nat) : spanDigits (Nat.toDigits 10 n) = (digitValues n, []) := by
  have digits := fun c (h : c ∈ Nat.toDigits 10 n) => isDigit_of_mem_toDigits h
  rw [spanDigits, List.takeWhile_eq_self_iff.2 digits, List.dropWhile_eq_nil_iff.2 digits]
  rfl

/-- Digits behind a sign or without one make a numeral. -/
theorem numeral?_unsigned (n : Nat) :
    numeral? (Nat.toDigits 10 n) = some ⟨false, digitValues n, [], none⟩ := by
  have noSign (σ : List Char) (h : Nat.toDigits 10 n = '-' :: σ) : False := by
    have digit : '-'.isDigit = true := isDigit_of_mem_toDigits (h ▸ List.mem_cons_self)
    cases digit
  rw [numeral?.eq_2 _ noSign, spanDigits_toDigits]
  rcases Nat.eq_zero_or_pos n with rfl | h
  · rfl
  · obtain ⟨d, ds, hd⟩ := digitValues_of_pos h
    rw [hd]
    rfl

theorem numeral?_minus (n : Nat) :
    numeral? ('-' :: Nat.toDigits 10 n) = some ⟨true, digitValues n, [], none⟩ := by
  rw [numeral?, spanDigits_toDigits]
  rcases Nat.eq_zero_or_pos n with rfl | h
  · rfl
  · obtain ⟨d, ds, hd⟩ := digitValues_of_pos h
    rw [hd]
    rfl

theorem text_ofNat {n : Nat} (lower : -0x8000000000000000 ≤ Int.ofNat n)
    (upper : Int.ofNat n < 0x10000000000000000) :
    (int (.ofNat n) lower upper).text.toList = Nat.toDigits 10 n := by
  rw [text, Text.signedDecimal, Text.decimal, String.toList_ofList]

theorem text_negSucc {n : Nat} (lower : -0x8000000000000000 ≤ Int.negSucc n)
    (upper : Int.negSucc n < 0x10000000000000000) :
    (int (.negSucc n) lower upper).text.toList = '-' :: Nat.toDigits 10 (n + 1) := by
  rw [text, Text.signedDecimal, String.toList_append, Text.decimal, String.toList_ofList,
    String.toList_ofList, List.singleton_append]

/-- **Integers are read back.** -/
theorem ofChars?_text_int (n : Int) (lower : -0x8000000000000000 ≤ n)
    (upper : n < 0x10000000000000000) :
    ofChars? (int n lower upper).text.toList = some (int n lower upper) := by
  cases n with
  | ofNat n =>
    have inRange : n < 0x10000000000000000 := Int.ofNat_lt.1 upper
    have read : intOfNumeral? ⟨false, digitValues n, [], none⟩ = ofInt? n := by
      simp [intOfNumeral?, natBelow?_digitValues inRange]
    rw [text_ofNat, ofChars?, numeral?_unsigned, Option.bind_eq_bind, Option.bind_some, ofNumeral?,
      read, ofInt?, dif_pos ⟨lower, upper⟩]
    rfl
  | negSucc n =>
    have inRange : n + 1 < 0x10000000000000000 := by omega
    have read : intOfNumeral? ⟨true, digitValues (n + 1), [], none⟩ = ofInt? (.negSucc n) := by
      simp [intOfNumeral?, natBelow?_digitValues inRange, Int.negSucc_eq]
    rw [text_negSucc, ofChars?, numeral?_minus, Option.bind_eq_bind, Option.bind_some, ofNumeral?,
      read, ofInt?, dif_pos ⟨lower, upper⟩]
    rfl

end Number

/-! ## Texts between quotes -/

namespace Scanner

/-- Characters taken in one after the other. -/
def scan (s : State) (σ : List Char) : Option State := σ.foldlM step s

theorem scan_append (s : State) (σ τ : List Char) :
    scan s (σ ++ τ) = scan s σ >>= fun s => scan s τ :=
  List.foldlM_append

/-- The digits of a control, which are the last two of four. -/
theorem hexadecimalPadded_of_lt : ∀ n < 32, (Text.hexadecimalPadded 4 n).toList
    = ['0', '0', Nat.digitChar (n / 16), Nat.digitChar (n % 16)] := by
  decide

theorem hexValue?_digitChar : ∀ n < 16, hexValue? (Nat.digitChar n) = some n := by
  decide

/-- A code unit of four digits that is a control stands for it. -/
theorem scan_control (ts : List Token) (σ : List Char) {c : Char} (h : c.toNat < 32) :
    scan ⟨ts, .text σ⟩ ('\\' :: 'u' :: (Text.hexadecimalPadded 4 c.toNat).toList)
      = some ⟨ts, .text (c :: σ)⟩ := by
  have high := hexValue?_digitChar (c.toNat / 16) (by omega)
  have low := hexValue?_digitChar (c.toNat % 16) (by omega)
  have zero : hexValue? '0' = some 0 := rfl
  have value : 16 * (c.toNat / 16) + c.toNat % 16 = c.toNat := Nat.div_add_mod ..
  have unit : unit? σ none c.toNat = some (.text (c :: σ)) := by
    have noHigh : ¬(0xD800 ≤ c.toNat ∧ c.toNat ≤ 0xDBFF) := by omega
    have noLow : ¬(0xDC00 ≤ c.toNat ∧ c.toNat ≤ 0xDFFF) := by omega
    simp only [unit?, if_neg noHigh, if_neg noLow, Char.ofNat_toNat]
  rw [hexadecimalPadded_of_lt _ h]
  simp [scan, step, zero, high, low, value, unit]

/-- A character between quotes is read back from the form that it is written in. -/
theorem scan_escape (ts : List Token) (σ : List Char) (c : Char) :
    scan ⟨ts, .text σ⟩ (escape c) = some ⟨ts, .text (c :: σ)⟩ := by
  unfold escape
  split
  · next h => subst h; rfl
  · next quote =>
    split
    · next h => subst h; rfl
    · next backslash =>
      -- the letters after a backslash
      repeat' split
      all_goals
        first
        | next h => subst h; rfl
        | next h => exact scan_control ts σ h
        | next h => simp [scan, step, quote, backslash, h]

/-- The characters of a text are read back. -/
theorem scan_escapes (ts : List Token) (σ τ : List Char) :
    scan ⟨ts, .text σ⟩ (τ.flatMap escape) = some ⟨ts, .text (τ.reverse ++ σ)⟩ := by
  induction τ generalizing σ with
  | nil => rfl
  | cons c τ ih =>
    rw [List.flatMap_cons, scan_append, scan_escape, Option.bind_eq_bind, Option.bind_some, ih,
      List.reverse_cons, List.append_assoc]
    rfl

/-- **A text between quotes is read back.** -/
theorem scan_quote (ts : List Token) (s : String) :
    scan ⟨ts, .between⟩ (quote s).toList = some ⟨.str s :: ts, .between⟩ := by
  have opening : scan ⟨ts, .between⟩ ['"'] = some ⟨ts, .text []⟩ := rfl
  have closing : scan ⟨ts, .text s.toList.reverse⟩ ['"'] = some ⟨.str s :: ts, .between⟩ := by
    simp [scan, step]
  have parts : (quote s).toList = ['"'] ++ (s.toList.flatMap escape ++ ['"']) :=
    String.toList_ofList
  rw [parts, scan_append, opening, Option.bind_eq_bind, Option.bind_some, scan_append, scan_escapes,
    Option.bind_eq_bind, Option.bind_some, List.append_nil, closing]

/-! ## Numbers and words -/

/-- Characters of a number go on with it. -/
theorem scan_number (ts : List Token) (σ : List Char) {τ : List Char}
    (h : ∀ c ∈ τ, inNumber c = true) :
    scan ⟨ts, .number σ⟩ τ = some ⟨ts, .number (τ.reverse ++ σ)⟩ := by
  induction τ generalizing σ with
  | nil => rfl
  | cons c τ ih =>
    obtain ⟨hc, hτ⟩ := List.forall_mem_cons.1 h
    have first : step ⟨ts, .number σ⟩ c = some ⟨ts, .number (c :: σ)⟩ := by simp [step, hc]
    rw [scan, List.foldlM_cons, first, Option.bind_eq_bind, Option.bind_some, ← scan, ih _ hτ,
      List.reverse_cons, List.append_assoc]
    rfl

/-- An integer starts with a sign or a digit, and goes on with characters of numbers. -/
theorem text_int_eq_cons (n : Int) (lower : -0x8000000000000000 ≤ n)
    (upper : n < 0x10000000000000000) :
    ∃ c σ, (Number.int n lower upper).text.toList = c :: σ ∧ (c = '-' ∨ c.isDigit)
      ∧ ∀ d ∈ σ, inNumber d = true := by
  have digit {n : Nat} {c : Char} (h : c ∈ Nat.toDigits 10 n) : inNumber c = true := by
    simp [inNumber, Number.isDigit_of_mem_toDigits h]
  cases n with
  | ofNat n =>
    rw [Number.text_ofNat]
    cases hσ : Nat.toDigits 10 n with
    | nil => exact absurd hσ Nat.toDigits_ne_nil
    | cons c σ =>
      have digits : ∀ d ∈ c :: σ, d ∈ Nat.toDigits 10 n := fun d hd => hσ ▸ hd
      exact ⟨c, σ, rfl, .inr (Number.isDigit_of_mem_toDigits (digits c List.mem_cons_self)),
        fun d hd => digit (digits d (List.mem_cons_of_mem c hd))⟩
  | negSucc n =>
    rw [Number.text_negSucc]
    exact ⟨'-', _, rfl, .inl rfl, fun d => digit⟩

/-- A sign or a digit begins a number. -/
theorem start_number (ts : List Token) {c : Char} (h : c = '-' ∨ c.isDigit) :
    start ts c = some ⟨ts, .number [c]⟩ := by
  rcases h with rfl | h
  · rfl
  · have other (d : Char) (hd : d.isDigit = false) : c ≠ d := by
      rintro rfl
      cases h.symm.trans hd
    simp [start, h, other ' ' rfl, other '\n' rfl, other '\t' rfl, other '\r' rfl, other '[' rfl,
      other ']' rfl, other '\x7b' rfl, other '\x7d' rfl, other ',' rfl, other ':' rfl,
      other '"' rfl]

/-- An integer is read up to the end of its digits. -/
theorem scan_int (ts : List Token) (n : Int) (lower : -0x8000000000000000 ≤ n)
    (upper : n < 0x10000000000000000) :
    ∃ s, scan ⟨ts, .between⟩ (Number.int n lower upper).text.toList = some s
      ∧ s.close = some (.num (.int n lower upper) :: ts) := by
  have read := Number.ofChars?_text_int n lower upper
  obtain ⟨c, σ, hσ, first, later⟩ := text_int_eq_cons n lower upper
  rw [hσ] at read ⊢
  refine ⟨⟨ts, .number (σ.reverse ++ [c])⟩, ?_, ?_⟩
  · have begun : step ⟨ts, .between⟩ c = some ⟨ts, .number [c]⟩ := start_number ts first
    rw [scan, List.foldlM_cons, begun, Option.bind_eq_bind, Option.bind_some, ← scan,
      scan_number ts [c] later]
  · simp [State.close, read]

end Scanner

/-! ## Texts of tokens -/

namespace Token

/-- A token that is no floating point number. -/
def Exact : Token → Prop
  | num (.float _ _) => False
  | _ => True

/-- A word or a number, whose end is seen only by what follows it. -/
def Solid : Token → Prop
  | null | bool _ | num _ => True
  | _ => False

/-- No word or number goes on in this text. -/
def Apart (σ : List Char) : Prop := ∀ c ∈ σ.head?, Scanner.inNumber c = false ∧ c.isLower = false

/-- A text spells tokens: they stand in it one after the other, with blanks between them or not. -/
inductive Spells : List Char → List Token → Prop
  /-- no tokens -/
  | nil : Spells [] []
  /-- a blank before the rest -/
  | blank {c : Char} {σ : List Char} {ts : List Token}
      (hc : c = ' ' ∨ c = '\n' ∨ c = '\t' ∨ c = '\r') (rest : Spells σ ts) : Spells (c :: σ) ts
  /-- a token before the rest -/
  | token {t : Token} {σ : List Char} {ts : List Token} (exact : t.Exact)
      (apart : t.Solid → Apart σ) (rest : Spells σ ts) : Spells (t.text.toList ++ σ) (t :: ts)

end Token

namespace Scanner

/-- A word or number ends before a character that cannot belong to it. -/
theorem step_of_close {s : State} {ts : List Token} (h : s.close = some ts) {c : Char}
    (hn : inNumber c = false) (hl : c.isLower = false) : step s c = start ts c := by
  obtain ⟨ts', mode⟩ := s
  cases mode with
  | between =>
    obtain rfl := Option.some.inj h
    rfl
  | word σ => simp [step, hl, h]
  | number σ => simp [step, hn, h]
  | _ => cases h

/-- After a word or number, the text goes on as if the token were there already. -/
theorem scan_close_of_apart {s : State} {ts : List Token} (h : s.close = some ts) {σ : List Char}
    (apart : Token.Apart σ) :
    scan s σ >>= State.close = scan ⟨ts, .between⟩ σ >>= State.close := by
  cases σ with
  | nil => exact h
  | cons c σ =>
    obtain ⟨hn, hl⟩ := apart c rfl
    rw [scan, scan, List.foldlM_cons, List.foldlM_cons, step_of_close h hn hl]
    rfl

/-- A token is read back, and the text goes on after it. -/
theorem scan_token {t : Token} (exact : t.Exact) {σ : List Char} (apart : t.Solid → Token.Apart σ)
    (ts : List Token) :
    scan ⟨ts, .between⟩ (t.text.toList ++ σ) >>= State.close
      = scan ⟨t :: ts, .between⟩ σ >>= State.close := by
  rw [scan_append, bind_assoc]
  -- only words and numbers are still open when their text ends
  cases t with
  | num n =>
    cases n with
    | int n lower upper =>
      obtain ⟨s, hs, hc⟩ := scan_int ts n lower upper
      rw [Token.text, hs]
      exact scan_close_of_apart hc (apart trivial)
    | float x finite => cases exact
  | null => exact scan_close_of_apart (s := ⟨ts, .word ['l', 'l', 'u', 'n']⟩) rfl (apart trivial)
  | bool b =>
    cases b with
    | true => exact scan_close_of_apart (s := ⟨ts, .word ['e', 'u', 'r', 't']⟩) rfl (apart trivial)
    | false =>
      exact scan_close_of_apart (s := ⟨ts, .word ['e', 's', 'l', 'a', 'f']⟩) rfl (apart trivial)
  | str s =>
    rw [Token.text, scan_quote]
    rfl
  | _ => rfl

/-- **Tokens are read back from a text that spells them.** -/
theorem scan_of_spells {σ : List Char} {ts : List Token} (h : Token.Spells σ ts)
    (before : List Token) :
    scan ⟨before, .between⟩ σ >>= State.close = some (ts.reverse ++ before) := by
  induction h generalizing before with
  | nil => rfl
  | @blank c σ ts hc rest ih =>
    have skipped : step ⟨before, .between⟩ c = some ⟨before, .between⟩ := if_pos hc
    rw [scan, List.foldlM_cons, skipped]
    exact ih before
  | token exact apart rest ih =>
    rw [scan_token exact apart, ih, List.reverse_cons, List.append_assoc]
    rfl

end Scanner

theorem Token.scan?_of_spells {σ : List Char} {ts : List Token} (h : Spells σ ts) :
    scan? σ = some ts := by
  have read := Scanner.scan_of_spells h []
  obtain ⟨s, hs, hc⟩ := Option.bind_eq_some_iff.1 read
  rw [scan?, show List.foldlM Scanner.step Scanner.State.start σ = some s from hs]
  simp [hc]

end BlockWalk.Json
