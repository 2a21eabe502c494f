import BlockWalk.Bytes.Base16

/-!
# Tokens of TOML

Names, texts, marks and line ends. Blanks and comments disappear. A text stands between quotes of
one kind, single or in threes; between double quotes a backslash has a meaning, and only between
threes may a text go over several lines.

Each reader gives what follows the part that it read. That this is no longer than the text it
started from is the lemma `length_of_` of the reader, and why `scan?` comes to an end.
-/

namespace BlockWalk.Toml

/-- A part of a TOML text. -/
inductive Token where
  /-- letters, digits, `_` and `-` -/
  | bare (s : String)
  /-- a text on one line -/
  | line (s : String)
  /-- a text between three quotes -/
  | block (s : String)
  /-- one of `=`, `.`, `,` and the brackets and braces -/
  | mark (c : Char)
  /-- the end of a line -/
  | newline
  deriving DecidableEq, Repr

namespace Token

/-- May a character stand in a name without quotes? -/
def isBare (c : Char) : Bool := c.isAlphanum || c = '_' || c = '-'

/-- A blank inside a line. -/
def isBlank (c : Char) : Bool := c = ' ' || c = '\t'

/-- May a character stand in a comment, or for itself in a text? Controls may not. -/
def isPlain (c : Char) : Bool := c = '\t' || (' ' ≤ c && c ≠ '\x7f')

/-- Is it a mark? -/
def isMark (c : Char) : Bool := ['=', '.', ',', '[', ']', '\x7b', '\x7d'].contains c

/-! ## Texts -/

/-- The value of a digit in base sixteen. -/
def digit? (c : Char) : Option Nat :=
  if c.isDigit then some (c.toNat - 48)
  else if 'a' ≤ c && c ≤ 'f' then some (c.toNat - 87)
  else if 'A' ≤ c && c ≤ 'F' then some (c.toNat - 55)
  else none

/-- The character whose number is spelled by digits. -/
def charOfDigits? (σ : List Char) : Option Char := do
  let n := (← σ.mapM digit?).foldl (fun n d => 16 * n + d) 0
  if h : n.isValidChar then some (Char.ofNatAux n h) else none

/-- What `n` digits after a backslash stand for, and what follows them. -/
def numbered? (n : Nat) (σ : List Char) : Option (List Char × List Char) :=
  if (σ.take n).length = n then (charOfDigits? (σ.take n)).map fun c => ([c], σ.drop n) else none

theorem length_of_numbered? {n : Nat} {σ τ rest : List Char}
    (h : numbered? n σ = some (τ, rest)) : rest.length ≤ σ.length := by
  unfold numbered? at h
  split at h
  · obtain ⟨c, -, hc⟩ := Option.map_eq_some_iff.1 h
    obtain ⟨-, rfl⟩ := Prod.mk.inj hc
    simp
  · cases h

/-- What follows the line end at the start, if there is one. -/
def lineEnd? : List Char → Option (List Char)
  | '\n' :: σ => some σ
  | '\r' :: '\n' :: σ => some σ
  | _ => none

theorem length_of_lineEnd? {σ rest : List Char} (h : lineEnd? σ = some rest) :
    rest.length < σ.length := by
  unfold lineEnd? at h
  split at h
  · cases h
    simp
  · cases h
    simp only [List.length_cons]
    omega
  · cases h

theorem length_dropWhile_le {α : Type} (p : α → Bool) (l : List α) :
    (l.dropWhile p).length ≤ l.length := (List.dropWhile_sublist p).length_le

/-- Leaves out blanks and line ends. -/
def skipBlank : List Char → List Char
  | '\r' :: '\n' :: σ => skipBlank σ
  | c :: σ => if isBlank c || c = '\n' then skipBlank σ else c :: σ
  | [] => []

theorem length_skipBlank_le (σ : List Char) : (skipBlank σ).length ≤ σ.length := by
  fun_induction skipBlank σ with
  | case1 σ ih =>
    simp only [List.length_cons]
    omega
  | case2 c σ _ _ ih =>
    simp only [List.length_cons]
    omega
  | case3 => simp
  | case4 => simp

/-- What is after a backslash stands for, and what follows it. In a text over several lines a
backslash at the end of a line leaves out the line end and all blanks after it. -/
def escape? (several : Bool) : List Char → Option (List Char × List Char)
  | 'b' :: σ => some (['\x08'], σ)
  | 't' :: σ => some (['\t'], σ)
  | 'n' :: σ => some (['\n'], σ)
  | 'f' :: σ => some (['\x0c'], σ)
  | 'r' :: σ => some (['\r'], σ)
  | '"' :: σ => some (['"'], σ)
  | '\\' :: σ => some (['\\'], σ)
  | 'u' :: σ => numbered? 4 σ
  | 'U' :: σ => numbered? 8 σ
  | σ =>
    if several then (lineEnd? (σ.dropWhile isBlank)).map fun τ => ([], skipBlank τ) else none

theorem length_of_escape? {several : Bool} {σ τ rest : List Char}
    (h : escape? several σ = some (τ, rest)) : rest.length ≤ σ.length := by
  unfold escape? at h
  split at h
  case h_8 | h_9 =>
    have := length_of_numbered? h
    simp only [List.length_cons]
    omega
  case h_10 =>
    split at h
    · obtain ⟨line, hline, hc⟩ := Option.map_eq_some_iff.1 h
      obtain ⟨-, rfl⟩ := Prod.mk.inj hc
      exact Nat.le_of_lt (Nat.lt_of_lt_of_le (Nat.lt_of_le_of_lt (length_skipBlank_le line)
        (length_of_lineEnd? hline)) (length_dropWhile_le isBlank _))
    · cases h
  all_goals
    cases h
    simp

/-- Takes off the quotes that end a text between threes: the last three of up to five. -/
def closing? (q : Char) (σ : List Char) : Option (List Char × List Char) :=
  let n := ((σ.take 5).takeWhile (· = q)).length
  if 3 ≤ n then some (List.replicate (n - 3) q, σ.drop n) else none

/-- A text up to the quote `q` that ends it; `before` is what was read of it, last first. -/
def text? (q : Char) (several : Bool) (before : List Char) :
    List Char → Option (String × List Char)
  | [] => none
  | c :: σ =>
    if c = q then
      if several then
        match closing? q (c :: σ) with
        | some (quotes, rest) => some (String.ofList (before.reverse ++ quotes), rest)
        | none => text? q several (c :: before) σ
      else some (String.ofList before.reverse, σ)
    else if c = '\\' && q = '"' then
      match _h : escape? several σ with
      | some (τ, rest) => text? q several (τ.reverse ++ before) rest
      | none => none
    else if several && (c = '\n' || c = '\r') then
      match _h : lineEnd? (c :: σ) with
      | some rest => text? q several ('\n' :: before) rest
      | none => none
    else if isPlain c then text? q several (c :: before) σ
    else none
termination_by σ => σ.length
decreasing_by
  · simp
  · have := length_of_escape? _h
    simp only [List.length_cons]
    omega
  · exact length_of_lineEnd? _h
  · simp

theorem length_of_text? {q : Char} {several : Bool} {before σ rest : List Char} {s : String}
    (h : text? q several before σ = some (s, rest)) : rest.length ≤ σ.length := by
  fun_induction text? q several before σ with
  | case1 => cases h
  | case2 before σ _ quotes tail hclosing =>
    cases h
    unfold closing? at hclosing
    dsimp only at hclosing
    split at hclosing
    · cases hclosing
      simp only [List.length_drop, Nat.sub_le]
    · cases hclosing
  | case3 before σ _ _ ih => exact Nat.le_succ_of_le (ih h)
  | case4 before c σ =>
    cases h
    simp
  | case5 before c σ _ _ τ tail hescape ih =>
    have := length_of_escape? hescape
    have := ih h
    simp only [List.length_cons]
    omega
  | case6 => cases h
  | case7 before c σ _ _ _ tail hline ih =>
    exact Nat.le_trans (ih h) (Nat.le_of_lt (length_of_lineEnd? hline))
  | case8 => cases h
  | case9 before c σ _ _ _ _ ih => exact Nat.le_succ_of_le (ih h)
  | case10 => cases h

/-- A text that starts with the quote `q`, which is taken off already. -/
def quoted? (q : Char) (σ : List Char) : Option (Token × List Char) :=
  if [q, q].isPrefixOf σ then
    let σ := σ.drop 2
    (text? q true [] ((lineEnd? σ).getD σ)).map fun (s, rest) => (.block s, rest)
  else (text? q false [] σ).map fun (s, rest) => (.line s, rest)

theorem length_of_quoted? {q : Char} {σ rest : List Char} {t : Token}
    (h : quoted? q σ = some (t, rest)) : rest.length ≤ σ.length := by
  unfold quoted? at h
  split at h
  · obtain ⟨⟨s, tail⟩, htext, hc⟩ := Option.map_eq_some_iff.1 h
    obtain ⟨-, rfl⟩ := Prod.mk.inj hc
    have hlong := length_of_text? htext
    have hdrop : (σ.drop 2).length ≤ σ.length := by simp
    cases hline : lineEnd? (σ.drop 2) with
    | none =>
      simp only [hline, Option.getD_none] at hlong
      omega
    | some line =>
      have := length_of_lineEnd? hline
      simp only [hline, Option.getD_some] at hlong
      omega
  · obtain ⟨⟨s, tail⟩, htext, hc⟩ := Option.map_eq_some_iff.1 h
    obtain ⟨-, rfl⟩ := Prod.mk.inj hc
    exact length_of_text? htext

/-! ## All tokens -/

/-- The next token, none of it for blanks and comments, and what follows it. -/
def next? : List Char → Option (Option Token × List Char)
  | [] => none
  | c :: σ =>
    if isBlank c then some (none, σ.dropWhile isBlank)
    else if c = '#' then some (none, σ.dropWhile isPlain)
    else if isBare c then
      some (some (.bare (String.ofList (c :: σ.takeWhile isBare))), σ.dropWhile isBare)
    else if isMark c then some (some (.mark c), σ)
    else if c = '"' || c = '\'' then (quoted? c σ).map fun (t, rest) => (some t, rest)
    else (lineEnd? (c :: σ)).map fun rest => (some .newline, rest)

theorem length_of_next? {σ rest : List Char} {t : Option Token}
    (h : next? σ = some (t, rest)) : rest.length < σ.length := by
  cases σ with
  | nil => cases h
  | cons c σ =>
    simp only [next?] at h
    split at h
    · cases h
      exact Nat.lt_succ_of_le (length_dropWhile_le _ σ)
    split at h
    · cases h
      exact Nat.lt_succ_of_le (length_dropWhile_le _ σ)
    split at h
    · cases h
      exact Nat.lt_succ_of_le (length_dropWhile_le _ σ)
    split at h
    · cases h
      simp
    split at h
    · obtain ⟨⟨u, tail⟩, hquoted, hc⟩ := Option.map_eq_some_iff.1 h
      obtain ⟨-, rfl⟩ := Prod.mk.inj hc
      exact Nat.lt_succ_of_le (length_of_quoted? hquoted)
    · obtain ⟨line, hline, hc⟩ := Option.map_eq_some_iff.1 h
      obtain ⟨-, rfl⟩ := Prod.mk.inj hc
      exact length_of_lineEnd? hline

/-- The tokens of a text, behind those `before` it, which are in turned order; none if a part of it
is no token. -/
def scanFrom? (before : List Token) (σ : List Char) : Option (List Token) :=
  if σ.isEmpty then some before.reverse
  else
    match _h : next? σ with
    | none => none
    | some (none, rest) => scanFrom? before rest
    | some (some t, rest) => scanFrom? (t :: before) rest
termination_by σ.length
decreasing_by
  · exact length_of_next? _h
  · exact length_of_next? _h

/-- The tokens of a text; none if a part of it is no token. -/
def scan? (σ : List Char) : Option (List Token) := scanFrom? [] σ

end Token

end BlockWalk.Toml
