import BlockWalk.Json
import BlockWalk.Text.Numeral

/-!
# Tokens of JSON

A text is cut into tokens from left to right, one character after the other: `Scanner.step` takes a
character in, and fails at the first that no token can hold. Blanks are gone after that, so two
texts that differ in blanks alone have the same tokens.

A number runs on as long as the characters can belong to one. No two numbers or words may touch in a
JSON text, so that cuts nothing short.
-/

namespace BlockWalk.Json

/-- The smallest parts of a JSON text. -/
inductive Token where
  /-- the bracket `[` -/
  | openArray
  /-- the bracket `]` -/
  | closeArray
  /-- an opening brace -/
  | openObject
  /-- a closing brace -/
  | closeObject
  /-- the sign `,` -/
  | comma
  /-- the sign `:` -/
  | colon
  /-- the word `null` -/
  | null
  /-- the word `true` or `false` -/
  | bool (b : Bool)
  /-- a number -/
  | num (n : Number)
  /-- a text between quotes -/
  | str (s : String)
  deriving DecidableEq, Repr

/-! ## Writing -/

/-- A character of a text, as it stands between quotes. Quotes, backslashes and controls are marked
by a backslash, all others stand for themselves. -/
def escape (c : Char) : List Char :=
  if c = '"' then ['\\', '"']
  else if c = '\\' then ['\\', '\\']
  else if c = '\x08' then ['\\', 'b']
  else if c = '\x0c' then ['\\', 'f']
  else if c = '\n' then ['\\', 'n']
  else if c = '\r' then ['\\', 'r']
  else if c = '\t' then ['\\', 't']
  else if c.toNat < 32 then '\\' :: 'u' :: (Text.hexadecimalPadded 4 c.toNat).toList
  else [c]

/-- A text between quotes. -/
def quote (s : String) : String := String.ofList ('"' :: (s.toList.flatMap escape ++ ['"']))

/-- How a token is written. -/
def Token.text : Token → String
  | openArray => "["
  | closeArray => "]"
  | openObject => "\x7b"
  | closeObject => "\x7d"
  | comma => ","
  | colon => ":"
  | null => "null"
  | bool true => "true"
  | bool false => "false"
  | num n => n.text
  | str s => quote s

/-! ## Reading -/

namespace Scanner

/-- What the next character belongs to. Characters taken so far are kept last first. -/
inductive Mode where
  /-- a blank or the start of a token -/
  | between
  /-- a word of small letters -/
  | word (σ : List Char)
  /-- a number -/
  | number (σ : List Char)
  /-- a text between quotes -/
  | text (σ : List Char)
  /-- the character after a backslash -/
  | escape (σ : List Char)
  /-- one of the `left` digits of a code unit; `n` is the value of those before it, and `high` the
  first half of a surrogate pair if this is the second -/
  | unit (σ : List Char) (high : Option Nat) (left : Nat) (n : Nat)
  /-- the backslash before the second half of a surrogate pair -/
  | backslash (σ : List Char) (high : Nat)
  /-- the letter before the digits of the second half -/
  | letter (σ : List Char) (high : Nat)

/-- The tokens found so far, last first, and what comes next. -/
structure State where
  /-- the tokens, last first -/
  tokens : List Token
  /-- what the next character belongs to -/
  mode : Mode

/-- Before the first character. -/
def State.start : State := ⟨[], .between⟩

/-- The word whose letters are given, last first. -/
def wordToken? (σ : List Char) : Option Token :=
  if σ = ['l', 'l', 'u', 'n'] then some .null
  else if σ = ['e', 'u', 'r', 't'] then some (.bool true)
  else if σ = ['e', 's', 'l', 'a', 'f'] then some (.bool false)
  else none

/-- Can `c` stand in a number? -/
def inNumber (c : Char) : Bool :=
  c.isDigit || c = '-' || c = '+' || c = '.' || c = 'e' || c = 'E'

/-- A character between tokens: a blank, a token of its own, or the start of a longer one. -/
def start (ts : List Token) (c : Char) : Option State :=
  if c = ' ' ∨ c = '\n' ∨ c = '\t' ∨ c = '\r' then some ⟨ts, .between⟩
  else if c = '[' then some ⟨.openArray :: ts, .between⟩
  else if c = ']' then some ⟨.closeArray :: ts, .between⟩
  else if c = '\x7b' then some ⟨.openObject :: ts, .between⟩
  else if c = '\x7d' then some ⟨.closeObject :: ts, .between⟩
  else if c = ',' then some ⟨.comma :: ts, .between⟩
  else if c = ':' then some ⟨.colon :: ts, .between⟩
  else if c = '"' then some ⟨ts, .text []⟩
  else if c = '-' ∨ c.isDigit then some ⟨ts, .number [c]⟩
  else if c.isLower then some ⟨ts, .word [c]⟩
  else none

/-- Ends a word or a number. A text cannot end here. -/
def State.close (s : State) : Option (List Token) :=
  match s.mode with
  | .between => some s.tokens
  | .word σ => (wordToken? σ).map (· :: s.tokens)
  | .number σ => (Number.ofChars? σ.reverse).map fun n => .num n :: s.tokens
  | _ => none

/-- The character that a letter after a backslash stands for. -/
def unescape? (c : Char) : Option Char :=
  if c = '"' ∨ c = '\\' ∨ c = '/' then some c
  else if c = 'b' then some '\x08'
  else if c = 'f' then some '\x0c'
  else if c = 'n' then some '\n'
  else if c = 'r' then some '\r'
  else if c = 't' then some '\t'
  else none

/-- The value of a digit of base sixteen, in either case. -/
def hexValue? (c : Char) : Option Nat :=
  if c.isDigit then some (c.toNat - 48)
  else if 'a' ≤ c ∧ c ≤ 'f' then some (c.toNat - 87)
  else if 'A' ≤ c ∧ c ≤ 'F' then some (c.toNat - 55)
  else none

/-- A complete code unit: a character, or one half of a surrogate pair. -/
def unit? (σ : List Char) (high : Option Nat) (n : Nat) : Option Mode :=
  let isHigh := 0xD800 ≤ n ∧ n ≤ 0xDBFF
  let isLow := 0xDC00 ≤ n ∧ n ≤ 0xDFFF
  match high with
  | some h =>
    if isLow then some (.text (Char.ofNat (0x10000 + (h - 0xD800) * 0x400 + (n - 0xDC00)) :: σ))
    else none
  | none =>
    if isHigh then some (.backslash σ n)
    else if isLow then none
    else some (.text (Char.ofNat n :: σ))

/-- Takes one character in. -/
def step (s : State) (c : Char) : Option State :=
  match s.mode with
  | .between => start s.tokens c
  | .word σ =>
    if c.isLower then some ⟨s.tokens, .word (c :: σ)⟩
    else s.close >>= fun ts => start ts c
  | .number σ =>
    if inNumber c then some ⟨s.tokens, .number (c :: σ)⟩
    else s.close >>= fun ts => start ts c
  | .text σ =>
    if c = '"' then some ⟨.str (String.ofList σ.reverse) :: s.tokens, .between⟩
    else if c = '\\' then some ⟨s.tokens, .escape σ⟩
    else if c.toNat < 32 then none
    else some ⟨s.tokens, .text (c :: σ)⟩
  | .escape σ =>
    if c = 'u' then some ⟨s.tokens, .unit σ none 4 0⟩
    else (unescape? c).map fun d => ⟨s.tokens, .text (d :: σ)⟩
  | .unit σ high left n =>
    (hexValue? c).bind fun d =>
      if left ≤ 1 then (unit? σ high (16 * n + d)).map fun m => ⟨s.tokens, m⟩
      else some ⟨s.tokens, .unit σ high (left - 1) (16 * n + d)⟩
  | .backslash σ h => if c = '\\' then some ⟨s.tokens, .letter σ h⟩ else none
  | .letter σ h => if c = 'u' then some ⟨s.tokens, .unit σ (some h) 4 0⟩ else none

end Scanner

/-- The tokens of a text, if it consists of tokens and blanks. -/
def Token.scan? (σ : List Char) : Option (List Token) := do
  let s ← σ.foldlM Scanner.step Scanner.State.start
  return (← s.close).reverse

end BlockWalk.Json
