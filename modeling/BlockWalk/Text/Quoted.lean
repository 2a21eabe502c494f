import BlockWalk.Text.Numeral

/-!
# Quoted characters

How a message shows one byte that stands where a digit should: as the character of that code
between single quotes. A quote or backslash is marked by a backslash, the usual controls have a
letter, and whatever leaves no mark on paper is shown by its number.
-/

namespace BlockWalk.Text

/-- No ink: controls, the no-break space and the soft hyphen. -/
def isBlank (b : UInt8) : Bool := b < 32 || (127 ≤ b && b ≤ 160) || b = 173

/-- The character of code `b`, as it stands between quotes. -/
def escapeByte (b : UInt8) : String :=
  if b = 0 then "\\0"
  else if b = 9 then "\\t"
  else if b = 10 then "\\n"
  else if b = 13 then "\\r"
  else if b = 39 then "\\'"
  else if b = 92 then "\\\\"
  else if isBlank b then "\\u\x7b" ++ hexadecimal b.toNat ++ "\x7d"
  else String.singleton (Char.ofNat b.toNat)

/-- The character of code `b` between quotes. -/
def quoteByte (b : UInt8) : String := "'" ++ escapeByte b ++ "'"

end BlockWalk.Text
