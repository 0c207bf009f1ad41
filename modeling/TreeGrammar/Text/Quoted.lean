/-!
# Quoted text

Names and tags are written between double quotes in ASCII. A quote, a backslash and the control
characters with a short form are escaped by a backslash; every other character outside the printable
ASCII range is written as `\u` and four lower-case hexadecimal digits, one such unit for a character
of the basic plane and a surrogate pair for one above it.

* `hexDigits w n`: the last `w` hexadecimal digits of `n`.
* `Quoted.escape`: the written form of one character.
* `quote`: the quoted form of a text.
-/

namespace TreeGrammar.Text

/-- The lower-case hexadecimal digit of a number below sixteen. -/
def hexDigit (n : Nat) : Char :=
  if n < 10 then Char.ofNat (48 + n) else Char.ofNat (87 + n)

/-- The last `w` hexadecimal digits of `n`, most significant first. -/
def hexDigits : (w : Nat) → Nat → List Char
  | 0, _ => []
  | w + 1, n => hexDigits w (n / 16) ++ [hexDigit (n % 16)]

/-- As many digits are written as are asked for. -/
theorem length_hexDigits (w n : Nat) : (hexDigits w n).length = w := by
  induction w generalizing n with
  | zero => rfl
  | succ w ih => simp [hexDigits, ih]

namespace Quoted

/-- One 16-bit unit: a backslash, the letter `u` and four digits. -/
def unit16 (n : Nat) : List Char :=
  '\\' :: 'u' :: hexDigits 4 n

/-- The written form of one character between the quotes. -/
def escape (c : Char) : List Char :=
  if c = '"' then ['\\', '"']
  else if c = '\\' then ['\\', '\\']
  else if c = '\n' then ['\\', 'n']
  else if c = '\r' then ['\\', 'r']
  else if c = '\t' then ['\\', 't']
  else if c = '\x08' then ['\\', 'b']
  else if c = '\x0c' then ['\\', 'f']
  else if 0x20 ≤ c.toNat ∧ c.toNat ≤ 0x7e then [c]
  else if c.toNat < 0x10000 then unit16 c.toNat
  else unit16 (0xd800 + (c.toNat - 0x10000) / 0x400) ++ unit16 (0xdc00 + c.toNat % 0x400)

end Quoted

/-- The text between double quotes, in ASCII. -/
def quote (s : String) : String :=
  String.ofList ('"' :: (s.toList.flatMap Quoted.escape ++ ['"']))

end TreeGrammar.Text
