import TreeGrammar.Text.Printable
import TreeGrammar.Text.Quoted

/-!
# Literals

Messages show a value by its literal. A text stands between single quotes, or between double quotes
when it holds a single quote and no double one; the quote in use, the backslash, the newline, the
carriage return and the tab are escaped by a backslash, and unprintable characters are written by
their code point in two, four or eight hexadecimal digits.

* `Literal.escape`: the written form of one character.
* `literal`: the literal of a text.
-/

namespace TreeGrammar.Text

namespace Literal

/-- The single quote. -/
def singleQuote : Char := Char.ofNat 39

/-- The quote that a text is written between. -/
def quoteFor (cs : List Char) : Char :=
  if singleQuote ∈ cs ∧ '"' ∉ cs then '"' else singleQuote

/-- An unprintable character by its code point. -/
def codePoint (n : Nat) : List Char :=
  if n < 0x100 then '\\' :: 'x' :: hexDigits 2 n
  else if n < 0x10000 then '\\' :: 'u' :: hexDigits 4 n
  else '\\' :: 'U' :: hexDigits 8 n

/-- The written form of one character between the quotes `q`. -/
def escape (q c : Char) : List Char :=
  if c = q ∨ c = '\\' then ['\\', c]
  else if c = '\n' then ['\\', 'n']
  else if c = '\r' then ['\\', 'r']
  else if c = '\t' then ['\\', 't']
  else if isPrintable c then [c]
  else codePoint c.toNat

end Literal

/-- The literal of a text. -/
def literal (s : String) : String :=
  let q := Literal.quoteFor s.toList
  String.ofList (q :: (s.toList.flatMap (Literal.escape q) ++ [q]))

end TreeGrammar.Text
