/-!
# Blank characters

* `isBlank`: the characters that may surround a number a user types: the space, the five control
  characters that move the writing position, and the white space of other scripts. The information
  separators U+001C to U+001F are not among them.
-/

namespace TreeGrammar.Text

/-- White space around a numeral. -/
def isBlank (c : Char) : Bool :=
  let n := c.toNat
  n == 0x20 || (0x9 ≤ n && n ≤ 0xd) || n == 0x85 || n == 0xa0 || n == 0x1680 ||
    (0x2000 ≤ n && n ≤ 0x200a) || n == 0x2028 || n == 0x2029 || n == 0x202f || n == 0x205f ||
    n == 0x3000

end TreeGrammar.Text
