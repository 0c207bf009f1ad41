import TreeGrammar.Text.Blank

/-!
# Numerals

The whole numbers a user may type: blanks around the number are skipped, one sign may stand before
the digits, single underscores may stand between digits, and a digit of any script counts as the
decimal digit it stands for. There is a limit to the number of digits, and a text is refused for
having more of them before what follows the digits is looked at.

* `decimalDigit?`: the value of a decimal digit.
* `Numeral.digits?`: the digits at the beginning of a text, with single underscores between them.
* `Numeral.read`: the number a text stands for, or why it stands for none.
-/

namespace TreeGrammar.Text

/-- The code points of the digit zero in each script of Unicode 14; the digits one to nine follow
each of them in order. -/
def zeroDigits : List Nat := [
  0x30, 0x660, 0x6f0, 0x7c0, 0x966, 0x9e6, 0xa66, 0xae6, 0xb66, 0xbe6, 0xc66, 0xce6, 0xd66, 0xde6,
  0xe50, 0xed0, 0xf20, 0x1040, 0x1090, 0x17e0, 0x1810, 0x1946, 0x19d0, 0x1a80, 0x1a90, 0x1b50,
  0x1bb0, 0x1c40, 0x1c50, 0xa620, 0xa8d0, 0xa900, 0xa9d0, 0xa9f0, 0xaa50, 0xabf0, 0xff10, 0x104a0,
  0x10d30, 0x11066, 0x110f0, 0x11136, 0x111d0, 0x112f0, 0x11450, 0x114d0, 0x11650, 0x116c0,
  0x11730, 0x118e0, 0x11950, 0x11c50, 0x11d50, 0x11da0, 0x16a60, 0x16ac0, 0x16b50, 0x1d7ce,
  0x1d7d8, 0x1d7e2, 0x1d7ec, 0x1d7f6, 0x1e140, 0x1e2f0, 0x1e950, 0x1fbf0]

/-- The value of a decimal digit of any script. -/
def decimalDigit? (c : Char) : Option Nat :=
  (zeroDigits.find? fun z => z ≤ c.toNat && c.toNat ≤ z + 9).map (c.toNat - ·)

namespace Numeral

/-- Digits that were read: the number they stand for, how many they are, and what follows them. -/
structure Digits where
  value : Nat
  count : Nat
  rest : List Char

/-- Reads as many digits as there are, after `count` digits of the value `value`. An underscore is
passed over when a digit stands on both sides of it, so `afterDigit` says whether the last character
was a digit. -/
def digits? (value count : Nat) (afterDigit : Bool) : List Char → Option Digits
  | [] => if afterDigit then some ⟨value, count, []⟩ else none
  | c :: rest =>
    if c = '_' then if afterDigit then digits? value count false rest else none
    else
      match decimalDigit? c with
      | some d => digits? (10 * value + d) (count + 1) true rest
      | none => if afterDigit then some ⟨value, count, c :: rest⟩ else none

/-- Why a text stands for no number. -/
inductive Fault where
  | malformed
  | tooLong (digits : Nat)

/-- The greatest number of digits. -/
def limit : Nat := 4300

/-- Reads digits and the blanks after them. -/
def unsigned (cs : List Char) : Except Fault Nat :=
  match digits? 0 0 false cs with
  | none => .error .malformed
  | some ds =>
    if limit < ds.count then .error (.tooLong ds.count)
    else if ds.rest.all isBlank then .ok ds.value
    else .error .malformed

/-- The number a text stands for. -/
def read (s : String) : Except Fault Int :=
  match s.toList.dropWhile isBlank with
  | '-' :: cs => (unsigned cs).map fun n => -(n : Int)
  | '+' :: cs => (unsigned cs).map Int.ofNat
  | cs => (unsigned cs).map Int.ofNat

end Numeral

end TreeGrammar.Text
