/-!
# Decimal fractions

A decimal fraction is a sign and a whole number of units of a power of ten; zero has a sign as well.
It is written with the fewest digits and at least one digit after the point, in positional notation
while the point lies at most sixteen digits after and at most three zeros before the first digit,
and by an exponent otherwise. What it stands for is the nearest 64-bit floating-point number.

* `Fraction`: the fractions.
* `Fraction.text`: the text.
* `Fraction.value`, `Fraction.equalsInt`: what a fraction stands for, and whether that is a given
  whole number.
-/

namespace TreeGrammar.Text

/-- The number `mantissa * 10 ^ exponent`, or its negative. -/
structure Fraction where
  negative : Bool
  mantissa : Nat
  exponent : Int
deriving Inhabited

namespace Fraction

/-- The digits without trailing zeros. -/
def trimZeros (digits : List Char) : List Char :=
  (digits.reverse.dropWhile (· == '0')).reverse

/-- The fraction `0.d₁d₂… · 10 ^ point` in positional notation. -/
def positional (digits : List Char) (point : Int) : List Char :=
  if point ≤ 0 then '0' :: '.' :: (List.replicate (-point).toNat '0' ++ digits)
  else
    let zeros := List.replicate (point.toNat - digits.length) '0'
    let rest := digits.drop point.toNat
    digits.take point.toNat ++ zeros ++ '.' :: (if rest.isEmpty then ['0'] else rest)

/-- The fraction `0.d₁d₂… · 10 ^ point` with one digit before the point and an exponent of at least
two digits. -/
def scientific (digits : List Char) (point : Int) : List Char :=
  let lead := match digits with
    | d :: e :: rest => d :: '.' :: e :: rest
    | ds => ds
  let size := (point - 1).natAbs.repr.toList
  lead ++ 'e' :: (if point - 1 < 0 then '-' else '+') ::
    (List.replicate (2 - size.length) '0' ++ size)

/-- The text of a fraction. -/
def text (f : Fraction) : String :=
  let all := f.mantissa.repr.toList
  let digits := trimZeros all
  let point : Int := all.length + f.exponent
  let body :=
    if digits.isEmpty then ['0', '.', '0']
    else if -4 < point ∧ point ≤ 16 then positional digits point
    else scientific digits point
  String.ofList (if f.negative then '-' :: body else body)

/-- The nearest 64-bit floating-point number. -/
def value (f : Fraction) : Float :=
  let size := Float.ofScientific f.mantissa (f.exponent < 0) f.exponent.natAbs
  if f.negative then -size else size

/-- Whether a fraction stands for a whole number. The number has to be a 64-bit floating-point
number itself, which has no more than 53 binary digits before the zeros at its end. -/
def equalsInt (f : Fraction) (i : Int) : Bool :=
  i.natAbs % (1 <<< (i.natAbs.log2 - 52)) == 0 && f.value == Float.ofInt i

end Fraction

end TreeGrammar.Text
