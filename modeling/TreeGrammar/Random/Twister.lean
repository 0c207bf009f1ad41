/-!
# The Mersenne twister

The generator MT19937: 624 words of 32 bits are mixed into new ones whenever all have been handed
out, and each word is tempered when it is. A seed is a sequence of words. Numbers of more than 32
bits take the first word for their lowest bits, and a number below a bound is drawn by trying again
until one with as many bits as the bound lies below it.

* `Twister`: the words and how many of them have been handed out.
* `Twister.ofSeed`: the generator for a whole number; the sign does not count.
* `Twister.word`, `Twister.bits`, `Twister.below`: the draws.
-/

namespace TreeGrammar

/-- The words of the generator, and how many of them have been handed out. -/
structure Twister where
  words : Array UInt32
  used : Nat

namespace Twister

/-- The number of words. -/
def size : Nat := 624

/-- A word, or zero outside the array. -/
def wordAt (words : Array UInt32) (i : Nat) : UInt32 :=
  words.getD i 0

/-- The mixture of a word that all seeding steps use. -/
def stir (x : UInt32) : UInt32 :=
  x ^^^ (x >>> 30)

/-- The words for a single seed. -/
def plain (seed : UInt32) : Array UInt32 :=
  (List.range (size - 1)).foldl
    (fun words i => words.push (1812433253 * stir (wordAt words i) + UInt32.ofNat (i + 1))) #[seed]

/-- The position after `i`, where the first position stands for the last one as well. -/
def advance (words : Array UInt32) (i : Nat) : Array UInt32 × Nat :=
  if i + 1 < size then (words, i + 1) else (words.setIfInBounds 0 (wordAt words (size - 1)), 1)

/-- Mixes the words of a seed in, `fuel` steps from position `i` of the words and position `j` of
the seed. -/
def mixSeed (seed : Array UInt32) : (fuel : Nat) → Array UInt32 → (i j : Nat) → Array UInt32 × Nat
  | 0, words, i, _ => (words, i)
  | fuel + 1, words, i, j =>
    let stirred := stir (wordAt words (i - 1)) * 1664525
    let mixed := (wordAt words i ^^^ stirred) + wordAt seed j + UInt32.ofNat j
    let (words, i) := advance (words.setIfInBounds i mixed) i
    mixSeed seed fuel words i (if j + 1 < seed.size then j + 1 else 0)

/-- Mixes the positions in, `fuel` steps from position `i`. -/
def mixPositions : (fuel : Nat) → Array UInt32 → (i : Nat) → Array UInt32
  | 0, words, _ => words
  | fuel + 1, words, i =>
    let stirred := stir (wordAt words (i - 1)) * 1566083941
    let mixed := (wordAt words i ^^^ stirred) - UInt32.ofNat i
    let (words, i) := advance (words.setIfInBounds i mixed) i
    mixPositions fuel words i

/-- The generator for a sequence of words. -/
def ofWords (seed : Array UInt32) : Twister :=
  let (words, i) := mixSeed seed (max size seed.size) (plain 19650218) 1 0
  ⟨(mixPositions (size - 1) words i).setIfInBounds 0 0x80000000, size⟩

/-- The 32-bit words of a number, lowest first; zero has none. -/
def seedWords (n : Nat) : List UInt32 :=
  if n = 0 then [] else UInt32.ofNat n :: seedWords (n / UInt32.size)
termination_by n
decreasing_by exact Nat.div_lt_self (by omega) (by decide)

/-- The generator for a whole number. -/
def ofSeed (seed : Int) : Twister :=
  let words := seedWords seed.natAbs
  ofWords (if words.isEmpty then #[0] else words.toArray)

/-- Mixes all words, from the first to the last. -/
def mix (words : Array UInt32) : Array UInt32 :=
  (List.range size).foldl
    (fun words i =>
      let y := (wordAt words i &&& 0x80000000) ||| (wordAt words ((i + 1) % size) &&& 0x7fffffff)
      let odd : UInt32 := if y &&& 1 = 0 then 0 else 0x9908b0df
      words.setIfInBounds i (wordAt words ((i + 397) % size) ^^^ (y >>> 1) ^^^ odd)) words

/-- The tempered form of a word. -/
def temper (y : UInt32) : UInt32 :=
  let y := y ^^^ (y >>> 11)
  let y := y ^^^ ((y <<< 7) &&& 0x9d2c5680)
  let y := y ^^^ ((y <<< 15) &&& 0xefc60000)
  y ^^^ (y >>> 18)

/-- The next word. -/
def word (t : Twister) : UInt32 × Twister :=
  let t := if t.used < size then t else ⟨mix t.words, 0⟩
  (temper (wordAt t.words t.used), ⟨t.words, t.used + 1⟩)

/-- The next `k` bits as a number. -/
def bits (t : Twister) (k : Nat) : Nat × Twister :=
  if k ≤ 32 then
    let (w, t) := t.word
    (w.toNat >>> (32 - k), t)
  else
    let (w, t) := t.word
    let (rest, t) := bits t (k - 32)
    (w.toNat + UInt32.size * rest, t)
termination_by k

/-- The number of binary digits. -/
def bitLength (n : Nat) : Nat :=
  if n = 0 then 0 else n.log2 + 1

/-- Draws numbers of `k` bits until one lies below `n`, at most `fuel` times more. -/
def retry (n k : Nat) : (fuel : Nat) → Twister → Nat × Twister
  | 0, t =>
    let (r, t) := t.bits k
    (r % n, t)
  | fuel + 1, t =>
    let (r, t) := t.bits k
    if r < n then (r, t) else retry n k fuel t

/-- A number below `n`. More than half of the numbers of that many bits lie below `n`, so ten
thousand draws are never used up. -/
def below (t : Twister) (n : Nat) : Nat × Twister :=
  retry n (bitLength n) 10000 t

/-- A number below a bound lies below it. -/
theorem below_lt (t : Twister) {n : Nat} (h : 0 < n) : (t.below n).1 < n := by
  have key : ∀ fuel (t : Twister) k, (retry n k fuel t).1 < n := by
    intro fuel
    induction fuel with
    | zero => intro t k; exact Nat.mod_lt _ h
    | succ fuel ih =>
      intro t k
      unfold retry
      dsimp only
      split
      · assumption
      · exact ih _ _
  exact key _ _ _

end Twister

end TreeGrammar
