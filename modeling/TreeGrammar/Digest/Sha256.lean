/-!
# SHA-256

The digest of a sequence of bytes: the message is padded to whole blocks of sixteen words, and each
block is mixed into a state of eight words by sixty-four rounds. The constants are the first 32 bits
behind the point of the roots of the first primes: of their square roots for the state, and of their
cube roots for the rounds.

* `Sha256.root`: the whole part of a root, found bit by bit.
* `Sha256.pad`: the message with its padding.
* `Sha256.schedule`: the sixty-four words a block contributes.
* `Sha256.digest`: the words of the digest.
-/

namespace TreeGrammar.Digest.Sha256

/-- The greatest number below `r + 2 ^ bits` whose `k`-th power is at most `n`, if the power of `r`
is. -/
def root (k n : Nat) : (bits : Nat) → (r : Nat) → Nat
  | 0, r => r
  | bits + 1, r => root k n bits (if (r + 2 ^ bits) ^ k ≤ n then r + 2 ^ bits else r)

/-- The first `n` primes. The three hundred and eleven numbers from 2 on hold sixty-four. -/
def primes (n : Nat) : List Nat :=
  (((List.range 312).drop 2).filter fun p =>
    (List.range p).all fun d => d < 2 || p % d != 0).take n

/-- The first 32 bits behind the point of the `k`-th roots of the first `n` primes. -/
def rootBits (k n : Nat) : List UInt32 :=
  (primes n).map fun p => UInt32.ofNat (root k (p <<< (32 * k)) 40 0)

/-- The round constants. -/
def constants : List UInt32 :=
  rootBits 3 64

/-- The eight words of the chaining state. -/
structure State where
  (a b c d e f g h : UInt32)

/-- The state of eight words, the first eight of a list. -/
def State.ofWords (ws : List UInt32) : State :=
  let word (i : Nat) := ws.getD i 0
  ⟨word 0, word 1, word 2, word 3, word 4, word 5, word 6, word 7⟩

/-- The words of a state, in order. -/
def State.words (s : State) : List UInt32 :=
  [s.a, s.b, s.c, s.d, s.e, s.f, s.g, s.h]

/-- The state before the first block. -/
def State.start : State :=
  .ofWords (rootBits 2 8)

/-- The wordwise sum of two states. -/
def State.add (s t : State) : State :=
  .ofWords (s.words.zipWith (· + ·) t.words)

/-- Rotation to the right by `k` bits, for `0 < k < 32`. -/
def rotate (x : UInt32) (k : UInt32) : UInt32 :=
  (x >>> k) ||| (x <<< (32 - k))

/-- One round, with the word `w` of the schedule and the round constant `k`. -/
def round (s : State) (k w : UInt32) : State :=
  let s1 := rotate s.e 6 ^^^ rotate s.e 11 ^^^ rotate s.e 25
  let choice := (s.e &&& s.f) ^^^ (~~~ s.e &&& s.g)
  let t1 := s.h + s1 + choice + k + w
  let s0 := rotate s.a 2 ^^^ rotate s.a 13 ^^^ rotate s.a 22
  let majority := (s.a &&& s.b) ^^^ (s.a &&& s.c) ^^^ (s.b &&& s.c)
  ⟨t1 + (s0 + majority), s.a, s.b, s.c, s.d + t1, s.e, s.f, s.g⟩

/-- Extends the last sixteen words, newest first, by `n` more words of the schedule. -/
def extend : (n : Nat) → (newestFirst : List UInt32) → List UInt32
  | 0, ws => ws
  | n + 1, ws =>
    let w2 := ws.getD 1 0
    let w15 := ws.getD 14 0
    let s0 := rotate w15 7 ^^^ rotate w15 18 ^^^ (w15 >>> 3)
    let s1 := rotate w2 17 ^^^ rotate w2 19 ^^^ (w2 >>> 10)
    extend n ((ws.getD 15 0 + s0 + ws.getD 6 0 + s1) :: ws)

/-- The sixty-four words that a block of sixteen contributes. -/
def schedule (block : List UInt32) : List UInt32 :=
  (extend 48 block.reverse).reverse

/-- Mixes one block into the state. -/
def compress (s : State) (block : List UInt32) : State :=
  s.add ((constants.zip (schedule block)).foldl (fun t kw => round t kw.1 kw.2) s)

/-- The eight bytes of a number, most significant first. -/
def bytes64 (n : Nat) : List UInt8 :=
  (List.range 8).map fun i => UInt8.ofNat (n >>> (8 * (7 - i)))

/-- The message, a one bit, zeros up to eight bytes before the end of a block, and its length in
bits. -/
def pad (message : List UInt8) : List UInt8 :=
  let zeros := (119 - message.length % 64) % 64
  message ++ 0x80 :: (List.replicate zeros 0 ++ bytes64 (8 * message.length))

/-- The words of a sequence of bytes, four bytes each, most significant first. -/
def words : List UInt8 → List UInt32
  | a :: b :: c :: d :: rest =>
    (a.toUInt32 <<< 24 ||| b.toUInt32 <<< 16 ||| c.toUInt32 <<< 8 ||| d.toUInt32) :: words rest
  | _ => []

/-- Mixes `n` blocks of sixteen words into the state, one after the other. -/
def absorb : (n : Nat) → State → List UInt32 → State
  | 0, s, _ => s
  | n + 1, s, ws => absorb n (compress s (ws.take 16)) (ws.drop 16)

/-- The digest as eight words. -/
def digest (message : List UInt8) : List UInt32 :=
  let ws := words (pad message)
  (absorb (ws.length / 16) State.start ws).words

end TreeGrammar.Digest.Sha256
