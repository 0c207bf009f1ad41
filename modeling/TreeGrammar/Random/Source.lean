import TreeGrammar.Random.Draw
import TreeGrammar.Random.Twister

/-!
# Sources of randomness

* `Source`: a congruential generator of 64 bits, a script of answers that starts over at its end,
  and the Mersenne twister. A script may be read as it stands, or each value modulo the total asked
  for.
* `Source.answer`: the answer to a request, and the source after it.
* `Draw.run`: a computation that draws, run on a source; the totals it asked for are listed.
-/

namespace TreeGrammar

/-- A source of answers. -/
inductive Source where
  | congruential (state : UInt64)
  | script (answers : List Int) (position : Nat) (asTheyStand : Bool)
  | twister (t : Twister)

namespace Source

/-- The congruential generator for a whole number. -/
def ofState (seed : Int) : Source :=
  congruential (UInt64.ofInt seed)

/-- The Mersenne twister for a whole number. -/
def ofSeed (seed : Int) : Source :=
  twister (Twister.ofSeed seed)

/-- Draws `k` words from the upper halves of the successive states. -/
def congruentialWords : (k : Nat) → UInt64 → (x : Nat) → Nat × UInt64
  | 0, state, x => (x, state)
  | k + 1, state, x =>
    let state := state * 6364136223846793005 + 1442695040888963407
    congruentialWords k state (x * 2 ^ 32 + (state >>> 32).toNat)

/-- The answer to a request for a number below `total`. Only the twister refuses a total that is not
positive. -/
def below (s : Source) (total : Int) : Except Failure Int × Source :=
  match s with
  | congruential state =>
    let (x, state) := congruentialWords (Twister.bitLength total.natAbs / 32 + 2) state 0
    (.ok (Int.fmod x total), congruential state)
  | script answers position asTheyStand =>
    let value := answers.getD (position % answers.length) 0
    (.ok (if asTheyStand then value else Int.fmod value total),
      script answers (position + 1) asTheyStand)
  | twister t =>
    if total ≤ 0 then (.error (.badValue .emptyRange), twister t)
    else
      let (r, t) := t.below total.toNat
      (.ok r, twister t)

/-- The answer to a request, and the source after it. The twister takes two words for a coin, and
the first decides. -/
def answer (s : Source) : Request → Except Failure Int × Source
  | .below total => s.below total
  | .coin =>
    match s with
    | twister t =>
      let (w, t) := t.word
      let (_, t) := t.word
      (.ok (if w < 0x80000000 then 1 else 0), twister t)
    | s => s.below 2
  | .word =>
    match s with
    | twister t =>
      let (w, t) := t.word
      (.ok w.toNat, twister t)
    | s => s.below 0x100000000

end Source

/-- The total that a request asks for. -/
def Request.totals : Request → List Int
  | below total => [total]
  | _ => []

/-- Runs a computation on a source. The result comes with the source after it and the totals it
asked for, in order. -/
def Draw.run {α : Type} (x : Draw α) (s : Source) : α × Source × List Int :=
  match x with
  | done a => (a, s, [])
  | ask r next =>
    let (answer, s') := s.answer r
    let (a, s'', totals) := (next answer).run s'
    (a, s'', r.totals ++ totals)

end TreeGrammar
