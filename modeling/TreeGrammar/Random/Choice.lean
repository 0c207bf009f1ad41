import TreeGrammar.Random.Draw

/-!
# Weighted choice

One of several values is chosen with probability proportional to its weight. The weights are whole
numbers, and so is the draw: it falls into the stretch of one value when the values lie side by side
with their weights as lengths.

* `Choice.total`: the sum of the weights.
* `Choice.pick`: the value whose stretch a draw falls into.
* `Choice.draw`: the choice; there is none, and nothing is drawn, when the weights add up to zero.
-/

namespace TreeGrammar

namespace Choice

variable {α : Type}

/-- The sum of the weights. -/
def total : List (α × Int) → Int
  | [] => 0
  | (_, weight) :: rest => weight + total rest

/-- The value whose stretch `r` falls into. -/
def pick : List (α × Int) → (r : Int) → Option α
  | [], _ => none
  | (a, weight) :: rest, r => if r < weight then some a else pick rest (r - weight)

end Choice

/-- One of several values, by weight. -/
def Choice.draw {α : Type} (choices : List (α × Int)) : ExceptT Failure Draw (Option α) :=
  if Choice.total choices = 0 then pure none
  else do
    let r ← Draw.numberBelow (Choice.total choices)
    match Choice.pick choices r with
    | some a => pure (some a)
    | none => throw (.inconsistent .pastTotal)

end TreeGrammar
