import TreeGrammar.Definition
import TreeGrammar.Random.Draw

/-!
# Random grammars

A random grammar has a given number of definitions. Unions and one-item products refer to earlier
definitions only, so that every chain of aliases has an end; a product of two or more items may
refer to any definition, its own included.

* `RandomGrammar.body`: the type of the definition with a given number.
* `RandomGrammar.expressions`: the names of a grammar with their types.
-/

namespace TreeGrammar.RandomGrammar

/-- Computations that draw and may fail. -/
abbrev Drawing := ExceptT Failure Draw

/-- The name of the definition with a given number. -/
def nameOf (i : Nat) : String :=
  "t_g" ++ toString i

/-- A number below `n`. -/
def index (n : Nat) : Drawing Nat := do
  let r ← Draw.numberBelow n
  pure r.toNat

/-- One of three values. -/
def value : Drawing Expr := do
  let k ← index 3
  pure (.value (.text (["v_a", "v_b", "v_c"].getD k "v_a")))

/-- An earlier definition than number `i`, or a value. The coin is tossed only if there is one. -/
def leaf (i : Nat) : Drawing Expr := do
  if i = 0 then value
  else if ← Draw.heads then
    let k ← index i
    pure (.name (nameOf k))
  else value

/-- Any of the `n` definitions, or what may stand anywhere in number `i`. -/
def anyRef (n i : Nat) : Drawing Expr := do
  if ← Draw.heads then
    let k ← index n
    pure (.name (nameOf k))
  else leaf i

/-- Several references, from left to right. -/
def anyRefs (n i : Nat) : (count : Nat) → Drawing (List Expr)
  | 0 => pure []
  | count + 1 => do
    let e ← anyRef n i
    let es ← anyRefs n i count
    pure (e :: es)

/-- One more member of a union: a pair or a leaf. -/
def alternative (n i : Nat) : Drawing Expr := do
  if ← Draw.heads then
    let a ← anyRef n i
    let b ← anyRef n i
    pure (.product [a, b])
  else leaf i

/-- Several more members of a union. -/
def alternatives (n i : Nat) : (count : Nat) → Drawing (List Expr)
  | 0 => pure []
  | count + 1 => do
    let e ← alternative n i
    let es ← alternatives n i count
    pure (e :: es)

/-- The type of definition number `i` among `n`. -/
def body (n i : Nat) : Drawing Expr := do
  match ← index 6 with
  | 0 => do
    let more ← index 2
    let items ← anyRefs n i (2 + more)
    pure (.product items)
  | 1 => do
    let e ← leaf i
    pure (.product [e])
  | 2 => do
    let e ← leaf i
    pure (.maybe e)
  | 3 => do
    let e ← leaf i
    pure (.list i e)
  | _ => do
    let first ← leaf i
    let more ← index 3
    let others ← alternatives n i more
    pure (.union (first :: others))

/-- The last `left` of `n` definitions. -/
def expressionsFrom (n : Nat) : (left : Nat) → Drawing (List (String × Expr))
  | 0 => pure []
  | left + 1 => do
    let i := n - (left + 1)
    let e ← body n i
    let es ← expressionsFrom n left
    pure ((nameOf i, e) :: es)

/-- The names of a random grammar of `n` definitions with their types. -/
def expressions (n : Nat) : Drawing (List (String × Expr)) :=
  expressionsFrom n n

/-- The definitions of a random grammar. -/
def definitions (n : Nat) : Drawing (List Definition) := do
  let es ← expressions n
  match Definition.makeAll es with
  | .ok ds => pure ds
  | .error e => throw e

end TreeGrammar.RandomGrammar
