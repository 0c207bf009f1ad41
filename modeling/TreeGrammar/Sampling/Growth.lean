import TreeGrammar.Counting.Recurrence
import TreeGrammar.Counting.Table
import TreeGrammar.Random.Choice

/-!
# Growing trees at random

A tree of a given size is grown from the root. A union is replaced by one of its members, and the
size of a product is shared among its items from left to right; each choice is weighted by the exact
number of trees that it leaves. Nothing is drawn for a reference without trees of the size.

A table of true counts has no trees for a name that is an alias for itself. Over any other table a
tree may come to stand for itself, and the draws decide how often it does before they leave the
cycle; they are given a limit.

* `Grow`: computations that draw, may fail, and read and extend a table of counts.
* `Trail`: the types being grown at one size, and how often they may be met again.
* `growRef`, `growSequence`: a tree for a reference, and trees for several items.
-/

namespace TreeGrammar

/-- The recurrence with a table. -/
def Recurrence.tabled (rules : Rules) (mode : Accounting) : Recurrence CountM :=
  ⟨rules, mode, Table.remember⟩

/-- The types being grown at one size, by canonical form, and how many more times one of them may be
met again. -/
structure Trail where
  active : List String
  spare : Nat

namespace Trail

/-- The trail at the root, with room for any cycle that draws may be expected to leave. -/
def start : Trail :=
  ⟨[], 10000⟩

/-- The trail at a smaller size, where no type has been met. -/
def afresh (t : Trail) : Trail :=
  { t with active := [] }

/-- The trail inside a type. There is none if types have been met again too often. -/
def enter (t : Trail) (key : String) : Option Trail :=
  if key ∈ t.active then
    match t.spare with
    | 0 => none
    | spare + 1 => some ⟨[key], spare⟩
  else some { t with active := key :: t.active }

/-- A type that has not been met is entered. -/
theorem enter_of_notMem {t : Trail} {key : String} (new : key ∉ t.active) :
    t.enter key = some { t with active := key :: t.active } :=
  if_neg new

/-- Inside a type either the types may be met again less often, or there are fewer types to meet. -/
theorem lt_of_enter {t t' : Trail} {key : String} {keys : List String} (member : key ∈ keys)
    (entered : t.enter key = some t') :
    t'.spare < t.spare ∨ t'.spare = t.spare ∧
      (unseen keys t'.active).length < (unseen keys t.active).length := by
  unfold enter at entered
  split at entered
  · split at entered
    · cases entered
    · next spare h =>
      cases entered
      exact Or.inl (h ▸ Nat.lt_succ_self spare)
  · next new =>
    cases entered
    exact Or.inr ⟨rfl, length_unseen_cons member new⟩

end Trail

/-- Computations that draw, may fail, and read and extend a table of counts. -/
abbrev Grow := ExceptT Failure (StateT Table Draw)

namespace Grow

variable {α : Type}

/-- Counting draws nothing. -/
def ofCount (x : CountM α) : Grow α :=
  ExceptT.mk fun table => .done (x.run.run table)

/-- Drawing leaves the table alone. -/
def ofDraw (x : ExceptT Failure Draw α) : Grow α :=
  ExceptT.mk fun table => x.run >>= fun a => .done (a, table)

end Grow

namespace Recurrence

variable (c : Recurrence CountM)

/-- The members of a union with the numbers of their trees of size `n`. -/
def memberWeights (n : Nat) : List Ref → CountM (List (Ref × Int))
  | [] => pure []
  | r :: rest => do
    let w ← c.countRef [] r n
    let ws ← memberWeights n rest
    pure ((r, w) :: ws)

/-- The sizes greater than `i` that the first of at least two items may have, each less one, with
the numbers of sequences of trees that they leave. -/
def splitWeights (head second : Ref) (rest : List Ref) (n i : Nat) :
    CountM (List ({ j : Nat // j + 1 + (rest.length + 1) ≤ n } × Int)) :=
  if fits : i + 1 + (rest.length + 1) ≤ n then do
    let a ← c.countRef [] head (i + 1)
    let b ← c.countSequences [] (second :: rest) (n - (i + 1))
    let ws ← splitWeights head second rest n (i + 1)
    pure ((⟨i, fits⟩, a * b) :: ws)
  else pure []
termination_by n - i

set_option linter.unusedVariables false in
mutual

/-- A tree of size `n` for a reference. -/
def growRef (trail : Trail) (r : Ref) (n : Nat) : Grow Sample :=
  match r with
  | .inline t => throw (.undefinedName t.canonical none)
  | .deferred b => throw (.undefinedName b.mark none)
  | .name s =>
    if isTag s then pure (if n = 1 then .leaf s else .absent)
    else
      match found : c.rules.lookup s with
      | none => throw (.undefinedName s none)
      | some rule => do
        let count ← Grow.ofCount (c.countRule rule n)
        if count = 0 then pure .absent
        else
          match rule.type with
          | .value tag => pure (.leaf tag)
          | .product [] => pure (.node s [])
          | .product items =>
            match c.mode with
            | .nodes =>
              if positive : n = 0 then pure .absent
              else do
                let children ← growSequence trail.afresh items (n - 1)
                pure (.node s children)
            | .leaves =>
              match entered : trail.enter rule.key with
              | none => throw (.inconsistent (.cycle rule.key n))
              | some trail' => do
                let children ← growSequence trail' items n
                pure (.node s children)
          | .union items =>
            match entered : trail.enter rule.key with
            | none => throw (.inconsistent (.cycle rule.key n))
            | some trail' => do
              let weights ← Grow.ofCount (c.memberWeights n items)
              match ← Grow.ofDraw (Choice.draw weights) with
              | some item => growRef trail' item n
              | none => throw (.undefinedName "None" none)
termination_by (n, trail.spare, (unseen c.rules.keys trail.active).length, 0, 0)
decreasing_by
  · exact Prod.Lex.left _ _ (by omega)
  · rcases Trail.lt_of_enter (Rules.key_mem_keys found) entered with h | ⟨e, h⟩
    · exact Prod.Lex.right _ (Prod.Lex.left _ _ h)
    · rw [e]
      exact Prod.Lex.right _ (Prod.Lex.right _ (Prod.Lex.left _ _ h))
  · rcases Trail.lt_of_enter (Rules.key_mem_keys found) entered with h | ⟨e, h⟩
    · exact Prod.Lex.right _ (Prod.Lex.left _ _ h)
    · rw [e]
      exact Prod.Lex.right _ (Prod.Lex.right _ (Prod.Lex.left _ _ h))

/-- Trees of size `n` together, one for each item. -/
def growSequence (trail : Trail) (items : List Ref) (n : Nat) : Grow (List Sample) :=
  match items with
  | [] => pure []
  | [r] => do
    let t ← growRef trail r n
    pure [t]
  | head :: second :: rest => do
    let weights ← Grow.ofCount (c.splitWeights head second rest n 0)
    match ← Grow.ofDraw (Choice.draw weights) with
    | none => throw (.inconsistent (.noSplit n))
    | some split => do
      let first ← growRef trail.afresh head (split.1 + 1)
      let others ← growSequence trail.afresh (second :: rest) (n - (split.1 + 1))
      pure (first :: others)
termination_by (n, trail.spare, (unseen c.rules.keys trail.active).length, 1, items.length)
decreasing_by
  · exact Prod.Lex.right _ (Prod.Lex.right _ (Prod.Lex.right _ (Prod.Lex.left _ _ (by decide))))
  · exact Prod.Lex.left _ _ (by have := split.2; omega)
  · exact Prod.Lex.left _ _ (by have := split.2; omega)

end

end Recurrence

end TreeGrammar
