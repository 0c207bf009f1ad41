import TreeGrammar.Grammar
import TreeGrammar.Tree
import TreeGrammar.Unseen

/-!
# Counting trees

The number of trees of a size is given by a recurrence. A leaf or a unit has size one. A product has
as many trees as there are ways to share the size among its items, and a union as many as its
members together. Only a product of two or more items divides the size, so the recurrence ends
unless a type is met again at the same size while it is being counted: then there is a cycle of
aliases, which is a failure.

The recurrence is written once, over any way to run computations that may fail, and with a function
`remember` that it hands each count to be found; a run that keeps counts and one that does not are
two instances.

* `Rule`: a type with its canonical form at hand.
* `Recurrence`: what the recurrence is written over.
* `Recurrence.countRef`, `Recurrence.countRule`: the trees of a reference and of a type.
* `Recurrence.countSequences`: the sequences of trees for several items.
-/

namespace TreeGrammar

/-- A type with its canonical form at hand. -/
structure Rule where
  type : Ty
  key : String
  key_eq : key = type.canonical

/-- A type with its form. -/
def Rule.ofTy (t : Ty) : Rule := ⟨t, t.canonical, rfl⟩

/-- The rules of a grammar, by name. -/
abbrev Rules := List (String × Rule)

/-- The types of a grammar, each with its form. -/
def Grammar.rules (g : Grammar) : Rules :=
  g.types.map fun (name, t) => (name, .ofTy t)

/-- The canonical forms of the rules. -/
def Rules.keys (rules : Rules) : List String :=
  rules.map (·.2.key)

/-- The key of a rule that is found by a name is among the keys. -/
theorem Rules.key_mem_keys {rules : Rules} {name : String} {rule : Rule}
    (h : rules.lookup name = some rule) : rule.key ∈ rules.keys :=
  List.mem_map.2 ⟨_, mem_of_lookup h, rfl⟩

/-- The number of trees of a leaf. -/
def one (n : Nat) : Int :=
  if n = 1 then 1 else 0

/-- Whether a type has a single tree of a single unit: values and the unit do. -/
def Ty.isLeaf : Ty → Bool
  | .value _ => true
  | .product [] => true
  | _ => false

/-- The key under which the count for several items is kept. -/
def sequenceKey (items : List Ref) : String :=
  "Seq(" ++ ", ".intercalate (items.map Ref.canonical) ++ ")"

/-- What the recurrence is written over: the rules, what counts as size, and what is done with a
count to be found. -/
structure Recurrence (m : Type → Type) where
  rules : Rules
  mode : Accounting
  remember : String → Nat → (Unit → m Int) → m Int

namespace Recurrence

variable {m : Type → Type} [Monad m] [MonadExceptOf Failure m] (c : Recurrence m)

set_option linter.unusedVariables false in
mutual

/-- The number of trees of size `n` for a reference, while the types in `active` are being counted
at that size. -/
def countRef (active : List String) (r : Ref) (n : Nat) : m Int :=
  if n = 0 then pure 0
  else
    match r with
    | .inline t => throw (.undefinedName t.canonical none)
    | .deferred b => throw (.undefinedName b.mark none)
    | .name s =>
      if isTag s then pure (one n)
      else
        match found : c.rules.lookup s with
        | none => throw (.undefinedName s none)
        | some rule =>
          if rule.type.isLeaf then pure (one n)
          else if new : rule.key ∈ active then throw (.inconsistent (.cycle rule.key n))
          else c.remember rule.key n fun _ => countBody (rule.key :: active) rule.type n
termination_by (n, (unseen c.rules.keys active).length, 0, 0)
decreasing_by
  exact Prod.Lex.right _ (Prod.Lex.left _ _ (length_unseen_cons (Rules.key_mem_keys found) new))

/-- The number of trees of size `n` for a product or a union that is among those in `active`. -/
def countBody (active : List String) (t : Ty) (n : Nat) : m Int :=
  match t with
  | .value _ => pure (one n)
  | .union items => countMembers active items n
  | .product items =>
    match c.mode with
    | .leaves => countSequences active items n
    | .nodes => if n = 0 then pure 0 else countSequences [] items (n - 1)
termination_by (n, (unseen c.rules.keys active).length, 2, 0)
decreasing_by
  · exact Prod.Lex.right _ (Prod.Lex.right _ (Prod.Lex.left _ _ (by decide)))
  · exact Prod.Lex.right _ (Prod.Lex.right _ (Prod.Lex.left _ _ (by decide)))
  · exact Prod.Lex.left _ _ (by omega)

/-- The number of trees of size `n` for the members of a union together. -/
def countMembers (active : List String) (items : List Ref) (n : Nat) : m Int :=
  match items with
  | [] => pure 0
  | r :: rest => do
    let a ← countRef active r n
    let b ← countMembers active rest n
    pure (a + b)
termination_by (n, (unseen c.rules.keys active).length, 1, items.length)
decreasing_by
  · exact Prod.Lex.right _ (Prod.Lex.right _ (Prod.Lex.left _ _ (by decide)))
  · exact Prod.Lex.right _ (Prod.Lex.right _ (Prod.Lex.right _ (by simp)))

/-- The number of sequences of trees of size `n` together, one tree for each item. A sequence of one
is a tree. -/
def countSequences (active : List String) (items : List Ref) (n : Nat) : m Int :=
  match items with
  | [] => pure 0
  | [r] => countRef active r n
  | head :: second :: rest =>
    if n < rest.length + 2 then pure 0
    else
      c.remember (sequenceKey (head :: second :: rest)) n fun _ => countSplits head second rest n 0
termination_by (n, (unseen c.rules.keys active).length, 1, items.length)
decreasing_by
  · exact Prod.Lex.right _ (Prod.Lex.right _ (Prod.Lex.left _ _ (by decide)))
  · refine Prod.Lex.right _ ?_
    rcases Nat.eq_zero_or_pos (unseen c.rules.keys active).length with h | h
    · rw [h]; exact Prod.Lex.right _ (Prod.Lex.left _ _ (by decide))
    · exact Prod.Lex.left _ _ h

/-- The number of such sequences for at least two items in which the first tree has a size greater
than `i`: for each size it may have, the product of both counts. -/
def countSplits (head second : Ref) (rest : List Ref) (n i : Nat) : m Int :=
  if fits : i + 1 + (rest.length + 1) ≤ n then do
    let a ← countRef [] head (i + 1)
    let b ← countSequences [] (second :: rest) (n - (i + 1))
    let others ← countSplits head second rest n (i + 1)
    pure (a * b + others)
  else pure 0
termination_by (n, 0, 0, n - i)
decreasing_by
  · exact Prod.Lex.left _ _ (by omega)
  · exact Prod.Lex.left _ _ (by omega)
  · exact Prod.Lex.right _ (Prod.Lex.right _ (Prod.Lex.right _ (by omega)))

end

/-- The number of trees of size `n` for a type, whether a grammar binds it or not. -/
def countRule (rule : Rule) (n : Nat) : m Int :=
  if n = 0 then pure 0
  else if rule.type.isLeaf then pure (one n)
  else c.remember rule.key n fun _ => c.countBody [rule.key] rule.type n

end Recurrence

end TreeGrammar
