import TreeGrammar.Random.Source
import TreeGrammar.Sampling.Growth

/-!
# Samplers

A sampler counts and grows trees over one grammar. Its table is its own, because counts depend
on what counts as size. What it was asked before never changes an answer, it only makes it cheaper.

* `Sampler`: a grammar's rules, what counts as size, the table and the source of randomness.
* `Sampler.count`, `Sampler.countType`, `Sampler.sizes`: counting. Sizes may be any whole numbers;
  there are no trees of size zero or less.
* `Sampler.generate`: a tree of a size, chosen uniformly, with the totals asked from the source.
* `SamplerM`: computations that use a sampler.
-/

namespace TreeGrammar

/-- What is needed to count and grow trees over a grammar. -/
structure Sampler where
  rules : Rules
  mode : Accounting
  table : Table
  source : Source

namespace Sampler

/-- A sampler over a grammar, with an empty table. -/
def ofGrammar (g : Grammar) (mode : Accounting) (source : Source) : Sampler :=
  ⟨g.rules, mode, .empty, source⟩

/-- The recurrence over a sampler's rules. -/
def recurrence (s : Sampler) : Recurrence CountM :=
  .tabled s.rules s.mode

/-- Runs a count on the table of a sampler. -/
def tally {α : Type} (s : Sampler) (x : CountM α) : Except Failure α × Sampler :=
  let (result, table) := x.run.run s.table
  (result, { s with table })

/-- The number of trees of a size for a name or a tag. -/
def count (s : Sampler) (name : String) (n : Int) : Except Failure Int × Sampler :=
  s.tally (s.recurrence.countRef [] (.name name) n.toNat)

/-- The number of trees of a size for a reference. -/
def countRef (s : Sampler) (r : Ref) (n : Int) : Except Failure Int × Sampler :=
  s.tally (s.recurrence.countRef [] r n.toNat)

/-- The number of trees of a size for a type. -/
def countType (s : Sampler) (t : Ty) (n : Int) : Except Failure Int × Sampler :=
  s.tally (s.recurrence.countRule (.ofTy t) n.toNat)

/-- The sizes among the `left` many up to `last` for which a name has trees. -/
def sizesUpTo (c : Recurrence CountM) (name : String) (last : Nat) :
    (left : Nat) → CountM (List Nat)
  | 0 => pure []
  | left + 1 => do
    let count ← c.countRef [] (.name name) (last - left)
    let rest ← sizesUpTo c name last left
    pure (if count = 0 then rest else (last - left) :: rest)

/-- The sizes from 1 to `last` for which a name has trees. -/
def sizes (s : Sampler) (name : String) (last : Int) : Except Failure (List Nat) × Sampler :=
  s.tally (sizesUpTo s.recurrence name last.toNat last.toNat)

/-- What comes of growing a tree: the tree or a failure, the totals asked from the source, and the
sampler afterwards. -/
structure Grown where
  result : Except Failure Sample
  totals : List Int
  sampler : Sampler

/-- A tree of a size for a name or a tag, or nothing if there is none. -/
def generate (s : Sampler) (name : String) (n : Int) : Grown :=
  let ((result, table), source, totals) :=
    ((s.recurrence.growRef .start (.name name) n.toNat).run.run s.table).run s.source
  ⟨result, totals, { s with table, source }⟩

/-- The log entry for a tree that was asked for, unless that failed. -/
def Grown.message? (g : Grown) (before : Sampler) (name : String) (n : Int) : Option String :=
  match g.result with
  | .error _ => none
  | .ok sample =>
    some ("generate(" ++ name ++ ", " ++ toString n ++ "): " ++
      (if sample.isAbsent then "no tree" else "ok") ++ ", table " ++
      toString before.table.entries ++ " → " ++ toString g.sampler.table.entries ++ " entries")

end Sampler

/-- Computations that use a sampler and may fail. -/
abbrev SamplerM := ExceptT Failure (StateM Sampler)

namespace SamplerM

/-- The number of trees of a size for a reference. -/
def count (r : Ref) (n : Nat) : SamplerM Int :=
  ExceptT.mk fun s => s.countRef r n

/-- A tree of a size for a name, or nothing if there is none. -/
def generate (name : String) (n : Nat) : SamplerM Sample :=
  ExceptT.mk fun s =>
    let g := s.generate name n
    (g.result, g.sampler)

end SamplerM

end TreeGrammar
