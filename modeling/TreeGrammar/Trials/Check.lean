import TreeGrammar.Grammar.Normalisation
import TreeGrammar.Sampling.Sampler

/-!
# Checks on a grammar

Five properties that counting and growing trees have over every grammar made from definitions.

* `Check`: a union has as many trees as its members together, a pair as many as there are ways to
  share the size, nothing is grown exactly where there is no tree, a tree has the size asked for,
  and a grammar is made again from its own definitions.
* `Check.run`: whether a property holds up to a size, and the first place where it does not.
-/

namespace TreeGrammar

/-- The properties that are checked. -/
inductive Check where
  | unionSum
  | convolution
  | absentIffZero
  | exactSize
  | rebuild

/-- Whether a property holds, and where it does not. -/
structure Verdict where
  holds : Bool
  place : Option String

namespace Check

/-- The properties in the order in which they are checked. -/
def all : List Check :=
  [unionSum, convolution, absentIffZero, exactSize, rebuild]

/-- The name of a check in a report. -/
def name : Check → String
  | unionSum => "union_sum"
  | convolution => "convolution"
  | absentIffZero => "absent_iff_zero"
  | exactSize => "exact_size"
  | rebuild => "rebuild"

/-- The check with a given name. -/
def ofName? (s : String) : Option Check :=
  all.find? (·.name == s)

/-- The first fault found, going through a list. -/
def firstFault {α : Type} (fault? : α → SamplerM (Option String)) :
    List α → SamplerM (Option String)
  | [] => pure none
  | a :: rest => do
    match ← fault? a with
    | some place => pure (some place)
    | none => firstFault fault? rest

/-- The first fault found, going through the sizes from 1 to `last`. -/
def firstSize (last : Nat) (fault? : Nat → SamplerM (Option String)) : SamplerM (Option String) :=
  firstFault fault? ((List.range last).map (· + 1))

/-- A name and a size. -/
def place (name : String) (n : Nat) : String :=
  name ++ " at n=" ++ toString n

/-- The numbers of trees of some references together. -/
def sumCounts (n : Nat) : List Ref → SamplerM Int
  | [] => pure 0
  | r :: rest => do
    let a ← SamplerM.count r n
    let b ← sumCounts n rest
    pure (a + b)

/-- The number of ways to share the size `size` between two references, where the first gets more
than `size - 1 - left`. -/
def sumSplits (a b : Ref) (size : Nat) : (left : Nat) → SamplerM Int
  | 0 => pure 0
  | left + 1 => do
    let i := size - (left + 1)
    let x ← SamplerM.count a i
    let y ← SamplerM.count b (size - i)
    let rest ← sumSplits a b size left
    pure (x * y + rest)

/-- Where a name with its type fails a property at a size. -/
def fault? (c : Check) (sizing : Accounting) (name : String) (t : Ty) (n : Nat) :
    SamplerM (Option String) :=
  match c, t with
  | unionSum, .union items => do
    let whole ← SamplerM.count (.name name) n
    let parts ← sumCounts n items
    pure (if whole = parts then none else some (place name n))
  | convolution, .product [a, b] => do
    let offset := (← get).mode.offset
    let expected ← sumSplits a b (n - offset) (n - offset - 1)
    let whole ← SamplerM.count (.name name) n
    pure (if whole = expected then none else some (place name n))
  | absentIffZero, _ => do
    let sample ← SamplerM.generate name n
    let count ← SamplerM.count (.name name) n
    pure (if sample.isAbsent = (count == 0) then none else some (place name n))
  | exactSize, _ => do
    let sample ← SamplerM.generate name n
    match sample.tree? with
    | none => pure none
    | some tree =>
      let size := tree.size sizing
      pure (if size = n then none else some (place name n ++ ": size " ++ toString size))
  | _, _ => pure none

/-- Checks a property of a grammar for the sizes from 1 to `last`. The size of a tree is taken
under `sizing`. -/
def run (c : Check) (g : Grammar) (sizing : Accounting) (last : Nat) : SamplerM Verdict :=
  match c with
  | rebuild => do
    match g.definitions with
    | .error e => throw e
    | .ok ds =>
      match (Grammar.ofDefinitions? ds).2 with
      | .error e => throw e
      | .ok again => pure ⟨again.canonical == g.canonical, none⟩
  | c => do
    let found ← firstFault (fun (name, t) => firstSize last (c.fault? sizing name t)) g.types
    pure ⟨found.isNone, found⟩

end Check

end TreeGrammar
