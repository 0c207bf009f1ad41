import Std.Data.HashMap
import TreeGrammar.Failure

/-!
# Count tables

Counts that have been found are kept in a table by the canonical form of what was counted and the
size. Counting is a computation that may fail, and what the table has gained by then stays.

* `Table`: counts by canonical form and size.
* `CountM`: computations that read and extend a table.
* `Table.remember`: looks a count up, or finds it and keeps it.
-/

namespace TreeGrammar

/-- Counts by canonical form and size. -/
structure Table where
  counts : Std.HashMap (String × Int) Int

namespace Table

/-- The table of a fresh sampler. -/
def empty : Table := ⟨∅⟩

/-- The count for a canonical form and a size, if there is one. -/
def get? (t : Table) (key : String) (size : Int) : Option Int :=
  t.counts[(key, size)]?

/-- Keeps a count, in place of any other for the same form and size. -/
def insert (t : Table) (key : String) (size count : Int) : Table :=
  ⟨t.counts.insert (key, size) count⟩

/-- The number of entries. -/
def entries (t : Table) : Nat :=
  t.counts.size

/-- A count that is kept is found under its key and size, and what is kept under others stays. -/
theorem get?_insert (t : Table) (key key' : String) (size size' count : Int) :
    (t.insert key size count).get? key' size' =
      if key = key' ∧ size = size' then some count else t.get? key' size' := by
  simp [get?, insert, Std.HashMap.getElem?_insert]

/-- Nothing is found in the empty table. -/
@[simp] theorem get?_empty (key : String) (size : Int) : empty.get? key size = none := by
  simp [get?, empty]

/-- The entries, by canonical form in the order of code points and then by size. -/
def toList (t : Table) : List (String × Int × Int) :=
  (t.counts.toList.map fun ((key, size), count) => (key, size, count)).mergeSort
    fun a b => decide (a.1 < b.1 ∨ (a.1 = b.1 ∧ a.2.1 ≤ b.2.1))

end Table

/-- Computations that may fail, and read and extend a table. -/
abbrev CountM := ExceptT Failure (StateM Table)

/-- The count kept for a key and a size; if there is none, it is found and kept. -/
def Table.remember (key : String) (size : Nat) (find : Unit → CountM Int) : CountM Int := do
  match (← get).get? key size with
  | some count => return count
  | none =>
    let count ← find ()
    modify (·.insert key size count)
    return count

end TreeGrammar
