/-!
# Fresh names

A supply of names hands out a stem followed by the least number that gives a name not in use. A name
handed out is in use from then on, and so is a name that is reserved. Names in use have to be passed
over at most once each, so the search ends after as many steps as there are names in use.

* `FreshNames`: the names in use, and the number at which the search begins.
* `FreshNames.fresh`: the next name.
* `FreshNames.reserve`: puts a name to use.
-/

namespace TreeGrammar

/-- The names in use, each once, the stem of new names, and a number below which every numbered
name is in use. -/
structure FreshNames where
  used : List String
  stem : String
  next : Nat

namespace FreshNames

/-- The supply in which some names are in use. -/
def ofUsed (names : List String) (stem : String) : FreshNames :=
  ⟨names.eraseDups, stem, 0⟩

/-- The name with a given number. -/
def numbered (s : FreshNames) (k : Nat) : String :=
  s.stem ++ toString k

/-- The least number from `k` on, among `fuel + 1` many, whose name is not in use; the last of them
if all others are. -/
def leastFree (s : FreshNames) : (fuel : Nat) → (k : Nat) → Nat
  | 0, k => k
  | fuel + 1, k => if s.numbered k ∈ s.used then s.leastFree fuel (k + 1) else k

/-- The least number that is free. -/
def free (s : FreshNames) : Nat :=
  s.leastFree s.used.length s.next

/-- The next name, and the supply in which it is in use. The counter stays at the number handed
out. -/
def fresh (s : FreshNames) : String × FreshNames :=
  (s.numbered s.free, { s with used := s.numbered s.free :: s.used, next := s.free })

/-- The supply in which one more name is in use. -/
def reserve (s : FreshNames) (name : String) : FreshNames :=
  if name ∈ s.used then s else { s with used := name :: s.used }

end FreshNames

end TreeGrammar
