import TreeGrammar.Bindings
import TreeGrammar.Unseen

/-!
# Cycles of aliases

A union is an alias for each of its members, and a product of one item for that item: a tree of the
alias costs nothing beyond a tree of the item. A name that reaches itself through aliases alone has
no finite base.

* `Bindings.next`: the names and tags that a name is an alias for.
* `Bindings.reaches`: whether a name is reached from others through aliases.
* `Bindings.selfAlias?`: the first name that reaches itself.
-/

namespace TreeGrammar.Bindings

/-- The names and tags that a name is an alias for. -/
def next (b : Bindings) (name : String) : List String :=
  match b.lookup name with
  | some body => body.aliases
  | none => []

/-- A name that is not bound is an alias for nothing. -/
theorem next_eq_nil {b : Bindings} {name : String} (h : name ∉ b.names) : b.next name = [] := by
  rw [next, lookup_eq_none_of_notMem h]

/-- Whether `target` is on the stack, or reached through aliases from a name on it that has not been
seen. -/
def reaches (b : Bindings) (target : String) (stack seen : List String) : Bool :=
  match stack with
  | [] => false
  | name :: rest =>
    if name = target then true
    else if name ∈ seen ∨ isTag name then b.reaches target rest seen
    else b.reaches target (b.next name ++ rest) (name :: seen)
termination_by ((unseen b.names seen).length, stack.length)
decreasing_by
  · exact Prod.Lex.right _ (Nat.lt_succ_self _)
  · next new =>
    by_cases bound : name ∈ b.names
    · exact Prod.Lex.left _ _ (length_unseen_cons bound fun h => new (Or.inl h))
    · rw [next_eq_nil bound]
      have h := length_unseen_cons_le b.names seen name
      rcases Nat.lt_or_eq_of_le h with h | h
      · exact Prod.Lex.left _ _ h
      · rw [h]
        exact Prod.Lex.right _ (Nat.lt_succ_self _)

/-- The first name that reaches itself through aliases. -/
def selfAlias? (b : Bindings) : Option String :=
  (b.find? fun (name, body) => body.isAlias && b.reaches name body.aliases []).map (·.1)

end TreeGrammar.Bindings
