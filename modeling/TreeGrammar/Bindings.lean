import TreeGrammar.Failure
import TreeGrammar.Ref

/-!
# Bindings

A grammar whose types have all been named is a list of bindings: each name with a body whose items
are texts, that is names or value tags.

* `Body`: a leaf, a product or a union of texts.
* `Bindings`: names with their bodies, in the order in which they were made.
* `Bindings.unbound?`: the first item that no binding accounts for.
-/

namespace TreeGrammar

/-- A type whose items are names and value tags. -/
inductive Body where
  | value (tag : String)
  | product (items : List String)
  | union (items : List String)
deriving DecidableEq

namespace Body

/-- The items of a product or a union. -/
def items : Body → List String
  | value _ => []
  | product items => items
  | union items => items

/-- The body as a type. -/
def toTy : Body → Ty
  | value tag => .value tag
  | product items => .product (items.map .name)
  | union items => .union (items.map .name)

/-- The items that a body is a mere alias for: the members of a union, and the only item of a
product. -/
def aliases : Body → List String
  | product [item] => [item]
  | union items => items
  | _ => []

/-- Whether a body may be an alias. -/
def isAlias : Body → Bool
  | product [_] => true
  | union _ => true
  | _ => false

end Body

/-- Names with their bodies, in order. -/
abbrev Bindings := List (String × Body)

namespace Bindings

/-- The names bound. -/
def names (b : Bindings) : List String :=
  b.map (·.1)

/-- A name that is not bound is not found. -/
theorem lookup_eq_none_of_notMem {b : Bindings} {s : String} (h : s ∉ b.names) :
    b.lookup s = none := by
  rw [List.lookup_eq_none_iff]
  intro p hp
  rw [bne_iff_ne]
  rintro rfl
  exact h (List.mem_map_of_mem hp)

/-- A name that is bound is found. -/
theorem exists_lookup_of_mem_names {b : Bindings} {s : String} (h : s ∈ b.names) :
    ∃ body, b.lookup s = some body :=
  exists_lookup_of_mem h

/-- The members of the union a name is bound to. -/
def members? (b : Bindings) (name : String) : Option (List String) :=
  match b.lookup name with
  | some (.union items) => some items
  | _ => none

/-- Whether a text is a value tag or bound. -/
def accounts (b : Bindings) (item : String) : Bool :=
  isTag item || b.names.contains item

/-- The first item that is neither a value tag nor bound, with the name it occurs under. -/
def unbound? (b : Bindings) : Option (String × String) :=
  b.findSome? fun (name, body) => (body.items.find? (!b.accounts ·)).map (·, name)

end Bindings

end TreeGrammar
