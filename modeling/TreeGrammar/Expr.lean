import TreeGrammar.Datum

/-!
# Type expressions

What the author of a grammar writes. An expression is read later than it is written when it stands
under a binder: the body of `mu` is read once the name it is going to be bound to is known, and
refers to that name by `var`.

* `Expr`: the expressions.
* `Expr.maybe`: a type or nothing.
* `Expr.weight`: how much of an expression is left to be given names of its own.
-/

namespace TreeGrammar

/-- Type expressions. Binders carry a label: two occurrences of a binder are never the same builder,
however alike they look. -/
inductive Expr where
  /-- A name or a value tag. -/
  | name (s : String)
  /-- Something that need not be a reference at all. -/
  | raw (d : Datum)
  /-- A leaf that carries a tag. -/
  | value (tag : Datum)
  /-- An ordered tuple; the empty one is the unit. -/
  | product (items : List Expr)
  /-- A choice among alternatives. -/
  | union (items : List Expr)
  /-- Lists of an element type. -/
  | list (label : Nat) (elem : Expr)
  /-- A body that awaits the name it is going to be bound to. -/
  | mu (label : Nat) (body : Expr)
  /-- The name given to an enclosing binder, the innermost being number 0. -/
  | var (index : Nat)
  /-- An expression read outside every binder. -/
  | closed (e : Expr)
deriving Inhabited

namespace Expr

/-- The empty tuple. -/
def unit : Expr := product []

/-- A type or nothing. -/
def maybe (e : Expr) : Expr := union [unit, e]

mutual

/-- The number of types still to be named: products, unions and values count one each, and a list
stands for a union and a product. -/
def weight : Expr → Nat
  | name _ => 0
  | raw _ => 0
  | value _ => 1
  | product items => 1 + weights items
  | union items => 1 + weights items
  | list _ elem => elem.weight + 2
  | mu _ body => body.weight
  | var _ => 0
  | closed e => e.weight

/-- The weights of several expressions together. -/
def weights : List Expr → Nat
  | [] => 0
  | e :: rest => e.weight + weights rest

end

end Expr

end TreeGrammar
