import TreeGrammar.Expr
import TreeGrammar.Name

/-!
# References and types

What a type expression stands for once it is read. A reference is a name or a tag, a type written in
place, or a builder that is still waiting for the name of its type. A type is a value, a product or
a union of references. The canonical form of a type is a text: names are quoted, and the members of
a union are sorted, so that two unions with the same members in another order have one form.

* `Ref`, `Ty`, `Builder`: references, types and builders.
* `Ref.canonical`, `Ty.canonical`: the canonical form.
* `Ty.IsUnit`, `Ty.IsSingleton`: the empty product, and the one-item types.
* `Ty.weight`: the number of types still to be named.
-/

namespace TreeGrammar

mutual

/-- A reference to a type. -/
inductive Ref where
  /-- A name or a value tag. -/
  | name (s : String)
  /-- A type written in place. -/
  | inline (t : Ty)
  /-- A type that depends on the name it is going to be bound to. -/
  | deferred (b : Builder)

/-- A type: a leaf, an ordered tuple, or a choice. -/
inductive Ty where
  | value (tag : String)
  | product (items : List Ref)
  | union (items : List Ref)

/-- A body that awaits a name, or the lists of an element type. The label says which binder of the
grammar it comes from, and the scope holds the names given to the binders around it, innermost
first; together they tell it from every other builder. -/
inductive Builder where
  | written (label : Nat) (scope : List String) (body : Expr)
  | list (label : Nat) (scope : List String) (elem : Ref)

end

open Text

namespace Builder

/-- What tells a builder from others, as a text. -/
def identity : Builder → String
  | written label scope _ => toString label ++ String.join (scope.map quote)
  | list label scope _ => toString label ++ String.join (scope.map quote)

/-- The mark of a builder in a canonical form: its identity by the hexadecimal digits of its
characters. -/
def mark (b : Builder) : String :=
  "Mu(0x" ++ String.ofList (b.identity.toList.flatMap fun c => hexDigits 6 c.toNat) ++ ")"

end Builder

/-- Sorts texts by code point. -/
def sortTexts (texts : List String) : List String :=
  texts.mergeSort fun s t => decide (s ≤ t)

mutual

/-- The canonical form of a reference. -/
def Ref.canonical : Ref → String
  | .name s => quote s
  | .inline t => t.canonical
  | .deferred b => b.mark

/-- The canonical form of a type. -/
def Ty.canonical : Ty → String
  | .value tag => "Value(" ++ quote tag ++ ")"
  | .product items => "Product(" ++ ", ".intercalate (Ref.canonicals items) ++ ")"
  | .union items => "Union(" ++ ", ".intercalate (sortTexts (Ref.canonicals items)) ++ ")"

/-- The canonical forms of several references. -/
def Ref.canonicals : List Ref → List String
  | [] => []
  | r :: rest => r.canonical :: Ref.canonicals rest

end

/-- The canonical forms of several references are those of each. -/
theorem Ref.canonicals_eq_map (items : List Ref) :
    Ref.canonicals items = items.map Ref.canonical := by
  induction items with
  | nil => simp [Ref.canonicals]
  | cons r rest ih => simp [Ref.canonicals, ih]

/-- Equation lemma: a type written in place has the canonical form of the type. -/
theorem Ref.canonical_inline (t : Ty) : (Ref.inline t).canonical = t.canonical := by
  rw [Ref.canonical]

/-- Equation lemma: the form of a product has those of its items in their order. -/
theorem Ty.canonical_product (items : List Ref) : (Ty.product items).canonical =
    "Product(" ++ ", ".intercalate (items.map Ref.canonical) ++ ")" := by
  rw [Ty.canonical, Ref.canonicals_eq_map]

/-- Equation lemma: the form of a union has those of its members sorted. -/
theorem Ty.canonical_union (items : List Ref) : (Ty.union items).canonical =
    "Union(" ++ ", ".intercalate (sortTexts (items.map Ref.canonical)) ++ ")" := by
  rw [Ty.canonical, Ref.canonicals_eq_map]

/-- Keeps the first of the references that have one canonical form. -/
def Ref.distinct (items : List Ref) : List Ref :=
  ((items.map fun r => (r.canonical, r)).eraseDupsBy (·.1 == ·.1)).map (·.2)

mutual

/-- The number of types still to be named in a reference. -/
def Ref.weight : Ref → Nat
  | .name _ => 0
  | .inline t => t.weight
  | .deferred b => b.weight

/-- The number of types still to be named in a type, itself included. -/
def Ty.weight : Ty → Nat
  | .value _ => 1
  | .product items => 1 + Ref.weights items
  | .union items => 1 + Ref.weights items

/-- The number of types that a builder brings. -/
def Builder.weight : Builder → Nat
  | .written _ _ body => body.weight
  | .list _ _ elem => elem.weight + 2

/-- The weights of several references together. -/
def Ref.weights : List Ref → Nat
  | [] => 0
  | r :: rest => r.weight + Ref.weights rest

end

namespace Ty

/-- The items of a product or a union. -/
def items : Ty → List Ref
  | value _ => []
  | product items => items
  | union items => items

/-- The empty product. -/
def isUnit : Ty → Bool
  | product [] => true
  | _ => false

/-- A product or a union of one item, which is a transparent alias for it. -/
def isSingleton : Ty → Bool
  | product [_] => true
  | union [_] => true
  | _ => false

end Ty

end TreeGrammar
