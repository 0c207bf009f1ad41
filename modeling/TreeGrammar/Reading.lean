import TreeGrammar.Failure
import TreeGrammar.Ref

/-!
# Reading expressions

A type expression is read from the inside out: the items of a constructor are read from left to
right, all of them, before the constructor looks at any. A constructor takes references only, and it
takes a value for its tag. A union keeps the first of the items that have one canonical form.

* `Operand`: what an expression stands for, which need not be a reference.
* `store`: the reference that a constructor stores for an operand.
* `Ty.product?`, `Ty.union?`, `Ty.value?`: the constructors.
* `Expr.eval`: reads an expression, given the names of the binders around it.
* `Builder.instantiate`, `Builder.bindTo`: give a builder its name, once or until something that is
  no builder is reached.
* `Expr.bindTo_eq`, `Builder.bindTo_eq`: binding to a name is giving that name again and again.
-/

namespace TreeGrammar

/-- What an expression stands for. -/
inductive Operand where
  | ref (r : Ref)
  | other (d : Datum)

namespace Operand

/-- A plain text is a reference like any other. -/
def ofDatum : Datum → Operand
  | .text s => ref (.name s)
  | d => other d

/-- The literal of an operand: of a type its canonical form. -/
def literal : Operand → String
  | ref (.name s) => Text.literal s
  | ref (.inline t) => t.canonical
  | ref (.deferred b) => b.mark
  | other d => d.literal

/-- Whether two operands are equal: references by their canonical forms. -/
def equals : Operand → Operand → Bool
  | ref r, ref s => r.canonical == s.canonical
  | other d, other e => d.equals e
  | _, _ => false

/-- The number of types that an operand brings. -/
def weight : Operand → Nat
  | ref r => r.weight
  | other _ => 0

end Operand

/-- The reference that a constructor stores for an operand: a value is stored as its tag. -/
def store (former : Former) : Operand → Except Failure Ref
  | .ref (.inline (.value tag)) => .ok (.name tag)
  | .ref (.name s) =>
    if s = "" then .error (.construction (.emptyName former)) else .ok (.name s)
  | .ref r => .ok r
  | .other d => .error (.construction (.notAReference former d.literal))

/-- The references stored for several operands; the first one refused decides. -/
def storeAll (former : Former) : List Operand → Except Failure (List Ref)
  | [] => .ok []
  | o :: rest =>
    match store former o with
    | .error e => .error e
    | .ok r =>
      match storeAll former rest with
      | .error e => .error e
      | .ok rs => .ok (r :: rs)

namespace Ty

/-- The product of some operands. -/
def product? (operands : List Operand) : Except Failure Ty :=
  match storeAll .product operands with
  | .error e => .error e
  | .ok items => .ok (product items)

/-- The union of some operands, without repetitions. There is no empty union. -/
def union? (operands : List Operand) : Except Failure Ty :=
  if operands.isEmpty then .error (.construction .emptyUnion)
  else
    match storeAll .union operands with
    | .error e => .error e
    | .ok items => .ok (union (Ref.distinct items))

/-- The leaf with a given tag. -/
def value? (tag : Datum) : Except Failure Ty :=
  match tag with
  | .text s =>
    if isTag s then .ok (value s) else .error (.construction (.notATag (Text.literal s)))
  | d => .error (.construction (.notATag d.literal))

/-- The lists of an element type, under the name `name`: the empty list, or a cell of an element and
a list. -/
def listOf (elem : Ref) (name : String) : Except Failure Ty :=
  match product? [.ref elem, .ref (.name name)] with
  | .error e => .error e
  | .ok cell => union? [.ref (.name emptyList), .ref (.inline cell)]

end Ty

/-- A type as an operand. -/
def Operand.ofTy (t : Except Failure Ty) : Except Failure Operand :=
  match t with
  | .error e => .error e
  | .ok t => .ok (.ref (.inline t))

mutual

/-- Reads an expression, given the names of the binders around it, innermost first. A variable that
no binder gives a name to stands for nothing. -/
def Expr.eval (scope : List String) : Expr → Except Failure Operand
  | .name s => .ok (.ref (.name s))
  | .raw d => .ok (Operand.ofDatum d)
  | .value tag => Operand.ofTy (Ty.value? tag)
  | .product items =>
    match Expr.evalAll scope items with
    | .error e => .error e
    | .ok operands => Operand.ofTy (Ty.product? operands)
  | .union items =>
    match Expr.evalAll scope items with
    | .error e => .error e
    | .ok operands => Operand.ofTy (Ty.union? operands)
  | .list label elem =>
    match elem.eval scope with
    | .error e => .error e
    | .ok o =>
      match store .list o with
      | .error e => .error e
      | .ok r => .ok (.ref (.deferred (.list label scope r)))
  | .mu label body => .ok (.ref (.deferred (.written label scope body)))
  | .var index =>
    match scope[index]? with
    | some given => .ok (.ref (.name given))
    | none => .ok (.other .null)
  | .closed e => e.eval []

/-- Reads several expressions from left to right; the first failure decides. -/
def Expr.evalAll (scope : List String) : List Expr → Except Failure (List Operand)
  | [] => .ok []
  | e :: rest =>
    match e.eval scope with
    | .error err => .error err
    | .ok o =>
      match Expr.evalAll scope rest with
      | .error err => .error err
      | .ok os => .ok (o :: os)

end

/-- Reads an expression as the type that is going to be bound to `name`: each binder met on the way
is given that name. -/
def Expr.bindTo (name : String) (scope : List String) : Expr → Except Failure Operand
  | .mu _ body => body.bindTo name (name :: scope)
  | .closed e => e.bindTo name []
  | .list _ elem =>
    match elem.eval scope with
    | .error e => .error e
    | .ok o =>
      match store .list o with
      | .error e => .error e
      | .ok r => Operand.ofTy (Ty.listOf r name)
  | e => e.eval scope

namespace Builder

/-- What a builder stands for, once it is given a name. -/
def instantiate (b : Builder) (name : String) : Except Failure Operand :=
  match b with
  | written _ scope body => body.eval (name :: scope)
  | list _ _ elem => Operand.ofTy (Ty.listOf elem name)

/-- Gives a builder its name, and any builder it stands for the same name, until something else is
reached. -/
def bindTo (b : Builder) (name : String) : Except Failure Operand :=
  match b with
  | written _ scope body => body.bindTo name (name :: scope)
  | list _ _ elem => Operand.ofTy (Ty.listOf elem name)

end Builder

/-- Gives an operand that is a builder its name. -/
def Operand.bindTo (o : Operand) (name : String) : Except Failure Operand :=
  match o with
  | .ref (.deferred b) => b.bindTo name
  | o => .ok o

/-! ### Binding to a name is giving that name again and again -/

/-- A type that has been made is no builder: it does not change with the name it is bound to. -/
theorem Operand.bindTo_ofTy {t : Except Failure Ty} {o : Operand} (name : String)
    (h : Operand.ofTy t = .ok o) : o.bindTo name = .ok o := by
  unfold Operand.ofTy at h
  split at h <;> simp_all [Operand.bindTo]
  subst h
  rfl

/-- Reading an expression for a name is reading it and giving the result that name. -/
theorem Expr.bindTo_eq (name : String) (scope : List String) (e : Expr) :
    e.bindTo name scope = (e.eval scope).bind (·.bindTo name) := by
  cases e with
  | mu label body => simp [Expr.bindTo, Expr.eval, Except.bind, Operand.bindTo, Builder.bindTo]
  | closed e => rw [Expr.bindTo, Expr.eval]; exact Expr.bindTo_eq name [] e
  | list label elem =>
    rw [Expr.bindTo, Expr.eval]
    cases elem.eval scope with
    | error e => rfl
    | ok o =>
      dsimp only
      cases store .list o with
      | error e => rfl
      | ok r => rfl
  | name s => simp [Expr.bindTo, Expr.eval, Except.bind, Operand.bindTo]
  | raw d =>
    cases d <;> simp [Expr.bindTo, Expr.eval, Except.bind, Operand.bindTo, Operand.ofDatum]
  | var index =>
    simp only [Expr.bindTo, Expr.eval]
    cases scope[index]? <;> rfl
  | value tag =>
    simp only [Expr.bindTo]
    cases h : Expr.eval scope (.value tag) with
    | error e => rfl
    | ok o => rw [Expr.eval] at h; exact (Operand.bindTo_ofTy name h).symm
  | product items =>
    simp only [Expr.bindTo]
    cases h : Expr.eval scope (.product items) with
    | error e => rfl
    | ok o =>
      rw [Expr.eval] at h
      split at h
      · cases h
      · exact (Operand.bindTo_ofTy name h).symm
  | union items =>
    simp only [Expr.bindTo]
    cases h : Expr.eval scope (.union items) with
    | error e => rfl
    | ok o =>
      rw [Expr.eval] at h
      split at h
      · cases h
      · exact (Operand.bindTo_ofTy name h).symm

/-- Binding a builder to a name is giving it the name, and binding what it stands for to the same
name. -/
theorem Builder.bindTo_eq (b : Builder) (name : String) :
    b.bindTo name = (b.instantiate name).bind (·.bindTo name) := by
  cases b with
  | written label scope body => exact Expr.bindTo_eq name (name :: scope) body
  | list label scope elem =>
    simp only [Builder.bindTo, Builder.instantiate]
    cases h : Operand.ofTy (Ty.listOf elem name) with
    | error e => rfl
    | ok o => exact (Operand.bindTo_ofTy name h).symm

end TreeGrammar
