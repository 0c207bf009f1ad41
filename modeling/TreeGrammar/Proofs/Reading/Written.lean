import Mathlib
import TreeGrammar.Proofs.Canonical.Marks
import TreeGrammar.Reading.Weight

/-!
# What is written in expressions

What holds of names and values, of the builders that binders give, and of products and unions if it
holds of their items, holds of all that is read. So every builder comes from a binder that is written
in some expression, and where each label belongs to one binder the mark of a builder tells which
builder it is.

* `Expr.literals`: the texts written in place of references.
* `Expr.binders`: the binders, each with its label.
* `PassedOn`, `PassedOn.eval`, `PassedOn.bindTo`: what reading passes on holds of what is read.
* `Builder.From`, `Ref.From`, `Ty.From`: all builders come from some binders.
* `Builder.From.eq_of_mark`: builders with one mark are the same.
* `Expr.from_eval`, `Expr.from_bindTo`: reading brings no other builders.
-/

namespace TreeGrammar

namespace Expr

mutual

/-- The texts that are written in an expression in place of references. -/
def literals : Expr → List String
  | name s => [s]
  | raw (.text s) => [s]
  | raw _ => []
  | value _ => []
  | product items => literalsAll items
  | union items => literalsAll items
  | list _ elem => elem.literals
  | mu _ body => body.literals
  | var _ => []
  | closed e => e.literals

/-- The texts written in several expressions. -/
def literalsAll : List Expr → List String
  | [] => []
  | e :: rest => e.literals ++ literalsAll rest

end

mutual

/-- The binders in an expression, each with its label. -/
def binders : Expr → List (Nat × Expr)
  | name _ => []
  | raw _ => []
  | value _ => []
  | product items => bindersAll items
  | union items => bindersAll items
  | list label elem => (label, list label elem) :: elem.binders
  | mu label body => (label, mu label body) :: body.binders
  | var _ => []
  | closed e => e.binders

/-- The binders in several expressions. -/
def bindersAll : List Expr → List (Nat × Expr)
  | [] => []
  | e :: rest => e.binders ++ bindersAll rest

end

/-- A text is written in several expressions exactly if it is in one of them. -/
theorem mem_literalsAll {s : String} {items : List Expr} :
    s ∈ literalsAll items ↔ ∃ e ∈ items, s ∈ e.literals := by
  induction items with
  | nil => simp [literalsAll]
  | cons e rest ih => simp [literalsAll, ih]

/-- A binder is in several expressions exactly if it is in one of them. -/
theorem mem_bindersAll {p : Nat × Expr} {items : List Expr} :
    p ∈ bindersAll items ↔ ∃ e ∈ items, p ∈ e.binders := by
  induction items with
  | nil => simp [bindersAll]
  | cons e rest ih => simp [bindersAll, ih]

end Expr

/-- Each label belongs to one binder. -/
def LabelsApart (binders : List (Nat × Expr)) : Prop :=
  ∀ p ∈ binders, ∀ q ∈ binders, p.1 = q.1 → p = q

/-! ### What the constructors make -/

/-- What a constructor stores is a name if the operand is a name or a value, and otherwise the
operand itself. -/
theorem store_cases {former : Former} {o : Operand} {r : Ref} (h : store former o = .ok r) :
    (∃ tag, o = .ref (.inline (.value tag)) ∧ r = .name tag) ∨ o = .ref r := by
  unfold store at h
  split at h
  · cases h
    exact Or.inl ⟨_, rfl, rfl⟩
  · split at h
    · cases h
    · cases h
      exact Or.inr rfl
  · cases h
    exact Or.inr rfl
  · cases h

/-- A name is stored as it is. -/
theorem eq_name_of_store {former : Former} {s : String} {r : Ref}
    (h : store former (.ref (.name s)) = .ok r) : r = .name s := by
  rcases store_cases h with ⟨tag, e, -⟩ | e
  · cases e
  · cases e
    rfl

/-- An operand that is a type is one that was made. -/
theorem ofTy_cases {t : Except Failure Ty} {o : Operand} (h : Operand.ofTy t = .ok o) :
    ∃ t', t = .ok t' ∧ o = .ref (.inline t') := by
  unfold Operand.ofTy at h
  split at h
  · cases h
  · cases h
    exact ⟨_, rfl, rfl⟩

/-- A product that is made has the references stored for its operands. -/
theorem product?_cases {os : List Operand} {t : Ty} (h : Ty.product? os = .ok t) :
    ∃ items, storeAll .product os = .ok items ∧ t = .product items := by
  unfold Ty.product? at h
  split at h
  · cases h
  · cases h
    exact ⟨_, by assumption, rfl⟩

/-- A union that is made has the references stored for its operands, without repetitions. -/
theorem union?_cases {os : List Operand} {t : Ty} (h : Ty.union? os = .ok t) :
    ∃ items, storeAll .union os = .ok items ∧ t = .union (Ref.distinct items) := by
  unfold Ty.union? at h
  split at h
  · cases h
  · split at h
    · cases h
    · cases h
      exact ⟨_, by assumption, rfl⟩

/-- A value that is made has a text that is a tag. -/
theorem value?_cases {tag : Datum} {t : Ty} (h : Ty.value? tag = .ok t) :
    ∃ s, tag = .text s ∧ isTag s = true ∧ t = .value s := by
  unfold Ty.value? at h
  split at h
  · split at h
    · next tag =>
      cases h
      exact ⟨_, rfl, tag, rfl⟩
    · cases h
  · cases h

/-! ### What reading passes on -/

/-- What is referred to, if an operand is a reference, has a property. -/
def Operand.Has (P : Ref → Prop) : Operand → Prop
  | .ref r => P r
  | .other _ => True

/-- A property is passed on by reading, where binders are among `bs`: names and values have it,
products and unions of references that have it, and the builders that such binders give. -/
structure PassedOn (bs : List (Nat × Expr)) (P : Ref → Prop) : Prop where
  name (s : String) : P (.name s)
  value (tag : String) : P (.inline (.value tag))
  product {items : List Ref} (each : ∀ r ∈ items, P r) : P (.inline (.product items))
  union {items : List Ref} (each : ∀ r ∈ items, P r) : P (.inline (.union (Ref.distinct items)))
  written {label : Nat} {body : Expr} (scope : List String) (binder : (label, .mu label body) ∈ bs) :
    P (.deferred (.written label scope body))
  list {label : Nat} {scope : List String} {e : Expr} {o : Operand} {elem : Ref}
    (binder : (label, .list label e) ∈ bs) (read : e.eval scope = .ok o)
    (stored : store .list o = .ok elem) (each : P elem) : P (.deferred (.list label scope elem))

namespace PassedOn

variable {bs : List (Nat × Expr)} {P : Ref → Prop} (h : PassedOn bs P)
include h

/-- What is stored for an operand has the property that the operand has: a value is stored as its
tag. -/
theorem stored {former : Former} {o : Operand} {r : Ref} (stored : store former o = .ok r)
    (ho : o.Has P) : P r := by
  rcases store_cases stored with ⟨tag, rfl, rfl⟩ | rfl
  · exact h.name tag
  · exact ho

/-- What is stored for several operands has the property that they have. -/
theorem storedAll {former : Former} {os : List Operand} {items : List Ref}
    (stored : storeAll former os = .ok items) (hos : ∀ o ∈ os, o.Has P) : ∀ r ∈ items, P r := by
  induction os generalizing items with
  | nil =>
    cases stored
    exact fun r hr => absurd hr List.not_mem_nil
  | cons o rest ih =>
    obtain ⟨r, rs, first, others, rfl⟩ := storeAll_cons_cases stored
    exact List.forall_mem_cons.2 ⟨h.stored first (hos o List.mem_cons_self),
      ih others fun o ho => hos o (List.mem_cons_of_mem _ ho)⟩

/-- A product of operands that have the property has it. -/
theorem product? {os : List Operand} {t : Ty} (made : Ty.product? os = .ok t)
    (hos : ∀ o ∈ os, o.Has P) : P (.inline t) := by
  obtain ⟨items, stored, rfl⟩ := product?_cases made
  exact h.product (h.storedAll stored hos)

/-- A union of operands that have the property has it. -/
theorem union? {os : List Operand} {t : Ty} (made : Ty.union? os = .ok t)
    (hos : ∀ o ∈ os, o.Has P) : P (.inline t) := by
  obtain ⟨items, stored, rfl⟩ := union?_cases made
  exact h.union (h.storedAll stored hos)

/-- The lists of an element type that has the property have it. -/
theorem listOf {elem : Ref} {name : String} {t : Ty} (made : Ty.listOf elem name = .ok t)
    (each : P elem) : P (.inline t) := by
  unfold Ty.listOf at made
  split at made
  · cases made
  · next cell first =>
    have tail : Operand.Has P (.ref (.name name)) := h.name name
    have empty : Operand.Has P (.ref (.name emptyList)) := h.name emptyList
    have cell : P (.inline cell) := h.product? first
      (List.forall_mem_cons.2 ⟨each, List.forall_mem_singleton.2 tail⟩)
    exact h.union? made (List.forall_mem_cons.2 ⟨empty, List.forall_mem_singleton.2 cell⟩)

end PassedOn

section

variable {bs : List (Nat × Expr)} {P : Ref → Prop}

mutual

/-- What an expression is read as has a property that reading passes on. -/
theorem PassedOn.eval (h : PassedOn bs P) {scope : List String} : (e : Expr) →
    (∀ p ∈ e.binders, p ∈ bs) → {o : Operand} → e.eval scope = .ok o → o.Has P
  | .name s, _, o, read => by
    rw [Expr.eval] at read
    cases read
    exact h.name s
  | .raw d, _, o, read => by
    rw [Expr.eval] at read
    cases read
    cases d with
    | text s => exact h.name s
    | _ => exact trivial
  | .value tag, _, o, read => by
    rw [Expr.eval] at read
    obtain ⟨t, made, rfl⟩ := ofTy_cases read
    obtain ⟨s, -, -, rfl⟩ := value?_cases made
    exact h.value s
  | .product items, within, o, read => by
    rw [Expr.binders] at within
    rw [Expr.eval] at read
    split at read
    · cases read
    · next os readAll =>
      obtain ⟨t, made, rfl⟩ := ofTy_cases read
      exact h.product? made (PassedOn.evalAll h items within readAll)
  | .union items, within, o, read => by
    rw [Expr.binders] at within
    rw [Expr.eval] at read
    split at read
    · cases read
    · next os readAll =>
      obtain ⟨t, made, rfl⟩ := ofTy_cases read
      exact h.union? made (PassedOn.evalAll h items within readAll)
  | .list label elem, within, o, read => by
    rw [Expr.binders] at within
    rw [Expr.eval] at read
    split at read
    · cases read
    · next o' inner =>
      split at read
      · cases read
      · next r stored =>
        cases read
        have each := PassedOn.eval h elem (fun p hp => within p (List.mem_cons_of_mem _ hp)) inner
        exact h.list (within _ List.mem_cons_self) inner stored (h.stored stored each)
  | .mu label body, within, o, read => by
    rw [Expr.binders] at within
    rw [Expr.eval] at read
    cases read
    exact h.written scope (within _ List.mem_cons_self)
  | .var index, _, o, read => by
    rw [Expr.eval] at read
    split at read
    · cases read
      exact h.name _
    · cases read
      exact trivial
  | .closed e, within, o, read => by
    rw [Expr.binders] at within
    rw [Expr.eval] at read
    exact PassedOn.eval h e within read

/-- So has what several expressions are read as. -/
theorem PassedOn.evalAll (h : PassedOn bs P) {scope : List String} : (es : List Expr) →
    (∀ p ∈ Expr.bindersAll es, p ∈ bs) → {os : List Operand} → Expr.evalAll scope es = .ok os →
    ∀ o ∈ os, o.Has P
  | [], _, os, read => by
    rw [Expr.evalAll] at read
    cases read
    exact fun o ho => absurd ho List.not_mem_nil
  | e :: rest, within, os, read => by
    rw [Expr.bindersAll] at within
    obtain ⟨o, os', first, others, rfl⟩ := Expr.evalAll_cons_cases read
    exact List.forall_mem_cons.2
      ⟨PassedOn.eval h e (fun p hp => within p (List.mem_append_left _ hp)) first,
        PassedOn.evalAll h rest (fun p hp => within p (List.mem_append_right _ hp)) others⟩

end

/-- So has what an expression is read as for a name. -/
theorem PassedOn.bindTo (h : PassedOn bs P) {name : String} : (e : Expr) → {scope : List String} →
    (∀ p ∈ e.binders, p ∈ bs) → {o : Operand} → e.bindTo name scope = .ok o → o.Has P
  | .mu _ body, scope, within, o, read => by
    rw [Expr.binders] at within
    rw [Expr.bindTo] at read
    exact PassedOn.bindTo h body (fun p hp => within p (List.mem_cons_of_mem _ hp)) read
  | .closed e, scope, within, o, read => by
    rw [Expr.binders] at within
    rw [Expr.bindTo] at read
    exact PassedOn.bindTo h e within read
  | .list label elem, scope, within, o, read => by
    rw [Expr.binders] at within
    rw [Expr.bindTo] at read
    split at read
    · cases read
    · next o' inner =>
      split at read
      · cases read
      · next r stored =>
        obtain ⟨t, made, rfl⟩ := ofTy_cases read
        have each := h.eval elem (fun p hp => within p (List.mem_cons_of_mem _ hp)) inner
        exact h.listOf made (h.stored stored each)
  | .name s, scope, within, o, read => h.eval (.name s) within read
  | .raw d, scope, within, o, read => h.eval (.raw d) within read
  | .value tag, scope, within, o, read => h.eval (.value tag) within read
  | .product items, scope, within, o, read => h.eval (.product items) within read
  | .union items, scope, within, o, read => h.eval (.union items) within read
  | .var index, scope, within, o, read => h.eval (.var index) within read

end

/-! ### Where builders come from -/

section From

variable (bs : List (Nat × Expr))

mutual

/-- All builders in a reference come from the binders `bs`. -/
def Ref.From : Ref → Prop
  | .name _ => True
  | .inline t => t.From
  | .deferred b => b.From

/-- All builders in a type come from the binders `bs`. -/
def Ty.From : Ty → Prop
  | .value _ => True
  | .product items => Ref.AllFrom items
  | .union items => Ref.AllFrom items

/-- A builder comes from one of the binders `bs`: its body is the binder's body, or its element type
is what the binder's element is read as; and so do the builders in its element type. -/
def Builder.From : Builder → Prop
  | .written label _ body => (label, .mu label body) ∈ bs
  | .list label scope elem =>
    elem.From ∧ ∃ e o, (label, .list label e) ∈ bs ∧ e.eval scope = .ok o ∧ store .list o = .ok elem

/-- All builders in several references come from the binders `bs`. -/
def Ref.AllFrom : List Ref → Prop
  | [] => True
  | r :: rest => r.From ∧ Ref.AllFrom rest

end

/-- All builders in an operand come from the binders `bs`. -/
def Operand.From : Operand → Prop
  | .ref r => r.From bs
  | .other _ => True

end From

variable {bs : List (Nat × Expr)}

/-- Several references come from the binders exactly if each does. -/
theorem Ref.allFrom_iff {items : List Ref} : Ref.AllFrom bs items ↔ ∀ r ∈ items, r.From bs := by
  induction items with
  | nil => simp [Ref.AllFrom]
  | cons r rest ih => simp [Ref.AllFrom, ih]

/-- Builders with one mark are the same, if each label belongs to one binder. -/
theorem Builder.From.eq_of_mark {b b' : Builder} (apart : LabelsApart bs) (h : b.From bs)
    (h' : b'.From bs) (same : b.mark = b'.mark) : b = b' := by
  obtain ⟨labels, scopes⟩ := Builder.label_scope_of_mark same
  cases b with
  | written label scope body =>
    cases b' with
    | written label' scope' body' =>
      cases apart _ h _ h' labels
      rw [show scope = scope' from scopes]
    | list label' scope' elem' =>
      obtain ⟨-, e', o', member', -, -⟩ := h'
      cases apart _ h _ member' labels
  | list label scope elem =>
    obtain ⟨-, e, o, member, read, stored⟩ := h
    cases b' with
    | written label' scope' body' => cases apart _ member _ h' labels
    | list label' scope' elem' =>
      obtain ⟨-, e', o', member', read', stored'⟩ := h'
      cases apart _ member _ member' labels
      obtain rfl : scope = scope' := scopes
      rw [read] at read'
      cases read'
      rw [stored] at stored'
      cases stored'
      rfl

/-! ### Reading brings no other builders -/

/-- Where builders come from is passed on. -/
theorem passedOn_from (bs : List (Nat × Expr)) : PassedOn bs (Ref.From bs) where
  name _ := trivial
  value _ := trivial
  product each := Ref.allFrom_iff.2 each
  union each := Ref.allFrom_iff.2 fun r hr => each r ((Ref.distinct_sublist _).subset hr)
  written _ binder := binder
  list binder read stored each := ⟨each, _, _, binder, read, stored⟩

/-- An operand comes from the binders if what it refers to does. -/
theorem Operand.from_of_has {o : Operand} (h : o.Has (Ref.From bs)) : o.From bs := by
  cases o with
  | ref r => exact h
  | other d => exact trivial

/-- What an expression is read as has builders from its own binders only. -/
theorem Expr.from_eval {scope : List String} (e : Expr) (within : ∀ p ∈ e.binders, p ∈ bs)
    {o : Operand} (read : e.eval scope = .ok o) : o.From bs :=
  Operand.from_of_has ((passedOn_from bs).eval e within read)

/-- The same for an expression that is read for a name. -/
theorem Expr.from_bindTo {name : String} (e : Expr) {scope : List String}
    (within : ∀ p ∈ e.binders, p ∈ bs) {o : Operand} (read : e.bindTo name scope = .ok o) :
    o.From bs :=
  Operand.from_of_has ((passedOn_from bs).bindTo e within read)

end TreeGrammar
