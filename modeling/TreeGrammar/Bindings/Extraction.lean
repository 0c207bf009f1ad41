import TreeGrammar.Bindings
import TreeGrammar.FreshNames
import TreeGrammar.Reading.Weight

/-!
# Naming nested types

Every type that stands inside another is given a fresh name and moved out, so that the items left
are texts. Types are taken from a queue: those moved out of the first one go behind all others. A
builder learns the name that its type gets.

* `extractItems`: the items of one type, as texts, and the types moved out of it.
* `extract`: the whole queue. It ends, because the types still to be named in the queue become fewer
  with every step (`weights_extractItems`).
-/

namespace TreeGrammar

/-- A name with a type that may still hold nested types. -/
abbrev Nested := String × Ty

/-- What becomes of the items of one type: a text for each, the types moved out, in order, and the
names still free. -/
structure Extracted where
  texts : List String
  moved : List Nested
  supply : FreshNames

/-- The type that an item with the fresh name `name` stands for. -/
def Builder.typeNamed (b : Builder) (name : String) : Except Failure Ty :=
  match b.bindTo name with
  | .error e => .error e
  | .ok (.ref (.inline t)) => .ok t
  | .ok _ => .error (.construction (.builderWithoutType name))

/-- Replaces every nested item by a fresh name, from left to right. A failure comes with the types
moved out before it. -/
def extractItems (supply : FreshNames) : List Ref → Except (List Nested × Failure) Extracted
  | [] => .ok ⟨[], [], supply⟩
  | .name s :: rest =>
    match extractItems supply rest with
    | .error e => .error e
    | .ok h => .ok { h with texts := s :: h.texts }
  | .inline t :: rest =>
    match extractItems supply.fresh.2 rest with
    | .error (moved, e) => .error ((supply.fresh.1, t) :: moved, e)
    | .ok h =>
      .ok ⟨supply.fresh.1 :: h.texts, (supply.fresh.1, t) :: h.moved, h.supply⟩
  | .deferred b :: rest =>
    match b.typeNamed supply.fresh.1 with
    | .error e => .error ([], e)
    | .ok t =>
      match extractItems supply.fresh.2 rest with
      | .error (moved, e) => .error ((supply.fresh.1, t) :: moved, e)
      | .ok h =>
        .ok ⟨supply.fresh.1 :: h.texts, (supply.fresh.1, t) :: h.moved, h.supply⟩

/-- The body that a type has once its items are texts. -/
def Ty.withTexts (t : Ty) (texts : List String) : Except Failure Body :=
  match t with
  | value tag => .ok (.value tag)
  | product _ => .ok (.product texts)
  | union _ =>
    if texts.isEmpty then .error (.construction .emptyUnion) else .ok (.union texts.eraseDups)

/-- The types still to be named in a queue. -/
def Nested.weights : List Nested → Nat
  | [] => 0
  | (_, t) :: rest => t.weight + weights rest

/-- What is still to be named in two queues, one behind the other, adds up. -/
theorem Nested.weights_append (q₁ q₂ : List Nested) :
    Nested.weights (q₁ ++ q₂) = Nested.weights q₁ + Nested.weights q₂ := by
  induction q₁ with
  | nil => simp [Nested.weights]
  | cons x rest ih =>
    obtain ⟨name, t⟩ := x
    simp only [List.cons_append, Nested.weights, ih]
    omega

/-- The type that a builder gives for a name holds no more types than the builder brings. -/
theorem Builder.weight_typeNamed {b : Builder} {name : String} {t : Ty}
    (h : b.typeNamed name = .ok t) : t.weight ≤ b.weight := by
  unfold Builder.typeNamed at h
  split at h
  · cases h
  · next t' ht => cases h; exact Builder.weight_bindTo ht
  · cases h

/-- The types moved out were there before. -/
theorem weights_extractItems {supply : FreshNames} {items : List Ref} {h : Extracted}
    (e : extractItems supply items = .ok h) : Nested.weights h.moved ≤ Ref.weights items := by
  induction items generalizing supply h with
  | nil => cases e; simp [Nested.weights]
  | cons r rest ih =>
    cases r with
    | name s =>
      unfold extractItems at e
      split at e
      · cases e
      · next h' e' =>
        cases e
        have := ih e'
        simp only [Ref.weights, Ref.weight]
        omega
    | inline t =>
      unfold extractItems at e
      split at e
      · cases e
      · next h' e' =>
        cases e
        have := ih e'
        simp only [Ref.weights, Ref.weight, Nested.weights]
        omega
    | deferred b =>
      unfold extractItems at e
      split at e
      · cases e
      · next t ht =>
        have hw := Builder.weight_typeNamed ht
        split at e
        · cases e
        · next h' e' =>
          cases e
          have := ih e'
          simp only [Ref.weights, Ref.weight, Nested.weights]
          omega

/-- A type counts one more than its items do, which is why naming them comes to an end. -/
theorem Ty.weights_items_lt (t : Ty) : Ref.weights t.items < t.weight := by
  cases t <;> simp only [Ty.items, Ty.weight, Ref.weights] <;> omega

/-- What is written to the log while nested types are named. -/
structure Extraction where
  name : String
  type : Ty
  owner : String

/-- The log entries for the types moved out of one type. -/
def Extraction.all (owner : String) (moved : List Nested) : List Extraction :=
  moved.map fun (name, type) => ⟨name, type, owner⟩

set_option linter.unusedVariables false in
/-- Names all nested types in a queue. A failure comes with the log entries before it. -/
def extract (supply : FreshNames) (queue : List Nested) :
    Except (List Extraction × Failure) (List Extraction × Bindings) :=
  match queue with
  | [] => .ok ([], [])
  | (name, t) :: rest =>
    match e : extractItems supply t.items with
    | .error (moved, err) => .error (Extraction.all name moved, err)
    | .ok h =>
      match t.withTexts h.texts with
      | .error err => .error (Extraction.all name h.moved, err)
      | .ok body =>
        match extract h.supply (rest ++ h.moved) with
        | .error (log, err) => .error (Extraction.all name h.moved ++ log, err)
        | .ok (log, bindings) => .ok (Extraction.all name h.moved ++ log, (name, body) :: bindings)
termination_by Nested.weights queue
decreasing_by
  have h1 := weights_extractItems e
  have h2 := Ty.weights_items_lt t
  simp only [Nested.weights, Nested.weights_append]
  omega

end TreeGrammar
