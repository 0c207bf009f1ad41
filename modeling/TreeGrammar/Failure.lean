import TreeGrammar.Name

/-!
# Failures

Everything that can go wrong while a grammar is written, normalised, counted or sampled, as causes.
The wording is in one function, `Failure.message`.

* `Complaint`: what is wrong with an argument of a constructor.
* `CycleReason`: where a name that has no finite base was met.
* `Inconsistency`: a count that contradicts the choices below it.
* `BadValue`: a value outside a function's domain that no grammar accounts for.
* `Failure.ofGrammar`: whether the grammar is to blame, which is every failure but a `BadValue`.
-/

namespace TreeGrammar

/-- The constructors that take references. -/
inductive Former where
  | product
  | union
  | list

/-- The word for a constructor in a complaint. -/
def Former.word : Former → String
  | product => "Product"
  | union => "Union"
  | list => "List"

/-- What is wrong with an argument of a constructor. A value is shown by its literal. -/
inductive Complaint where
  | notATag (shown : String)
  | emptyName (former : Former)
  | notAReference (former : Former) (shown : String)
  | emptyUnion
  | namelessDefinition
  | reservedName (name : String)
  | definitionWithoutType (name : String)
  | builderWithoutType (name : String)
  | notADefinition (shown : String)

/-- The text of a complaint. -/
def Complaint.message : Complaint → String
  | notATag shown =>
    "Value tag must be a string starting with '" ++ tagMark ++ "', got " ++ shown
  | emptyName former => former.word ++ ": empty type name"
  | notAReference former shown => former.word ++ ": " ++ shown ++ " is of incorrect type"
  | emptyUnion => "Cannot construct empty union"
  | namelessDefinition => "The name of a definition must be a non-empty string"
  | reservedName name =>
    "Definition name '" ++ name ++ "' uses the reserved value prefix '" ++ tagMark ++ "'"
  | definitionWithoutType name => "The type of definition '" ++ name ++ "' must be a Type"
  | builderWithoutType name => "Deferred builder for '" ++ name ++ "' did not return a Type"
  | notADefinition shown => shown ++ " is not a Def"

/-- Where a name that has no finite base was met: at the end, among unions and one-item types, or
while a union was being expanded. -/
inductive CycleReason where
  | aliasing
  | expanding
  | other (words : String)

/-- The words for where the name was met. -/
def CycleReason.words : CycleReason → String
  | aliasing => "union or singleton containing itself"
  | expanding => "union containing itself during expansion"
  | other words => words

/-- A count that contradicts the choices below it. -/
inductive Inconsistency where
  | cycle (key : String) (size : Nat)
  | noSplit (size : Nat)
  | pastTotal

/-- The text of a contradiction. -/
def Inconsistency.message : Inconsistency → String
  | cycle key size =>
    "Encountered cycle at " ++ key ++ " for size " ++ toString size ++
      "; this should have been rejected by build()"
  | noSplit size =>
    "No split of size " ++ toString size ++ " for a product counted as non-empty"
  | pastTotal => "weighted choice ran past its total"

/-- A value outside a function's domain. A value is shown by its literal, a text that is no numeral
by the first two hundred characters of it. -/
inductive BadValue where
  | notAListCell (shown : String)
  | fieldCount (name : String) (children fields : Nat)
  | notANumeral (shown : String)
  | tooManyDigits (limit digits : Nat)
  | emptyRange

/-- The text about a value. -/
def BadValue.message : BadValue → String
  | notAListCell shown => "Not a list cell: " ++ shown
  | fieldCount name children fields =>
    "'" ++ name ++ "' has " ++ toString children ++ " children but " ++ toString fields ++
      " field names"
  | notANumeral shown =>
    "invalid literal for int() with base 10: " ++ String.ofList (shown.toList.take 200)
  | tooManyDigits limit digits =>
    "Exceeds the limit (" ++ toString limit ++
      " digits) for integer string conversion: value has " ++ toString digits ++
      " digits; use sys.set_int_max_str_digits() to increase the limit"
  | emptyRange => "empty range for randrange()"

/-- Everything that can go wrong. -/
inductive Failure where
  | construction (why : Complaint)
  | duplicateName (name : String)
  | noFiniteBase (name : String) (reason : CycleReason)
  | emptyExpansion (name : String)
  | undefinedName (name : String) (referencedBy : Option String)
  | inconsistent (why : Inconsistency)
  | badValue (why : BadValue)

/-- The wording of a failure. An empty text refers to nothing. -/
def Failure.message : Failure → String
  | construction why => why.message
  | duplicateName name => "Cannot redefine name '" ++ name ++ "'"
  | noFiniteBase name reason =>
    "Encountered " ++ reason.words ++ ": '" ++ name ++ "' has no finite base case"
  | emptyExpansion name => "After expanding unions, '" ++ name ++ "' is empty"
  | undefinedName name referencedBy =>
    "Undefined type name '" ++ name ++ "'" ++
      match referencedBy with
      | none => ""
      | some "" => ""
      | some owner => " (referenced by '" ++ owner ++ "')"
  | inconsistent why => why.message
  | badValue why => why.message

/-- Whether the grammar is to blame. -/
def Failure.ofGrammar : Failure → Bool
  | badValue _ => false
  | _ => true

end TreeGrammar
