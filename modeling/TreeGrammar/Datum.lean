import TreeGrammar.Text.Fraction
import TreeGrammar.Text.Literal

/-!
# Plain data

A datum is a value without behaviour: what a user may write in place of a reference by mistake, what
a tree is converted to for further use, and what a report consists of. The fields of a record keep
the order in which they were first set.

* `Datum.literal`: the literal shown in messages.
* `Datum.display`: the same, except that a text stands for itself.
* `Datum.pretty`: the indented text of a report.
* `Datum.equals`: equality, with numbers compared by value.
* `Datum.isVoid`: whether a datum holds nothing.
* `Datum.set`: sets a field of a record; a field that is set again keeps its place.
-/

namespace TreeGrammar

/-- Values without behaviour. -/
inductive Datum where
  | null
  | bool (b : Bool)
  | int (i : Int)
  | fraction (f : Text.Fraction)
  | text (s : String)
  | list (items : List Datum)
  | record (fields : List (String × Datum))
deriving Inhabited

namespace Datum

open Text

mutual

/-- The literal of a datum. -/
def literal : Datum → String
  | null => "None"
  | bool true => "True"
  | bool false => "False"
  | int i => toString i
  | fraction f => f.text
  | text s => Text.literal s
  | list items => "[" ++ ", ".intercalate (literals items) ++ "]"
  | record fields => "\x7b" ++ ", ".intercalate (fieldLiterals fields) ++ "\x7d"

/-- The literals of the items of a list. -/
def literals : List Datum → List String
  | [] => []
  | d :: rest => d.literal :: literals rest

/-- The literals of the fields of a record. -/
def fieldLiterals : List (String × Datum) → List String
  | [] => []
  | (key, d) :: rest => (Text.literal key ++ ": " ++ d.literal) :: fieldLiterals rest

end

/-- A text as itself, and any other datum by its literal. -/
def display : Datum → String
  | text s => s
  | d => d.literal

/-- Lines between brackets, one item a line, indented by two blanks a level. -/
def block (opening closing : String) (level : Nat) (items : List String) : String :=
  if items.isEmpty then opening ++ closing
  else
    let margin := String.ofList (List.replicate (2 * level) ' ')
    opening ++ "\n" ++ ",\n".intercalate (items.map (margin ++ "  " ++ ·)) ++ "\n" ++ margin ++
      closing

mutual

/-- The text of a datum in a report, at a level of indentation: words in lower case, texts quoted,
lists and records as blocks. -/
def pretty (level : Nat) : Datum → String
  | null => "null"
  | bool true => "true"
  | bool false => "false"
  | int i => toString i
  | fraction f => f.text
  | text s => quote s
  | list items => block "[" "]" level (prettyItems (level + 1) items)
  | record fields => block "\x7b" "\x7d" level (prettyFields (level + 1) fields)

/-- The texts of the items of a list. -/
def prettyItems (level : Nat) : List Datum → List String
  | [] => []
  | d :: rest => d.pretty level :: prettyItems level rest

/-- The texts of the fields of a record. -/
def prettyFields (level : Nat) : List (String × Datum) → List String
  | [] => []
  | (key, d) :: rest => (quote key ++ ": " ++ d.pretty level) :: prettyFields level rest

end

/-- The whole number that a datum is. A truth value is 0 or 1. -/
def int? : Datum → Option Int
  | bool b => some b.toInt
  | int i => some i
  | _ => none

mutual

/-- Whether two data are equal. Numbers are compared by value, however they are written, and a truth
value is a number; the order of fields does not count. -/
def equals : Datum → Datum → Bool
  | null, null => true
  | text s, text t => s == t
  | list xs, list ys => equalsAll xs ys
  | record fields, record others => fields.length == others.length && agrees fields others
  | fraction f, fraction g => f.value == g.value
  | fraction f, d => d.int?.any f.equalsInt
  | d, fraction f => d.int?.any f.equalsInt
  | d, e => d.int?.any fun i => e.int? == some i

/-- Whether two lists have equal items. -/
def equalsAll : List Datum → List Datum → Bool
  | [], [] => true
  | d :: rest, e :: others => d.equals e && equalsAll rest others
  | _, _ => false

/-- Whether the fields of a record are among those of another, with equal data. -/
def agrees : List (String × Datum) → List (String × Datum) → Bool
  | [], _ => true
  | (key, d) :: rest, others => (others.lookup key).any (d.equals ·) && agrees rest others

end

/-- Whether a datum holds nothing: it is null, false or a zero, or it is empty. -/
def isVoid : Datum → Bool
  | null => true
  | bool b => !b
  | int i => i == 0
  | fraction f => f.mantissa == 0
  | text s => s.isEmpty
  | list items => items.isEmpty
  | record fields => fields.isEmpty

/-- Sets a field of a record. A field that is there already keeps its place. -/
def set (fields : List (String × Datum)) (key : String) (value : Datum) : List (String × Datum) :=
  match fields with
  | [] => [(key, value)]
  | (k, old) :: rest => if k = key then (k, value) :: rest else (k, old) :: set rest key value

/-- A field that has been set is found with its value. -/
@[simp] theorem lookup_set_self (fields : List (String × Datum)) (key : String) (value : Datum) :
    (set fields key value).lookup key = some value := by
  induction fields with
  | nil => simp [set]
  | cons field rest ih =>
    obtain ⟨k, old⟩ := field
    by_cases h : k = key
    · simp [set, h]
    · have h' : (key == k) = false := by simpa using fun e => h e.symm
      simp [set, h, List.lookup_cons, h', ih]

/-- Setting a field leaves the others alone. -/
theorem lookup_set_of_ne {fields : List (String × Datum)} {key other : String} (value : Datum)
    (h : other ≠ key) : (set fields key value).lookup other = fields.lookup other := by
  induction fields with
  | nil =>
    have h' : (other == key) = false := by simpa using h
    simp [set, List.lookup_cons, h']
  | cons field rest ih =>
    obtain ⟨k, old⟩ := field
    by_cases hk : k = key
    · have h' : (other == k) = false := by simpa [hk] using h
      simp [set, hk, List.lookup_cons, hk ▸ h']
    · simp [set, hk, List.lookup_cons, ih]

end Datum

end TreeGrammar
