import TreeGrammar.Bindings
import TreeGrammar.Definition

/-!
# Grammars

A grammar maps names to types, and keeps the order in which the names were bound. The grammars that
`Grammar.ofDefinitions?` returns hold no nested types; one put together by hand may.

* `Grammar.get?`, `Grammar.names`: the mapping and the order.
* `Grammar.canonical`: its canonical form, a line for each name.
* `Grammar.agrees`: equality as mappings, whatever the order.
* `Grammar.isListCell`: whether a name is bound to the cells of a list.
-/

namespace TreeGrammar

/-- Names with their types, in order. -/
structure Grammar where
  types : List (String × Ty)

namespace Grammar

/-- The type a name is bound to. -/
def get? (g : Grammar) (name : String) : Option Ty :=
  g.types.lookup name

/-- The names bound, in order. -/
def names (g : Grammar) : List String :=
  g.types.map (·.1)

/-- The number of names bound. -/
def size (g : Grammar) : Nat :=
  g.types.length

/-- Binds a name. A name that is bound already keeps its place. -/
def bind (types : List (String × Ty)) (name : String) (type : Ty) : List (String × Ty) :=
  match types with
  | [] => [(name, type)]
  | (n, t) :: rest => if n = name then (n, type) :: rest else (n, t) :: bind rest name type

/-- The grammar in which names are bound one after the other. -/
def ofList (types : List (String × Ty)) : Grammar :=
  ⟨types.foldl (fun acc (name, type) => bind acc name type) []⟩

/-- The grammar of flat bindings. -/
def ofBindings (b : Bindings) : Grammar :=
  ⟨b.map fun (name, body) => (name, body.toTy)⟩

/-- Makes one definition after the other; the first that fails decides. -/
def definitionsOf : List (String × Ty) → Except Failure (List Definition)
  | [] => .ok []
  | (name, type) :: rest =>
    match Definition.make (.text name) (.ref (.inline type)) with
    | .error e => .error e
    | .ok d =>
      match definitionsOf rest with
      | .error e => .error e
      | .ok ds => .ok (d :: ds)

/-- The definitions that a grammar amounts to. -/
def definitions (g : Grammar) : Except Failure (List Definition) :=
  definitionsOf g.types

/-- The canonical form: a line for each name, in order. -/
def canonical (g : Grammar) : String :=
  "\n".intercalate (g.types.map fun (name, type) => Text.quote name ++ " := " ++ type.canonical)

/-- The short description of a grammar. -/
def literal (g : Grammar) : String :=
  "Environment(" ++ toString g.size ++ " types)"

/-- Whether two grammars bind the same names to equal types. -/
def agrees (g other : Grammar) : Bool :=
  g.size == other.size &&
    g.types.all fun (name, type) =>
      (other.get? name).any fun t => t.canonical == type.canonical

/-- Whether the members of a union are exactly the empty list and `cell`. -/
def isListOf (cell : String) (members : List Ref) : Bool :=
  let texts := members.map fun
    | .name s => if s = emptyList ∨ s = cell then some s else none
    | _ => none
  texts.all (·.isSome) && texts.contains (some emptyList) && texts.contains (some cell)

/-- Whether a name is bound to the cells of a list: pairs of which the second item is the empty list
or again such a pair. -/
def isListCell (g : Grammar) (name : String) : Bool :=
  match g.get? name with
  | some (.product [_, .name rest]) =>
    match g.get? rest with
    | some (.union members) => isListOf name members
    | _ => false
  | _ => false

/-- The names bound to the cells of a list. -/
def listCells (g : Grammar) : List String :=
  g.names.filter g.isListCell

end Grammar

end TreeGrammar
