import TreeGrammar.Reading

/-!
# Definitions

A definition binds a name to a type. The name is a non-empty text that is no value tag, and the type
is what the given operand stands for once it knows that name.

* `Definition`: a name with its type.
* `Definition.make`: checks the name first, then the type.
* `Definition.makeAll`: the definitions of several names with type expressions.
* `Definition.line`, `Definition.literal`: the two texts of a definition.
-/

namespace TreeGrammar

/-- A name with its type. -/
structure Definition where
  name : String
  type : Ty
  definable : IsDefinable name

namespace Definition

/-- Binds a name to the type an operand stands for under that name. -/
def make (name : Datum) (body : Operand) : Except Failure Definition :=
  match name with
  | .text s =>
    if empty : s = "" then .error (.construction .namelessDefinition)
    else
      match tag : isTag s with
      | true => .error (.construction (.reservedName s))
      | false =>
        match body.bindTo s with
        | .error e => .error e
        | .ok (.ref (.inline t)) => .ok ⟨s, t, empty, tag⟩
        | .ok _ => .error (.construction (.definitionWithoutType s))
  | _ => .error (.construction .namelessDefinition)

/-- Reads expressions and binds names to them, one after the other; the first failure decides. -/
def makeAll : List (String × Expr) → Except Failure (List Definition)
  | [] => .ok []
  | (name, e) :: rest =>
    match e.eval [] with
    | .error err => .error err
    | .ok body =>
      match make (.text name) body with
      | .error err => .error err
      | .ok d =>
        match makeAll rest with
        | .error err => .error err
        | .ok ds => .ok (d :: ds)

/-- The definition on a line of its own: its quoted name and its type. -/
def line (d : Definition) : String :=
  Text.quote d.name ++ " := " ++ d.type.canonical

/-- The literal of a definition. -/
def literal (d : Definition) : String :=
  "Def(" ++ Text.literal d.name ++ ", " ++ d.type.canonical ++ ")"

end Definition

end TreeGrammar
