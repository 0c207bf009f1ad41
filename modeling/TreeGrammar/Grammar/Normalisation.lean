import TreeGrammar.Bindings.SelfAlias
import TreeGrammar.Bindings.Flattening
import TreeGrammar.Bindings.Extraction
import TreeGrammar.Grammar

/-!
# Normalising definitions

Definitions with nested types become a grammar in which every item is a value tag or a bound name,
no union has a union among its members, and no name is an alias for itself. Five things can fail, in
this order: something is no definition, a name is defined twice, a builder fails, an item is bound
nowhere, or a name has no finite base.

* `Event`: what is written to the log on the way.
* `Grammar.ofDefinitions?`: the grammar of some definitions, or the first failure, and the log.
* `Grammar.ofEntries?`: the same for what may be no definition.
-/

namespace TreeGrammar

/-- What is written to the log on the way. -/
inductive Event where
  | extracted (x : Extraction)
  | converged (passes : Nat)
  | built (types synthesized : Nat)

/-- The log entry for an event. -/
def Event.message : Event → String
  | extracted x =>
    "hoisting " ++ x.name ++ " := " ++ x.type.canonical ++ " (inside '" ++ x.owner ++ "')"
  | converged passes => "union expansion converged after " ++ toString passes ++ " pass(es)"
  | built types synthesized =>
    "built environment: " ++ toString types ++ " types (" ++ toString synthesized ++
      " synthesized)"

/-- What may be handed over in place of a definition. -/
inductive Entry where
  | definition (d : Definition)
  | other (o : Operand)

/-- The definitions, unless something is none. -/
def Entry.definitions : List Entry → Except Failure (List Definition)
  | [] => .ok []
  | .other o :: _ => .error (.construction (.notADefinition o.literal))
  | .definition d :: rest =>
    match definitions rest with
    | .error e => .error e
    | .ok ds => .ok (d :: ds)

/-- The first name that repeats an earlier one. -/
def firstRepeated (earlier : List String) : List String → Option String
  | [] => none
  | name :: rest => if name ∈ earlier then some name else firstRepeated (name :: earlier) rest

namespace Grammar

/-- Closes, flattens and checks bindings, of which `given` are the author's own. -/
def ofBindings? (given : Nat) (b : Bindings) : List Event × Except Failure Grammar :=
  match b.unbound? with
  | some (item, owner) => ([], .error (.undefinedName item (some owner)))
  | none =>
    match b.flatten with
    | .error e => ([], .error e)
    | .ok (flat, passes) =>
      match flat.selfAlias? with
      | some name => ([.converged passes], .error (.noFiniteBase name .aliasing))
      | none =>
        ([.converged passes, .built flat.length (flat.length - given)], .ok (ofBindings flat))

/-- The grammar of some definitions, after the log of what was done. -/
def ofDefinitions? (ds : List Definition) : List Event × Except Failure Grammar :=
  let names := ds.map (·.name)
  match firstRepeated [] names with
  | some name => ([], .error (.duplicateName name))
  | none =>
    match extract (FreshNames.ofUsed names "t_") (ds.map fun d => (d.name, d.type)) with
    | .error (log, e) => (log.map .extracted, .error e)
    | .ok (log, b) =>
      let (events, result) := ofBindings? ds.length b
      (log.map .extracted ++ events, result)

/-- The grammar of what is handed over, after the log of what was done. -/
def ofEntries? (entries : List Entry) : List Event × Except Failure Grammar :=
  match Entry.definitions entries with
  | .error e => ([], .error e)
  | .ok ds => ofDefinitions? ds

end Grammar

end TreeGrammar
