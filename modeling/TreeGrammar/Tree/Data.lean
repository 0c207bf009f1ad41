import TreeGrammar.Datum
import TreeGrammar.Grammar
import TreeGrammar.Tree.Lists

/-!
# Trees as plain data

A tree is turned into plain data for further use. A tag is a text and the empty list an empty list;
the cells of a list become the list of its elements, and a childless node nothing. Any other node
becomes a record with its name under `type` and its children, either all under `children` or each
under a field name of its own.

* `FieldNames`: the field names for the nodes of a name.
* `Tree.toDatum`: the data of a tree, or the first failure: a chain that is no list, or a number of
  field names that is not the number of children.
-/

namespace TreeGrammar

/-- The field names for the nodes of a name. An entry may leave the names open. -/
abbrev FieldNames := List (String × Option (List String))

namespace Tree

set_option linter.unusedVariables false in
mutual

/-- The data of a tree, where the nodes with a name in `cells` are the cells of lists. -/
def convert (cells : List String) (fields : FieldNames) (t : Tree) : Except Failure Datum :=
  match t with
  | leaf tag => .ok (if tag = emptyList then .list [] else .text tag)
  | node name cs =>
    if name ∈ cells then
      match chain : (node name cs).elements? with
      | .error e => .error e
      | .ok xs =>
        match convertAll cells fields xs with
        | .error e => .error e
        | .ok ds => .ok (.list ds)
    else if cs.isEmpty then .ok .null
    else
      match (fields.lookup name).join with
      | none =>
        match convertAll cells fields cs with
        | .error e => .error e
        | .ok ds => .ok (.record [("type", .text name), ("children", .list ds)])
      | some names =>
        if names.length ≠ cs.length then
          .error (.badValue (.fieldCount name cs.length names.length))
        else
          match convertAll cells fields cs with
          | .error e => .error e
          | .ok ds =>
            .ok (.record ((names.zip ds).foldl (fun acc (key, d) => Datum.set acc key d)
              [("type", .text name)]))
termination_by sizeOf t
decreasing_by
  · exact sizeOf_elements?_node chain
  · simp only [node.sizeOf_spec]; omega
  · simp only [node.sizeOf_spec]; omega

/-- The data of several trees, from left to right. -/
def convertAll (cells : List String) (fields : FieldNames) (ts : List Tree) :
    Except Failure (List Datum) :=
  match ts with
  | [] => .ok []
  | t :: rest =>
    match convert cells fields t with
    | .error e => .error e
    | .ok d =>
      match convertAll cells fields rest with
      | .error e => .error e
      | .ok ds => .ok (d :: ds)
termination_by sizeOf ts

end

/-- The data of a tree over a grammar. -/
def toDatum (g : Grammar) (fields : FieldNames) (t : Tree) : Except Failure Datum :=
  t.convert g.listCells fields

end Tree

end TreeGrammar
