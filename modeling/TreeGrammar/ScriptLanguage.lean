import TreeGrammar.Grammar.Normalisation
import TreeGrammar.Tree.Data

/-!
# A script language

* `ScriptLanguage.definitions?`: a small language of expressions and statements, as a sample.
* `ScriptLanguage.grammar?`: the grammar.
* `ScriptLanguage.fields`: the names of the children of its nodes.
-/

namespace TreeGrammar.ScriptLanguage

/-- The names of the grammar with their types as they are written. -/
def expressions : List (String × Expr) :=
  let statement := Expr.name "t_Statement"
  let expression := Expr.name "t_Expression"
  let value (tag : String) := Expr.value (.text tag)
  [ ("t_Script", .product [.list 0 statement]),
    ("t_Statement",
      .union [.name "t_ExpressionStatement", .name "t_ReturnStatement", .name "t_BlockStatement"]),
    ("t_ExpressionStatement", .product [expression]),
    ("t_ReturnStatement", .product [.maybe expression]),
    ("t_BlockStatement", .product [.list 1 statement]),
    ("t_Expression",
      .union [.name "t_LiteralNumeric", .name "t_IdentifierExpression",
        .name "t_BinaryExpression", .name "t_UnaryExpression", .name "t_CallExpression"]),
    ("t_LiteralNumeric", .product [value "v_number"]),
    ("t_IdentifierExpression", .product [value "v_identifier"]),
    ("t_BinaryExpression", .product [expression, value "v_BinOp", expression]),
    ("t_UnaryExpression", .product [value "v_UnOp", expression]),
    ("t_CallExpression", .product [expression, .list 2 expression]) ]

/-- The definitions of the grammar. -/
def definitions? : Except Failure (List Definition) :=
  Definition.makeAll expressions

/-- The grammar. -/
def grammar? : Except Failure Grammar :=
  match definitions? with
  | .error e => .error e
  | .ok ds => (Grammar.ofDefinitions? ds).2

/-- The names of the children of the grammar's nodes. -/
def fields : FieldNames :=
  [ ("t_Script", some ["statements"]),
    ("t_ExpressionStatement", some ["expression"]),
    ("t_ReturnStatement", some ["expression"]),
    ("t_BlockStatement", some ["statements"]),
    ("t_LiteralNumeric", some ["value"]),
    ("t_IdentifierExpression", some ["name"]),
    ("t_BinaryExpression", some ["left", "operator", "right"]),
    ("t_UnaryExpression", some ["operator", "operand"]),
    ("t_CallExpression", some ["callee", "arguments"]) ]

end TreeGrammar.ScriptLanguage
