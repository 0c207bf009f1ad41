import TreeGrammar.Tree

/-!
# Outlines

An outline shows a tree with a line for every leaf and node, each before its children. A line is
indented by three blanks for each level it stands at, and every line but the first has a connector
that tells a last child from the others. The root may stand at any level; there is no margin below
level zero.

* `Tree.label`: what a line shows of a leaf or a node.
* `Tree.outlineLines`: the lines.
* `Tree.outline`: the text.
-/

namespace TreeGrammar.Tree

/-- A leaf by its tag and a node by its name; a childless node is marked as such. -/
def label : Tree → String
  | leaf tag => tag
  | node name [] => name ++ " ()"
  | node name (_ :: _) => name

/-- The blanks before a line. -/
def margin (level : Int) : String :=
  String.ofList (List.replicate (3 * level).toNat ' ')

mutual

/-- The lines of a tree whose root stands at a level, after a connector. -/
def outlineLines (level : Int) (connector : String) : Tree → List String
  | leaf tag => [margin level ++ connector ++ (leaf tag).label]
  | node name cs =>
    (margin level ++ connector ++ (node name cs).label) :: childLines (level + 1) cs

/-- The lines of the children of a node. -/
def childLines (level : Int) : List Tree → List String
  | [] => []
  | [c] => c.outlineLines level "└─ "
  | c :: d :: cs => c.outlineLines level "├─ " ++ childLines level (d :: cs)

end

/-- The outline of a tree whose root stands at a level, after a connector. -/
def outlineFrom (level : Int) (connector : String) (t : Tree) : String :=
  "\n".intercalate (t.outlineLines level connector)

/-- The outline of a tree. -/
def outline (t : Tree) : String :=
  t.outlineFrom 0 ""

end TreeGrammar.Tree
