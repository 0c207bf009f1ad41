import TreeGrammar.Text.Literal

/-!
# Trees

A tree is a leaf that carries a tag, or a node that carries the name of the definition it comes from
and has ordered children. Leaves and childless nodes occupy one unit of size; whether a node with
children occupies one beyond its children is a matter of accounting.

* `Tree`: the trees.
* `Accounting`: whether inner nodes count.
* `Tree.size`: the number of units a tree occupies.
* `Sample`: trees in which places may be empty, and `Sample.tree?`, the tree if none is.
-/

namespace TreeGrammar

/-- Ordered trees. -/
inductive Tree where
  | leaf (tag : String)
  | node (name : String) (children : List Tree)
deriving Inhabited

/-- What occupies size: inner nodes as well, or leaves only. -/
inductive Accounting where
  | nodes
  | leaves
deriving DecidableEq

/-- The size of an inner node itself. -/
def Accounting.offset : Accounting → Nat
  | nodes => 1
  | leaves => 0

namespace Tree

mutual

/-- The number of units a tree occupies. -/
def size (mode : Accounting) : Tree → Nat
  | leaf _ => 1
  | node _ [] => 1
  | node _ (c :: cs) => mode.offset + (c.size mode + sizes mode cs)

/-- The number of units that several trees occupy together. -/
def sizes (mode : Accounting) : List Tree → Nat
  | [] => 0
  | c :: cs => c.size mode + sizes mode cs

end

/-- The children of a node. -/
def children : Tree → List Tree
  | leaf _ => []
  | node _ cs => cs

mutual

/-- Whether two trees are the same. -/
def same : Tree → Tree → Bool
  | leaf s, leaf t => s == t
  | node m cs, node n ds => m == n && sameAll cs ds
  | _, _ => false

/-- Whether two sequences of trees are the same. -/
def sameAll : List Tree → List Tree → Bool
  | [], [] => true
  | c :: cs, d :: ds => c.same d && sameAll cs ds
  | _, _ => false

end

mutual

/-- The literal of a tree. -/
def literal : Tree → String
  | leaf tag => Text.literal tag
  | node name cs =>
    "Node(name=" ++ Text.literal name ++ ", children=[" ++ ", ".intercalate (literals cs) ++ "])"

/-- The literals of several trees. -/
def literals : List Tree → List String
  | [] => []
  | c :: cs => c.literal :: literals cs

end

mutual

/-- Trees that the comparison takes for the same are equal. -/
theorem eq_of_same : (s t : Tree) → s.same t = true → s = t
  | leaf _, leaf _, h => by simp_all [same]
  | node _ cs, node _ ds, h => by
    simp only [same, Bool.and_eq_true, beq_iff_eq] at h
    rw [h.1, eq_of_sameAll cs ds h.2]
  | leaf _, node _ _, h => by simp [same] at h
  | node _ _, leaf _, h => by simp [same] at h

/-- Children that the comparison takes for the same one by one are equal. -/
theorem eq_of_sameAll : (cs ds : List Tree) → sameAll cs ds = true → cs = ds
  | [], [], _ => rfl
  | c :: cs, d :: ds, h => by
    simp only [sameAll, Bool.and_eq_true] at h
    rw [eq_of_same c d h.1, eq_of_sameAll cs ds h.2]
  | [], _ :: _, h => by simp [sameAll] at h
  | _ :: _, [], h => by simp [sameAll] at h

end

mutual

/-- The comparison takes a tree for the same as itself. -/
theorem same_refl : (t : Tree) → t.same t = true
  | leaf _ => by simp [same]
  | node _ cs => by simp [same, sameAll_refl cs]

/-- The comparison takes children for the same as themselves. -/
theorem sameAll_refl : (cs : List Tree) → sameAll cs cs = true
  | [] => by simp [sameAll]
  | c :: cs => by simp [sameAll, same_refl c, sameAll_refl cs]

end

instance : DecidableEq Tree := fun s t =>
  if h : s.same t = true then isTrue (eq_of_same s t h)
  else isFalse fun e => h (e ▸ same_refl s)

end Tree

/-- Trees in which places may be empty. -/
inductive Sample where
  | absent
  | leaf (tag : String)
  | node (name : String) (children : List Sample)
deriving Inhabited

namespace Sample

mutual

/-- The tree, if no place is empty. -/
def tree? : Sample → Option Tree
  | absent => none
  | leaf tag => some (.leaf tag)
  | node name cs =>
    match trees? cs with
    | some ts => some (.node name ts)
    | none => none

/-- The trees, if no place is empty in any. -/
def trees? : List Sample → Option (List Tree)
  | [] => some []
  | c :: cs =>
    match c.tree?, trees? cs with
    | some t, some ts => some (t :: ts)
    | _, _ => none

end

/-- Whether there is nothing at all. -/
def isAbsent : Sample → Bool
  | absent => true
  | _ => false

end Sample

end TreeGrammar
