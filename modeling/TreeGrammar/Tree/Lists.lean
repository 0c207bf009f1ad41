import TreeGrammar.Failure
import TreeGrammar.Name
import TreeGrammar.Tree

/-!
# Lists in trees

A list in a tree is a chain of cells: a node with an element and the rest of the list as its
children, down to the empty list.

* `Tree.elements?`: the elements of a chain, in order; the names of the cells do not count.
* `Tree.ofElements`: the chain of some elements.
* `Tree.elements?_ofElements`: reading a chain gives its elements back.
-/

namespace TreeGrammar.Tree

/-- The elements of a chain of cells. -/
def elements? (t : Tree) : Except Failure (List Tree) :=
  match t with
  | leaf tag =>
    if tag = emptyList then .ok [] else .error (.badValue (.notAListCell (leaf tag).literal))
  | node _ [x, rest] =>
    match rest.elements? with
    | .error e => .error e
    | .ok xs => .ok (x :: xs)
  | t => .error (.badValue (.notAListCell t.literal))

/-- The chain of some elements, with cells of a given name. -/
def ofElements (cell : String) (xs : List Tree) : Tree :=
  xs.foldr (fun x rest => node cell [x, rest]) (leaf emptyList)

/-- Reading a chain gives its elements back. -/
@[simp] theorem elements?_ofElements (cell : String) (xs : List Tree) :
    (ofElements cell xs).elements? = .ok xs := by
  induction xs with
  | nil => simp [ofElements, elements?]
  | cons x xs ih =>
    rw [ofElements, List.foldr_cons]
    rw [ofElements] at ih
    rw [elements?, ih]

/-- A node is read as a chain only if it is a cell with a chain behind it. -/
theorem elements?_node_cases {name : String} {cs xs : List Tree}
    (h : (node name cs).elements? = .ok xs) :
    ∃ x rest ys, cs = [x, rest] ∧ rest.elements? = .ok ys ∧ xs = x :: ys := by
  match cs with
  | [x, rest] =>
    rw [elements?] at h
    split at h
    · cases h
    · next ys behind =>
      cases h
      exact ⟨x, rest, ys, rfl, behind, rfl⟩
  | [] => simp [elements?] at h
  | [_] => simp [elements?] at h
  | _ :: _ :: _ :: _ => simp [elements?] at h

/-- The elements of a chain are no larger than the chain. -/
theorem sizeOf_elements? {t : Tree} {xs : List Tree} (h : t.elements? = .ok xs) :
    sizeOf xs ≤ sizeOf t := by
  match t with
  | leaf tag =>
    rw [elements?] at h
    split at h <;> cases h
    simp
  | node name cs =>
    obtain ⟨x, rest, ys, rfl, behind, rfl⟩ := elements?_node_cases h
    have := sizeOf_elements? behind
    simp
    omega

/-- The elements of a cell and the cells below it are smaller than the cell. -/
theorem sizeOf_elements?_node {name : String} {cs xs : List Tree}
    (h : (node name cs).elements? = .ok xs) : sizeOf xs < sizeOf (node name cs) := by
  obtain ⟨x, rest, ys, rfl, behind, rfl⟩ := elements?_node_cases h
  have := sizeOf_elements? behind
  simp
  omega

end TreeGrammar.Tree
