import Mathlib
import TreeGrammar.Proofs.Counting.Aliases
import TreeGrammar.Proofs.Counting.Derivation
import TreeGrammar.Tree.Lists

/-!
# Lists are chains of cells

A grammar has the cells of a list under a name whose second item is the union of the empty list and
the name itself. What this union derives are the chains of cells, and a chain is nothing but its
elements: reading it gives them in order, and folding cells over them from the right gives it back.

* `Grammar.treesOf`: the trees that a grammar derives for a reference.
* `Grammar.ListCell`, `Grammar.isListCell_iff`: the cells of a list, with the type of the elements
  and the name of the lists.
* `Grammar.ListCell.exists_ofElements`: the lists are the chains of elements.
* `Grammar.ListCell.bijOn`: reading is a bijection from the lists to the sequences of elements.
* `Tree.size_ofElements`: the size of a chain.
-/

namespace TreeGrammar

/-! ### Chains -/

namespace Tree

/-- Equation lemma: a chain without elements is the end of a list. -/
@[simp] theorem ofElements_nil (cell : String) : ofElements cell [] = leaf emptyList := rfl

/-- Equation lemma: a chain is a cell of its first element and the chain of the others. -/
@[simp] theorem ofElements_cons (cell : String) (x : Tree) (xs : List Tree) :
    ofElements cell (x :: xs) = node cell [x, ofElements cell xs] := rfl

/-- A chain has one unit for its end, and for each element its own size and that of a cell. -/
theorem size_ofElements (mode : Accounting) (cell : String) (xs : List Tree) :
    (ofElements cell xs).size mode = 1 + (xs.map fun x => x.size mode + mode.offset).sum := by
  induction xs with
  | nil => exact size_leaf mode emptyList
  | cons x xs ih =>
    rw [ofElements_cons, size_node mode (List.cons_ne_nil _ _), sizes, sizes, sizes, ih,
      List.map_cons, List.sum_cons]
    omega

end Tree

namespace Grammar

/-- The trees that a grammar derives for a reference. -/
def treesOf (g : Grammar) (r : Ref) : Set Tree :=
  {t | ∃ d, g.Derives r d ∧ d.tree = t}

/-- A node that is derived has a child for every item of its product, derived for this item. -/
theorem node_cases {g : Grammar} {r : Ref} {name : String} {children : List Tree}
    (derived : Tree.node name children ∈ g.treesOf r) :
    ∃ items, g.get? name = some (.product items) ∧
      List.Forall₂ (fun item c => c ∈ g.treesOf item) items children := by
  obtain ⟨d, derives, tree⟩ := derived
  obtain ⟨items, ds, bound, below, rfl⟩ := derives.of_tree_node tree
  refine ⟨items, bound, ?_⟩
  rw [Derivation.trees_eq_map, List.forall₂_map_right_iff]
  exact below.imp fun item d h => ⟨d, h, rfl⟩

/-! ### Cells -/

/-- A name is bound to the cells of a list, pairs of an element and what `rest` is bound to: the
union of the empty list and the cells. -/
structure ListCell (g : Grammar) (cell : String) (elem : Ref) (rest : String) : Prop where
  pair : g.get? cell = some (.product [elem, .name rest])
  list : ∃ members, g.get? rest = some (.union members) ∧
    ∀ r, r ∈ members ↔ r = .name emptyList ∨ r = .name cell

/-- Members are those of the lists of a cell exactly if they are the end of a list and the cell. -/
theorem isListOf_iff {cell : String} {members : List Ref} :
    isListOf cell members = true ↔ ∀ r, r ∈ members ↔ r = .name emptyList ∨ r = .name cell := by
  simp only [isListOf, Bool.and_eq_true, List.all_map, List.all_eq_true, List.contains_iff_mem,
    List.mem_map, Function.comp_apply]
  constructor
  · rintro ⟨⟨only, r₁, member₁, empty⟩, r₂, member₂, cells⟩ r
    refine ⟨fun member => ?_, ?_⟩
    · have kept := only r member
      rcases r with s | t | b
      · by_cases among : s = emptyList ∨ s = cell
        · exact among.imp (congrArg Ref.name) (congrArg Ref.name)
        · simp [among] at kept
      · cases kept
      · cases kept
    · rintro (rfl | rfl)
      · rcases r₁ with s | t | b
        · simp only [Option.ite_none_right_eq_some, Option.some.injEq] at empty
          exact empty.2 ▸ member₁
        · cases empty
        · cases empty
      · rcases r₂ with s | t | b
        · simp only [Option.ite_none_right_eq_some, Option.some.injEq] at cells
          exact cells.2 ▸ member₂
        · cases cells
        · cases cells
  · intro among
    refine ⟨⟨fun r member => ?_, _, (among _).2 (Or.inl rfl), ?_⟩, _, (among _).2 (Or.inr rfl), ?_⟩
    · rcases (among r).1 member with rfl | rfl <;> simp
    · simp
    · simp

/-- A name is taken for a list cell exactly if it is bound to the cells of a list. -/
theorem isListCell_iff {g : Grammar} {name : String} :
    g.isListCell name = true ↔ ∃ elem rest, g.ListCell name elem rest := by
  rw [isListCell]
  constructor
  · intro h
    split at h
    · next elem rest pair =>
      split at h
      · next members list => exact ⟨elem, rest, pair, members, list, isListOf_iff.1 h⟩
      · cases h
    · cases h
  · rintro ⟨elem, rest, pair, members, list, among⟩
    rw [pair]
    dsimp only
    rw [list]
    exact isListOf_iff.2 among

namespace ListCell

variable {g : Grammar} {cell rest : String} {elem : Ref} (h : g.ListCell cell elem rest)
  (closed : g.Closed)
include h closed

/-- What a list is: the empty list, or a cell of an element and a list. -/
theorem mem_treesOf_cases (t : Tree) : t ∈ g.treesOf (.name rest) ↔
    t = .leaf emptyList ∨
      ∃ x ∈ g.treesOf elem, ∃ l ∈ g.treesOf (.name rest), t = .node cell [x, l] := by
  obtain ⟨members, list, among⟩ := h.list
  have untagged := closed.names rest _ list
  constructor
  · rintro ⟨d, derives, rfl⟩
    obtain ⟨i, r, d', place, member, rfl⟩ := (derives_union untagged list).1 derives
    rcases (among r).1 (List.mem_of_getElem? place) with rfl | rfl
    · rw [derives_tag isTag_emptyList] at member
      subst member
      exact Or.inl rfl
    · obtain ⟨ds, below, rfl⟩ := (derives_product (closed.names cell _ h.pair) h.pair).1 member
      obtain ⟨first, _, elemDerives, others, rfl⟩ := List.forall₂_cons_left_iff.1 below
      obtain ⟨second, _, restDerives, none, rfl⟩ := List.forall₂_cons_left_iff.1 others
      obtain rfl := List.forall₂_nil_left_iff.1 none
      exact Or.inr ⟨_, ⟨first, elemDerives, rfl⟩, _, ⟨second, restDerives, rfl⟩, rfl⟩
  · rintro (rfl | ⟨_, ⟨first, elemDerives, rfl⟩, _, ⟨second, restDerives, rfl⟩, rfl⟩)
    · obtain ⟨i, place⟩ := List.mem_iff_getElem?.1 ((among _).2 (Or.inl rfl))
      exact ⟨.choice i (.leaf emptyList),
        .union untagged list place (.tag isTag_emptyList), rfl⟩
    · obtain ⟨i, place⟩ := List.mem_iff_getElem?.1 ((among _).2 (Or.inr rfl))
      refine ⟨.choice i (.node cell [first, second]), .union untagged list place ?_, rfl⟩
      exact .product (closed.names cell _ h.pair) h.pair
        (.cons elemDerives (.cons restDerives .nil))

/-- A cell that is derived for any reference is a list. -/
theorem node_mem {r : Ref} {children : List Tree}
    (derived : Tree.node cell children ∈ g.treesOf r) :
    Tree.node cell children ∈ g.treesOf (.name rest) := by
  obtain ⟨items, bound, below⟩ := node_cases derived
  rw [h.pair] at bound
  cases bound
  obtain ⟨x, _, first, others, rfl⟩ := List.forall₂_cons_left_iff.1 below
  obtain ⟨l, _, second, none, rfl⟩ := List.forall₂_cons_left_iff.1 others
  obtain rfl := List.forall₂_nil_left_iff.1 none
  exact (h.mem_treesOf_cases closed _).2 (Or.inr ⟨x, first, l, second, rfl⟩)

/-- Chains of elements are lists. -/
theorem ofElements_mem {xs : List Tree} (elems : ∀ x ∈ xs, x ∈ g.treesOf elem) :
    Tree.ofElements cell xs ∈ g.treesOf (.name rest) := by
  induction xs with
  | nil => exact (h.mem_treesOf_cases closed _).2 (Or.inl rfl)
  | cons x xs ih =>
    obtain ⟨first, others⟩ := List.forall_mem_cons.1 elems
    exact (h.mem_treesOf_cases closed _).2 (Or.inr ⟨x, first, _, ih others, rfl⟩)

/-- Lists are chains of elements. -/
theorem exists_ofElements (t : Tree) (derived : t ∈ g.treesOf (.name rest)) :
    ∃ xs, (∀ x ∈ xs, x ∈ g.treesOf elem) ∧ t = Tree.ofElements cell xs := by
  rcases (h.mem_treesOf_cases closed t).1 derived with rfl | ⟨x, hx, l, hl, rfl⟩
  · exact ⟨[], fun x hx => absurd hx List.not_mem_nil, rfl⟩
  · obtain ⟨xs, elems, rfl⟩ := exists_ofElements l hl
    exact ⟨x :: xs, List.forall_mem_cons.2 ⟨hx, elems⟩, rfl⟩
termination_by t

/-- Reading is a bijection from the lists to the sequences of elements. -/
theorem bijOn : Set.BijOn Tree.elements? (g.treesOf (.name rest))
    (Except.ok '' {xs | ∀ x ∈ xs, x ∈ g.treesOf elem}) := by
  refine ⟨fun t derived => ?_, fun t derived t' derived' same => ?_, ?_⟩
  · obtain ⟨xs, elems, rfl⟩ := h.exists_ofElements closed t derived
    exact ⟨xs, elems, (Tree.elements?_ofElements cell xs).symm⟩
  · obtain ⟨xs, -, rfl⟩ := h.exists_ofElements closed t derived
    obtain ⟨xs', -, rfl⟩ := h.exists_ofElements closed t' derived'
    rw [Tree.elements?_ofElements, Tree.elements?_ofElements] at same
    rw [Except.ok.inj same]
  · rintro _ ⟨xs, elems, rfl⟩
    exact ⟨Tree.ofElements cell xs, h.ofElements_mem closed elems,
      Tree.elements?_ofElements cell xs⟩

end ListCell

end Grammar

end TreeGrammar
