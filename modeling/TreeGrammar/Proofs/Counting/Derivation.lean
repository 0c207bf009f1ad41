import Mathlib.Data.Set.Card
import TreeGrammar.Grammar
import TreeGrammar.Tree

/-!
# Derivations

What a grammar stands for, said without counting anything. A derivation says how a tree comes from
a reference: which tag stands at a leaf, which name at a node, and which member was taken of each
union that is met on the way. The tree itself forgets the members, so one tree may have several
derivations.

* `Derivation`, `Derivation.tree`: derivations and their trees.
* `Grammar.Derives`: the derivations that a grammar has for a reference.
* `Grammar.derivations`, `Grammar.sequences`: those of one size, for a reference and for several
  items together; `derivations_*`, `choices_*`, `sequences_*`, `splits_*` say what they consist of.
* `Tree.sample`: a tree as a sample in which no place is empty.
-/

namespace TreeGrammar

/-- How a tree comes from a reference. A choice is recorded by the place of the member in its
union. -/
inductive Derivation where
  | leaf (tag : String)
  | node (name : String) (children : List Derivation)
  | choice (place : Nat) (member : Derivation)

namespace Derivation

mutual

/-- The tree that a derivation ends in. -/
def tree : Derivation → Tree
  | leaf tag => .leaf tag
  | node name children => .node name (trees children)
  | choice _ member => member.tree

/-- The trees that several derivations end in. -/
def trees : List Derivation → List Tree
  | [] => []
  | d :: ds => d.tree :: trees ds

end

/-- The trees of several derivations are those of each. -/
theorem trees_eq_map (ds : List Derivation) : trees ds = ds.map tree := by
  induction ds with
  | nil => rw [trees, List.map_nil]
  | cons d ds ih => rw [trees, ih, List.map_cons]

/-- A node is known by its children. -/
theorem node_injective (name : String) : Function.Injective (node name) := by
  intro ds ds' e
  exact (node.inj e).2

/-- A choice is known by its place and by what is chosen. -/
theorem choice_injective :
    Function.Injective fun p : Nat × Derivation => choice p.1 p.2 := by
  intro p q e
  exact Prod.ext (choice.inj e).1 (choice.inj e).2

end Derivation

/-- The derivations of a reference. Whatever is no name has none, and a tag is never looked up. -/
inductive Grammar.Derives (g : Grammar) : Ref → Derivation → Prop where
  | tag {s : String} (tag : isTag s = true) : g.Derives (.name s) (.leaf s)
  | value {s t : String} (tag : ¬isTag s = true) (found : g.get? s = some (.value t)) :
      g.Derives (.name s) (.leaf t)
  | product {s : String} {items : List Ref} {ds : List Derivation} (tag : ¬isTag s = true)
      (found : g.get? s = some (.product items)) (children : List.Forall₂ g.Derives items ds) :
      g.Derives (.name s) (.node s ds)
  | union {s : String} {items : List Ref} {i : Nat} {r : Ref} {d : Derivation}
      (tag : ¬isTag s = true) (found : g.get? s = some (.union items)) (place : items[i]? = some r)
      (member : g.Derives r d) : g.Derives (.name s) (.choice i d)

namespace Grammar

variable {g : Grammar} {s : String} {d : Derivation}

/-! ### What a reference derives -/

/-- What is no name has no derivation. -/
theorem derives_nameless {r : Ref} (nameless : ∀ s, r ≠ .name s) : ¬g.Derives r d := by
  intro h
  cases h
  all_goals exact nameless _ rfl

/-- Equation lemma: a tag has the derivation of its leaf, and no other. -/
theorem derives_tag (tag : isTag s = true) : g.Derives (.name s) d ↔ d = .leaf s := by
  constructor
  · intro h
    cases h with
    | tag => rfl
    | value h => exact absurd tag h
    | product h => exact absurd tag h
    | union h => exact absurd tag h
  · rintro rfl
    exact .tag tag

/-- Equation lemma: a name of a value has the derivation of the value's leaf, and no other. -/
theorem derives_value {t : String} (tag : ¬isTag s = true) (bound : g.get? s = some (.value t)) :
    g.Derives (.name s) d ↔ d = .leaf t := by
  constructor
  · intro h
    cases h with
    | tag h => exact absurd h tag
    | value _ found =>
      rw [bound] at found
      cases found
      rfl
    | product _ found => rw [bound] at found; cases found
    | union _ found => rw [bound] at found; cases found
  · rintro rfl
    exact .value tag bound

/-- Equation lemma: a derivation of a product has one for each item. -/
theorem derives_product {items : List Ref} (tag : ¬isTag s = true)
    (bound : g.get? s = some (.product items)) :
    g.Derives (.name s) d ↔ ∃ ds, List.Forall₂ g.Derives items ds ∧ d = .node s ds := by
  constructor
  · intro h
    cases h with
    | tag h => exact absurd h tag
    | value _ found => rw [bound] at found; cases found
    | product _ found children =>
      rw [bound] at found
      cases found
      exact ⟨_, children, rfl⟩
    | union _ found => rw [bound] at found; cases found
  · rintro ⟨ds, children, rfl⟩
    exact .product tag bound children

/-- Equation lemma: a derivation of a union chooses a member and has one of it. -/
theorem derives_union {items : List Ref} (tag : ¬isTag s = true)
    (bound : g.get? s = some (.union items)) :
    g.Derives (.name s) d ↔ ∃ i r d', items[i]? = some r ∧ g.Derives r d' ∧ d = .choice i d' := by
  constructor
  · intro h
    cases h with
    | tag h => exact absurd h tag
    | value _ found => rw [bound] at found; cases found
    | product _ found => rw [bound] at found; cases found
    | union _ found place member =>
      rw [bound] at found
      cases found
      exact ⟨_, _, _, place, member, rfl⟩
  · rintro ⟨i, r, d', place, member, rfl⟩
    exact .union tag bound place member

/-- A node stands for the product that its name is bound to. The tree of a choice is the tree of the
member, so the node stands where the choices end. -/
theorem Derives.of_tree_node {name : String} {children : List Tree} :
    {r : Ref} → {d : Derivation} → g.Derives r d → d.tree = .node name children →
    ∃ items ds, g.get? name = some (.product items) ∧ List.Forall₂ g.Derives items ds ∧
      Derivation.trees ds = children
  | _, .leaf _, _, tree => by cases tree
  | _, .node _ ds, h, tree => by
    cases h with
    | product _ found below =>
      cases tree
      exact ⟨_, ds, found, below, rfl⟩
  | _, .choice _ _, h, tree => by
    cases h with
    | union _ _ _ member => exact member.of_tree_node tree

end Grammar

/-! ### Sizes -/

namespace Tree

variable (mode : Accounting)

/-- There is no tree without a unit. -/
theorem size_pos (t : Tree) : 0 < t.size mode := by
  match t with
  | .leaf _ => exact Nat.one_pos
  | .node _ [] => exact Nat.one_pos
  | .node _ (c :: cs) =>
    have := size_pos c
    rw [size]
    omega

/-- Equation lemma: a leaf is one unit. -/
@[simp] theorem size_leaf (tag : String) : (leaf tag).size mode = 1 := by
  rw [size]

/-- Equation lemma: a node without children is one unit in both modes. -/
@[simp] theorem size_unit (name : String) : (node name []).size mode = 1 := by
  rw [size]

/-- Equation lemma: a node with children occupies what they do, and a unit more where inner nodes
count. -/
theorem size_node {name : String} {cs : List Tree} (inner : cs ≠ []) :
    (node name cs).size mode = mode.offset + sizes mode cs := by
  cases cs with
  | nil => exact absurd rfl inner
  | cons c cs => rw [size, sizes]

/-- Trees occupy at least one unit each. -/
theorem length_le_sizes (cs : List Tree) : cs.length ≤ sizes mode cs := by
  induction cs with
  | nil => exact Nat.zero_le _
  | cons c cs ih =>
    have := c.size_pos mode
    rw [sizes, List.length_cons]
    omega

end Tree

/-- The number of units that the tree of a derivation occupies. -/
def Derivation.size (mode : Accounting) (d : Derivation) : Nat :=
  d.tree.size mode

/-- The number of units that the trees of several derivations occupy together. -/
def Derivation.sizes (mode : Accounting) (ds : List Derivation) : Nat :=
  Tree.sizes mode (trees ds)

namespace Derivation

variable (mode : Accounting)

/-- There is no derivation of a tree without a unit. -/
theorem size_pos (d : Derivation) : 0 < d.size mode :=
  d.tree.size_pos mode

/-- Equation lemma: the derivation of a leaf has one unit. -/
@[simp] theorem size_leaf (tag : String) : (leaf tag).size mode = 1 := by
  rw [size, tree, Tree.size_leaf]

/-- Equation lemma: a choice adds nothing to the size. -/
@[simp] theorem size_choice (place : Nat) (d : Derivation) :
    (choice place d).size mode = d.size mode := by
  rw [size, tree, size]

/-- Equation lemma: the derivation of a node without children has one unit in both modes. -/
@[simp] theorem size_unit (name : String) : (node name []).size mode = 1 := by
  rw [size, tree, trees, Tree.size_unit]

/-- Equation lemma: the derivation of a node with children has their units, and one more where inner
nodes count. -/
theorem size_node {name : String} {ds : List Derivation} (inner : ds ≠ []) :
    (node name ds).size mode = mode.offset + sizes mode ds := by
  rw [size, tree, Tree.size_node mode, sizes]
  cases ds with
  | nil => exact absurd rfl inner
  | cons d ds => rw [trees]; exact List.cons_ne_nil _ _

/-- Equation lemma: no derivations have no units. -/
@[simp] theorem sizes_nil : sizes mode [] = 0 := by
  rw [sizes, trees, Tree.sizes]

/-- Equation lemma: the units of several derivations are those of the first and those of the
rest. -/
@[simp] theorem sizes_cons (d : Derivation) (ds : List Derivation) :
    sizes mode (d :: ds) = d.size mode + sizes mode ds := by
  rw [sizes, trees, Tree.sizes, size, sizes]

/-- Derivations have at least one unit each. -/
theorem length_le_sizes (ds : List Derivation) : ds.length ≤ sizes mode ds := by
  have := Tree.length_le_sizes mode (trees ds)
  rwa [trees_eq_map, List.length_map, ← trees_eq_map] at this

end Derivation

namespace Grammar

variable (g : Grammar) (mode : Accounting)

/-- The derivations of a reference whose trees have size `n`. -/
def derivations (r : Ref) (n : Nat) : Set Derivation :=
  {d | g.Derives r d ∧ d.size mode = n}

/-- The sequences of derivations, one for each item, whose trees have size `n` together. -/
def sequences (items : List Ref) (n : Nat) : Set (List Derivation) :=
  {ds | List.Forall₂ g.Derives items ds ∧ Derivation.sizes mode ds = n}

/-- The same for a first item and others, when the first tree has a size greater than `i`. -/
def splits (head : Ref) (others : List Ref) (n i : Nat) : Set (Derivation × List Derivation) :=
  {p | g.Derives head p.1 ∧ List.Forall₂ g.Derives others p.2 ∧
    p.1.size mode + Derivation.sizes mode p.2 = n ∧ i < p.1.size mode}

/-- The derivations of the members of a union, each with the place of its member. -/
def choices (items : List Ref) (n : Nat) : Set (Nat × Derivation) :=
  {p | ∃ r, items[p.1]? = some r ∧ p.2 ∈ g.derivations mode r n}

variable {g mode} {s : String} {n : Nat}

/-! ### Derivations of one size, by what the reference stands for -/

/-- Nothing has size zero. -/
theorem derivations_zero (r : Ref) : g.derivations mode r 0 = ∅ := by
  ext d
  refine ⟨fun ⟨_, size⟩ => ?_, fun h => h.elim⟩
  exact absurd size (d.size_pos mode).ne'

/-- A reference with a single derivation, which has size one. -/
theorem derivations_single {r : Ref} {only : Derivation} (size : only.size mode = 1)
    (derives : ∀ d, g.Derives r d ↔ d = only) :
    g.derivations mode r n = if n = 1 then {only} else ∅ := by
  ext d
  rw [derivations, Set.mem_ofPred_eq, derives]
  by_cases one : n = 1
  · rw [if_pos one, one]
    refine ⟨fun h => h.1, fun h => ?_⟩
    obtain rfl : d = only := h
    exact ⟨rfl, size⟩
  · rw [if_neg one]
    refine ⟨?_, fun h => h.elim⟩
    rintro ⟨rfl, size'⟩
    rw [size] at size'
    exact one size'.symm

/-- Equation lemma: a tag has one derivation, at size one. -/
theorem derivations_tag (tag : isTag s = true) :
    g.derivations mode (.name s) n = if n = 1 then {.leaf s} else ∅ :=
  derivations_single (Derivation.size_leaf mode s) fun _ => derives_tag tag

/-- Equation lemma: a name of a value has one derivation, at size one. -/
theorem derivations_value {t : String} (tag : ¬isTag s = true)
    (found : g.get? s = some (.value t)) :
    g.derivations mode (.name s) n = if n = 1 then {.leaf t} else ∅ :=
  derivations_single (Derivation.size_leaf mode t) fun _ => derives_value tag found

/-- Equation lemma: a name of the empty product has one derivation, at size one. -/
theorem derivations_unit (tag : ¬isTag s = true) (found : g.get? s = some (.product [])) :
    g.derivations mode (.name s) n = if n = 1 then {.node s []} else ∅ := by
  refine derivations_single (Derivation.size_unit mode s) fun d => ?_
  rw [derives_product tag found]
  constructor
  · rintro ⟨ds, below, rfl⟩
    cases below
    rfl
  · rintro rfl
    exact ⟨[], .nil, rfl⟩

/-- The size of a product is that of its items together and its own. -/
theorem derivations_product {items : List Ref} (tag : ¬isTag s = true)
    (found : g.get? s = some (.product items)) (inner : items ≠ []) (le : mode.offset ≤ n) :
    g.derivations mode (.name s) n =
      Derivation.node s '' g.sequences mode items (n - mode.offset) := by
  have size : ∀ ds, List.Forall₂ g.Derives items ds →
      (Derivation.node s ds).size mode = mode.offset + Derivation.sizes mode ds := by
    intro ds below
    refine Derivation.size_node mode fun none => inner ?_
    subst none
    exact List.forall₂_nil_right_iff.1 below
  ext d
  rw [derivations, Set.mem_ofPred_eq, derives_product tag found]
  constructor
  · rintro ⟨⟨ds, below, rfl⟩, e⟩
    rw [size ds below] at e
    exact ⟨ds, ⟨below, by omega⟩, rfl⟩
  · rintro ⟨ds, ⟨below, e⟩, rfl⟩
    refine ⟨⟨ds, below, rfl⟩, ?_⟩
    rw [size ds below, e]
    omega

/-- A choice costs nothing. -/
theorem derivations_union {items : List Ref} (tag : ¬isTag s = true)
    (found : g.get? s = some (.union items)) :
    g.derivations mode (.name s) n =
      (fun p : Nat × Derivation => Derivation.choice p.1 p.2) '' g.choices mode items n := by
  ext d
  rw [derivations, Set.mem_ofPred_eq, derives_union tag found]
  constructor
  · rintro ⟨⟨i, r, d', place, member, rfl⟩, size⟩
    rw [Derivation.size_choice] at size
    exact ⟨(i, d'), ⟨r, place, member, size⟩, rfl⟩
  · rintro ⟨⟨i, d'⟩, ⟨r, place, member, size⟩, rfl⟩
    refine ⟨⟨i, r, d', place, member, rfl⟩, ?_⟩
    rw [Derivation.size_choice]
    exact size

/-- Equation lemma: where there are no members nothing can be chosen. -/
theorem choices_nil : g.choices mode [] n = ∅ := by
  ext p
  refine ⟨?_, fun h => h.elim⟩
  rintro ⟨r, place, -⟩
  cases place

/-- The derivations of members are those of the first, and those of the rest at places one further
on. -/
theorem choices_cons (r : Ref) (rest : List Ref) :
    g.choices mode (r :: rest) n =
      Prod.mk 0 '' g.derivations mode r n ∪
        Prod.map Nat.succ id '' g.choices mode rest n := by
  ext ⟨i, d⟩
  cases i with
  | zero => simp [choices]
  | succ i => simp [choices]

/-- A sequence for one item is a derivation of it. -/
theorem sequences_single (r : Ref) :
    g.sequences mode [r] n = (fun d => [d]) '' g.derivations mode r n := by
  ext ds
  constructor
  · rintro ⟨below, size⟩
    obtain ⟨d, _, first, none, rfl⟩ := List.forall₂_cons_left_iff.1 below
    obtain rfl := List.forall₂_nil_left_iff.1 none
    rw [Derivation.sizes_cons, Derivation.sizes_nil, Nat.add_zero] at size
    exact ⟨d, ⟨first, size⟩, rfl⟩
  · rintro ⟨d, ⟨first, size⟩, rfl⟩
    refine ⟨.cons first .nil, ?_⟩
    rw [Derivation.sizes_cons, Derivation.sizes_nil, Nat.add_zero]
    exact size

/-- A sequence for a first item and others is split into its first derivation and the rest. -/
theorem sequences_cons (head : Ref) (others : List Ref) :
    g.sequences mode (head :: others) n =
      (fun p : Derivation × List Derivation => p.1 :: p.2) '' g.splits mode head others n 0 := by
  ext ds
  constructor
  · rintro ⟨below, size⟩
    obtain ⟨d, ds', first, tail, rfl⟩ := List.forall₂_cons_left_iff.1 below
    rw [Derivation.sizes_cons] at size
    exact ⟨(d, ds'), ⟨first, tail, size, d.size_pos mode⟩, rfl⟩
  · rintro ⟨⟨d, ds'⟩, ⟨first, tail, size, -⟩, rfl⟩
    refine ⟨.cons first tail, ?_⟩
    rw [Derivation.sizes_cons]
    exact size

/-- Sequences are at least as large as they are long. -/
theorem sequences_short {items : List Ref} (short : n < items.length) :
    g.sequences mode items n = ∅ := by
  ext ds
  refine ⟨?_, fun h => h.elim⟩
  rintro ⟨below, size⟩
  have length := below.length_eq
  have le := Derivation.length_le_sizes mode ds
  omega

/-- The first tree has size `i + 1`, or a greater one. -/
theorem splits_fits (head : Ref) (others : List Ref) {i : Nat} (fits : i + 1 ≤ n) :
    g.splits mode head others n i =
      g.derivations mode head (i + 1) ×ˢ g.sequences mode others (n - (i + 1)) ∪
        g.splits mode head others n (i + 1) := by
  ext ⟨d, ds⟩
  constructor
  · rintro ⟨first, tail, size, above⟩
    by_cases here : d.size mode = i + 1
    · exact Or.inl ⟨⟨first, here⟩, tail, show Derivation.sizes mode ds = _ by
        simp only at size; omega⟩
    · exact Or.inr ⟨first, tail, size, by simp only at above ⊢; omega⟩
  · rintro (⟨⟨first, here⟩, tail, size⟩ | ⟨first, tail, size, above⟩)
    · simp only at first here tail size
      exact ⟨first, tail, by simp only; omega, by simp only; omega⟩
    · exact ⟨first, tail, size, by simp only at above ⊢; omega⟩

/-- There is nothing to split where the others do not fit behind the first. -/
theorem splits_stop (head : Ref) (others : List Ref) {i : Nat}
    (stop : ¬i + 1 + others.length ≤ n) : g.splits mode head others n i = ∅ := by
  ext ⟨d, ds⟩
  refine ⟨?_, fun h => h.elim⟩
  rintro ⟨first, tail, size, above⟩
  simp only at tail size above
  have length := tail.length_eq
  have le := Derivation.length_le_sizes mode ds
  omega

end Grammar

/-! ### Trees without empty places -/

mutual

/-- A tree as a sample. -/
def Tree.sample : Tree → Sample
  | leaf tag => .leaf tag
  | node name children => .node name (Tree.samples children)

/-- Several trees as samples. -/
def Tree.samples : List Tree → List Sample
  | [] => []
  | t :: ts => t.sample :: Tree.samples ts

end

mutual

/-- No place of a tree is empty. -/
@[simp] theorem Tree.tree?_sample : (t : Tree) → t.sample.tree? = some t
  | leaf tag => by rw [Tree.sample, Sample.tree?]
  | node name children => by
    rw [Tree.sample, Sample.tree?, Tree.trees?_samples children]

/-- Trees that are taken as samples come back. -/
@[simp] theorem Tree.trees?_samples : (ts : List Tree) → Sample.trees? (Tree.samples ts) = some ts
  | [] => by rw [Tree.samples, Sample.trees?]
  | t :: ts => by
    rw [Tree.samples, Sample.trees?, Tree.tree?_sample t, Tree.trees?_samples ts]

end

/-- Two trees are two samples. -/
theorem Tree.sample_injective : Function.Injective Tree.sample := by
  intro t t' h
  have := congrArg Sample.tree? h
  rw [Tree.tree?_sample, Tree.tree?_sample] at this
  exact Option.some.inj this

end TreeGrammar
