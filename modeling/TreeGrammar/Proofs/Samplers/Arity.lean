import TreeGrammar.Proofs.Samplers.Counting

/-!
# Counts at uniform arity

Where every product has no item or `k` items, the size of a tree tells how many inner nodes it has:
an inner node stands in the place of a leaf and brings `k` leaves, so it adds `k` to the size if it
counts itself, and `k - 1` if it does not. The derivations with a given number of inner nodes are
thus those of one size in either way to count, and there are none of the sizes between.

* `Tree.inner`: the number of inner nodes of a tree.
* `Grammar.UniformArity`: every product has no item, or `k` items.
* `Grammar.UniformArity.size_eq`: the size of a derivation by its number of inner nodes.
* `Sampler.Sound.count_uniform`: what a sampler counts, in either way.
* `count_nodes_eq_count_leaves`: the counts in both ways agree.
-/

namespace TreeGrammar

/-! ### Inner nodes -/

namespace Tree

mutual

/-- The number of inner nodes of a tree, which are its nodes with children. -/
def inner : Tree → Nat
  | leaf _ => 0
  | node _ [] => 0
  | node _ (c :: cs) => 1 + (c.inner + inners cs)

/-- The number of inner nodes of several trees together. -/
def inners : List Tree → Nat
  | [] => 0
  | c :: cs => c.inner + inners cs

end

/-- Equation lemma: a node with children is an inner node, and its children have theirs. -/
theorem inner_node {name : String} {cs : List Tree} (some : cs ≠ []) :
    (node name cs).inner = 1 + inners cs := by
  cases cs with
  | nil => exact absurd rfl some
  | cons c cs => rw [inner, inners]

end Tree

/-- What a tree gains in size when one of its leaves makes room for a node with `k` leaves. -/
def Accounting.gain (mode : Accounting) (k : Nat) : Nat :=
  k - 1 + mode.offset

namespace Accounting

variable {k : Nat} (two : 2 ≤ k)
include two

/-- A tree grows when a leaf makes room for a node. -/
theorem gain_pos (mode : Accounting) : 0 < mode.gain k := by
  unfold gain
  omega

/-- Where inner nodes count a leaf becomes an inner node with `k` leaves, a gain of `k`. -/
theorem gain_nodes : (nodes.gain k : Int) = k := by
  simp only [gain, offset]
  omega

/-- Where inner nodes do not count one leaf makes room for `k`. -/
theorem gain_leaves : (leaves.gain k : Int) = k - 1 := by
  simp only [gain, offset]
  omega

end Accounting

/-! ### Uniform arity -/

/-- The number of items of a product. -/
def Ty.arity? : Ty → Option Nat
  | product items => some items.length
  | _ => none

namespace Grammar

/-- Every product has no item, or `k` items. -/
def UniformArity (g : Grammar) (k : Nat) : Prop :=
  ∀ p ∈ g.types, ∀ n ∈ p.2.arity?, n = 0 ∨ n = k

instance (g : Grammar) (k : Nat) : Decidable (g.UniformArity k) :=
  inferInstanceAs (Decidable (∀ p ∈ g.types, ∀ n ∈ p.2.arity?, n = 0 ∨ n = k))

variable {g : Grammar} {mode : Accounting} {k : Nat} {r : Ref}

namespace UniformArity

/-- A product has no item, or `k` items. -/
theorem length_cases (uniform : g.UniformArity k) {name : String} {items : List Ref}
    (found : g.get? name = some (.product items)) : items.length = 0 ∨ items.length = k :=
  uniform _ (mem_of_lookup found) _ rfl

mutual

/-- A leaf has size one, and each inner node adds its gain. -/
theorem size_eq (uniform : g.UniformArity k) (two : 2 ≤ k) : (d : Derivation) → ∀ {r : Ref},
    g.Derives r d → d.size mode = 1 + d.tree.inner * mode.gain k
  | .leaf tag, _, _ => by
    rw [Derivation.size_leaf, Derivation.tree, Tree.inner, Nat.zero_mul]
  | .node name [], _, _ => by
    rw [Derivation.size_unit, Derivation.tree, Derivation.trees, Tree.inner, Nat.zero_mul]
  | .node name (d :: ds), _, h => by
    cases h with
    | product _ found below =>
      have length : (d :: ds).length = k := by
        refine below.length_eq ▸ (uniform.length_cases found).resolve_left ?_
        rw [below.length_eq]
        exact Nat.succ_ne_zero _
      have sizes := sizes_eq uniform two (d :: ds) below
      have some : Derivation.trees (d :: ds) ≠ [] := by
        rw [Derivation.trees]
        exact List.cons_ne_nil _ _
      rw [Derivation.size_node mode (List.cons_ne_nil _ _), sizes, length, Derivation.tree,
        Tree.inner_node some, Nat.add_mul, Nat.one_mul]
      unfold Accounting.gain
      omega
  | .choice place d, _, h => by
    cases h with
    | union _ _ _ member =>
      rw [Derivation.size_choice, Derivation.tree]
      exact size_eq uniform two d member

/-- Several trees have one leaf each and what their inner nodes gain. The induction is on the
derivations. -/
theorem sizes_eq (uniform : g.UniformArity k) (two : 2 ≤ k) : (ds : List Derivation) →
    ∀ {items : List Ref}, List.Forall₂ g.Derives items ds →
    Derivation.sizes mode ds = ds.length + Tree.inners (Derivation.trees ds) * mode.gain k
  | [], _, _ => by
    rw [Derivation.sizes_nil, Derivation.trees, Tree.inners, Nat.zero_mul, List.length_nil]
  | d :: ds, _, h => by
    cases h with
    | cons first others =>
      rw [Derivation.sizes_cons, size_eq uniform two d first, sizes_eq uniform two ds others,
        Derivation.trees, Tree.inners, List.length_cons, Nat.add_mul]
      omega

end

variable (uniform : g.UniformArity k) (two : 2 ≤ k)
include uniform two

/-- The derivations with `j` inner nodes are those of one size. -/
theorem derivations_eq (j : Nat) :
    g.derivations mode r (1 + j * mode.gain k) = {d | g.Derives r d ∧ d.tree.inner = j} := by
  ext d
  constructor
  · rintro ⟨derives, size⟩
    rw [uniform.size_eq two d derives] at size
    exact ⟨derives, Nat.eq_of_mul_eq_mul_right (Accounting.gain_pos two mode)
      (Nat.add_left_cancel size)⟩
  · rintro ⟨derives, rfl⟩
    exact ⟨derives, uniform.size_eq two d derives⟩

/-- There are no derivations of other sizes. -/
theorem derivations_eq_empty {n : Nat} (other : ∀ j, n ≠ 1 + j * mode.gain k) :
    g.derivations mode r n = ∅ := by
  rw [Set.eq_empty_iff_forall_notMem]
  rintro d ⟨derives, size⟩
  rw [uniform.size_eq two d derives] at size
  exact other _ size.symm

end UniformArity

end Grammar

/-! ### Counting -/

section

variable {g : Grammar} {mode : Accounting} {k : Nat} {s : Sampler} {name : String}

/-- A sampler counts the derivations by their inner nodes, and nothing at the sizes between. -/
theorem Sampler.Sound.count_uniform (sound : s.Sound g mode) (normal : g.Normal) (two : 2 ≤ k)
    (uniform : g.UniformArity k) (known : isTag name = true ∨ name ∈ g.names) :
    (∀ j : ℕ, ∃ v : ℕ, (s.count name (1 + j * mode.gain k)).1 = .ok (v : Int) ∧
      Counts v {d | g.Derives (.name name) d ∧ d.tree.inner = j}) ∧
    ∀ n : Int, (∀ j : ℕ, n - 1 ≠ j * mode.gain k) → (s.count name n).1 = .ok 0 := by
  constructor
  · intro j
    obtain ⟨v, answer, -, counts⟩ := sound.exists_counts normal known (1 + j * mode.gain k)
    have size : (1 + j * mode.gain k : Int).toNat = 1 + j * mode.gain k := by
      rw [← Int.natCast_mul, ← Int.natCast_one, ← Int.natCast_add, Int.toNat_natCast]
    rw [size, uniform.derivations_eq two] at counts
    exact ⟨v, answer, counts⟩
  · intro n other
    obtain ⟨v, answer, -, counts⟩ := sound.exists_counts normal known n
    have none : g.derivations mode (.name name) n.toNat = ∅ := by
      refine uniform.derivations_eq_empty two fun j size => other j ?_
      have cast : (n.toNat : Int) = 1 + j * mode.gain k := by
        rw [size, Int.natCast_add, Int.natCast_mul, Int.natCast_one]
      omega
    rw [answer, counts.eq_zero_iff.2 none]

end

/-- Over a grammar that normalisation returned, in which every product has no item or `k` items, two
samplers that count size in different ways agree, whatever they were asked before: at `1 + j * k`
with inner nodes and at `1 + j * (k - 1)` without they both count the derivations that have `j`
inner nodes, and at other sizes they count none. -/
theorem count_nodes_eq_count_leaves {ds : List Definition} {events : List Event} {g : Grammar}
    (built : Grammar.ofDefinitions? ds = (events, .ok g)) {k : ℕ} (two : 2 ≤ k)
    (uniform : g.UniformArity k) {s s' : Sampler} (nodes : s.Reachable g .nodes)
    (leaves : s'.Reachable g .leaves) {name : String}
    (known : isTag name = true ∨ name ∈ g.names) :
    (∀ j : ℕ, ∃ v : ℕ, (s.count name (1 + j * k)).1 = .ok (v : Int) ∧
      (s'.count name (1 + j * (k - 1))).1 = .ok (v : Int) ∧
      {d | g.Derives (.name name) d ∧ d.tree.inner = j}.encard = v) ∧
    (∀ n : Int, (∀ j : ℕ, n - 1 ≠ j * k) → (s.count name n).1 = .ok 0) ∧
    ∀ n : Int, (∀ j : ℕ, n - 1 ≠ j * (k - 1)) → (s'.count name n).1 = .ok 0 := by
  have normal := Grammar.ofDefinitions?_normal built
  obtain ⟨counted, between⟩ := nodes.sound.count_uniform normal two uniform known
  obtain ⟨counted', between'⟩ := leaves.sound.count_uniform normal two uniform known
  rw [Accounting.gain_nodes two] at counted between
  rw [Accounting.gain_leaves two] at counted' between'
  refine ⟨fun j => ?_, between, between'⟩
  obtain ⟨v, answer, counts⟩ := counted j
  obtain ⟨w, answer', counts'⟩ := counted' j
  rw [← counts.unique counts'] at answer'
  refine ⟨v, answer, answer', ?_⟩
  rw [← counts.finite.cast_ncard_eq, Int.natCast_inj.1 counts.card]

/-- There are two binary trees with two inner nodes, which have three leaves and five nodes in all,
and none with four nodes. -/
theorem count_nodes_eq_count_leaves_binary :
    ((Sampler.ofGrammar binary .nodes (.ofState 0)).count "B" 5).1 = .ok 2 ∧
    {d | binary.Derives (.name "B") d ∧ d.tree.inner = 2}.encard = 2 ∧
    ((Sampler.ofGrammar binary .nodes (.ofState 0)).count "B" 4).1 = .ok 0 := by
  have bound : "B" ∈ binary.names := by decide
  obtain ⟨agree, between, -⟩ := count_nodes_eq_count_leaves binary_built le_rfl (by decide)
    (.fresh (.ofState 0)) (.fresh (.ofState 0)) (Or.inr bound)
  obtain ⟨v, answer, answer', counts⟩ := agree 2
  have two : ((Sampler.ofGrammar binary .leaves (.ofState 0)).count "B" 3).1 = .ok 2 := by
    rw [(Sampler.sound_ofGrammar (.ofState 0)).count]
    cbv
  rw [show (1 + ((2 : ℕ) : Int) * ((2 : ℕ) - 1)) = 3 by rfl, two, Except.ok.injEq] at answer'
  obtain rfl : 2 = v := Int.natCast_inj.1 answer'
  exact ⟨answer, counts, between 4 fun j => by omega⟩

end TreeGrammar
