import TreeGrammar.Proofs.Counting.Derivation
import TreeGrammar.Proofs.Counting.Plain

/-!
# Counts are exact

Where the recurrence gives a count at all, the count is the number of derivations. Each way in which
a count is found is matched by what the derivations of that size consist of: the members of a union
contribute side by side, the sizes of a first item divide the sequences for several items, and for
one such size the two counts multiply.

* `Counts`: a whole number is the number of elements of a finite set.
* `Counts.choices_cons`, `Counts.splits_fits`, `Counts.derivations_union`,
  `Counts.derivations_product`: how counts of derivations consist of others.
* `plain_counts`: every count of the plain recurrence, by induction over the recurrence.
-/

namespace TreeGrammar

/-- The set is finite, and has `v` elements. -/
structure Counts {α : Type} (v : Int) (S : Set α) : Prop where
  finite : S.Finite
  card : (S.ncard : Int) = v

namespace Counts

variable {α β : Type} {S T : Set α} {v w : Int}

/-- A natural number that counts a set is its cardinality. -/
theorem encard {k : ℕ} (h : Counts k S) : S.encard = k := by
  rw [← h.finite.cast_ncard_eq, Int.natCast_inj.1 h.card]

/-- There is nothing in the empty set. -/
theorem empty : Counts 0 (∅ : Set α) :=
  ⟨Set.finite_empty, by rw [Set.ncard_empty]; rfl⟩

/-- A single element is one. -/
theorem singleton (a : α) : Counts 1 ({a} : Set α) :=
  ⟨Set.finite_singleton a, by rw [Set.ncard_singleton]; rfl⟩

/-- What may not be met twice is counted side by side. -/
theorem union (hS : Counts v S) (hT : Counts w T) (apart : ∀ ⦃a⦄, a ∈ S → a ∉ T) :
    Counts (v + w) (S ∪ T) := by
  refine ⟨hS.finite.union hT.finite, ?_⟩
  rw [Set.ncard_union_eq (Set.disjoint_left.2 apart) hS.finite hT.finite, ← hS.card, ← hT.card]
  exact Int.natCast_add _ _

/-- Independent parts multiply. -/
theorem prod {U : Set β} (hS : Counts v S) (hU : Counts w U) : Counts (v * w) (S ×ˢ U) := by
  refine ⟨hS.finite.prod hU.finite, ?_⟩
  rw [Set.ncard_prod, ← hS.card, ← hU.card]
  exact Int.natCast_mul _ _

/-- There are as many images as elements, if no two elements have one image. -/
theorem image {f : α → β} (hS : Counts v S) (injective : Function.Injective f) :
    Counts v (f '' S) := by
  refine ⟨hS.finite.image f, ?_⟩
  rw [Set.ncard_image_of_injective S injective, hS.card]

/-- A set has one number of elements. -/
theorem unique (hS : Counts v S) (hS' : Counts w S) : v = w :=
  hS.card.symm.trans hS'.card

/-- The number of elements is not negative. -/
theorem nonneg (hS : Counts v S) : 0 ≤ v := by
  rw [← hS.card]
  exact Int.natCast_nonneg _

/-- A count is zero exactly if there is nothing to count. -/
theorem eq_zero_iff (hS : Counts v S) : v = 0 ↔ S = ∅ := by
  rw [← hS.card, Int.natCast_eq_zero, Set.ncard_eq_zero hS.finite]

/-- A set with an element has a positive number of them. -/
theorem pos_of_mem (hS : Counts v S) {a : α} (h : a ∈ S) : 0 < v := by
  have := hS.nonneg
  have nonzero : v ≠ 0 := fun zero => by
    rw [hS.eq_zero_iff.1 zero] at h
    exact h
  omega

/-- What there is once at size one, and not at other sizes, is counted as a leaf is. -/
theorem one (n : Nat) (a : α) :
    Counts (TreeGrammar.one n) (if n = 1 then {a} else (∅ : Set α)) := by
  rw [TreeGrammar.one]
  split
  · exact singleton a
  · exact empty

end Counts

section shapes

variable {g : Grammar} {mode : Accounting} {n : Nat} {v w x : Int}

/-- The members of a union are counted side by side. -/
theorem Counts.choices_cons {r : Ref} {rest : List Ref} (first : Counts v (g.derivations mode r n))
    (others : Counts w (g.choices mode rest n)) :
    Counts (v + w) (g.choices mode (r :: rest) n) := by
  rw [Grammar.choices_cons]
  refine (first.image (Prod.mk_right_injective 0)).union
    (others.image (Nat.succ_injective.prodMap Function.injective_id)) ?_
  rintro _ ⟨d, _, rfl⟩ ⟨⟨i, d'⟩, _, e⟩
  cases e

/-- For one size of the first tree the counts multiply. -/
theorem Counts.splits_fits {head : Ref} {others : List Ref} {i : Nat} (fits : i + 1 ≤ n)
    (first : Counts v (g.derivations mode head (i + 1)))
    (tail : Counts w (g.sequences mode others (n - (i + 1))))
    (greater : Counts x (g.splits mode head others n (i + 1))) :
    Counts (v * w + x) (g.splits mode head others n i) := by
  rw [Grammar.splits_fits _ _ fits]
  refine (first.prod tail).union greater ?_
  -- a first tree of size `i + 1` has no greater size
  rintro ⟨d, ds⟩ ⟨⟨_, here⟩, _⟩ ⟨_, _, _, above⟩
  simp only at here above
  omega

/-- What counts the ways to split counts the sequences. -/
theorem Counts.sequences_cons {head : Ref} {others : List Ref}
    (splits : Counts v (g.splits mode head others n 0)) :
    Counts v (g.sequences mode (head :: others) n) := by
  rw [Grammar.sequences_cons]
  exact splits.image fun p q e => Prod.ext (List.cons.inj e).1 (List.cons.inj e).2

/-- What counts the derivations of one item counts the sequences for it alone. -/
theorem Counts.sequences_single {r : Ref} (h : Counts v (g.derivations mode r n)) :
    Counts v (g.sequences mode [r] n) := by
  rw [Grammar.sequences_single]
  exact h.image List.singleton_injective

/-- What counts the choices of a member counts the derivations of the union. -/
theorem Counts.derivations_union {s : String} {items : List Ref} (tag : ¬isTag s = true)
    (found : g.get? s = some (.union items)) (choices : Counts v (g.choices mode items n)) :
    Counts v (g.derivations mode (.name s) n) := by
  rw [Grammar.derivations_union tag found]
  exact choices.image Derivation.choice_injective

/-- What counts the sequences for the items counts the derivations of the product, at a size that is
one more where inner nodes count. -/
theorem Counts.derivations_product {s : String} {items : List Ref} (tag : ¬isTag s = true)
    (found : g.get? s = some (.product items)) (inner : items ≠ []) (le : mode.offset ≤ n)
    (sequences : Counts v (g.sequences mode items (n - mode.offset))) :
    Counts v (g.derivations mode (.name s) n) := by
  rw [Grammar.derivations_product tag found inner le]
  exact sequences.image (Derivation.node_injective s)

end shapes

section plain

variable (g : Grammar) (mode : Accounting)

/-- A leaf has a single derivation, of size one. -/
theorem counts_leaf {s : String} {t : Ty} (tag : ¬isTag s = true) (found : g.get? s = some t)
    (leaf : t.isLeaf = true) (n : Nat) : Counts (one n) (g.derivations mode (.name s) n) := by
  obtain ⟨tag', rfl⟩ | rfl := Ty.isLeaf_iff.1 leaf
  · rw [Grammar.derivations_value tag found]
    exact Counts.one n _
  · rw [Grammar.derivations_unit tag found]
    exact Counts.one n _

/-- Whatever is being counted: where the recurrence gives a count, it is the number of
derivations. -/
theorem plain_counts :
    (∀ active r n, ∀ v, (g.plain mode).countRef active r n = .ok v →
      Counts v (g.derivations mode r n)) ∧
    (∀ active t n, ¬t.isLeaf = true → ∀ v, (g.plain mode).countBody active t n = .ok v →
      ∀ s, ¬isTag s = true → g.get? s = some t → Counts v (g.derivations mode (.name s) n)) ∧
    (∀ active items n, items ≠ [] → ∀ v, (g.plain mode).countSequences active items n = .ok v →
      Counts v (g.sequences mode items n)) ∧
    (∀ head second rest n i, ∀ v, (g.plain mode).countSplits head second rest n i = .ok v →
      Counts v (g.splits mode head (second :: rest) n i)) ∧
    (∀ active items n, ∀ v, (g.plain mode).countMembers active items n = .ok v →
      Counts v (g.choices mode items n)) := by
  apply Recurrence.induction (g.plain mode)
  case zero =>
    intro active r v count
    rw [Recurrence.countRef_zero] at count
    cases count
    rw [Grammar.derivations_zero]
    exact Counts.empty
  case nameless =>
    intro active r n hn nameless v count
    rw [Recurrence.countRef_nameless _ nameless hn] at count
    cases count
  case tag =>
    intro active s n hn tag v count
    rw [Recurrence.countRef_tag _ tag hn] at count
    cases count
    rw [Grammar.derivations_tag tag]
    exact Counts.one n _
  case unbound =>
    intro active s n hn tag found v count
    rw [Recurrence.countRef_unbound _ tag found hn] at count
    cases count
  case leaf =>
    intro active s n rule hn tag found leaf v count
    rw [Recurrence.countRef_leaf _ tag found leaf hn] at count
    cases count
    exact counts_leaf g mode tag (g.get?_of_lookup_rules found) leaf n
  case met =>
    intro active s n rule hn tag found leaf met v count
    rw [Recurrence.countRef_active _ tag found leaf met hn] at count
    cases count
  case new =>
    intro active s n rule hn tag found leaf new ih v count
    rw [Recurrence.countRef_new _ tag found leaf new hn] at count
    exact ih leaf v count s tag (g.get?_of_lookup_rules found)
  case value =>
    intro active t n leaf
    exact absurd rfl leaf
  case union =>
    intro active items n ih _ v count s tag found
    rw [Recurrence.countBody_union] at count
    exact .derivations_union tag found (ih v count)
  case free =>
    intro active items n leaves ih compound v count s tag found
    obtain rfl : mode = .leaves := leaves
    have inner : items ≠ [] := by rintro rfl; exact compound rfl
    rw [Recurrence.countBody_product_leaves _ items rfl] at count
    exact .derivations_product tag found inner (Nat.zero_le n) (ih inner v count)
  case costly_zero =>
    intro active items nodes _ v count s tag found
    rw [Recurrence.countBody_product_nodes_zero _ items nodes] at count
    cases count
    rw [Grammar.derivations_zero]
    exact Counts.empty
  case costly =>
    intro active items n nodes hn ih compound v count s tag found
    obtain rfl : mode = .nodes := nodes
    have inner : items ≠ [] := by rintro rfl; exact compound rfl
    rw [Recurrence.countBody_product_nodes _ items rfl hn] at count
    exact .derivations_product tag found inner (Nat.pos_of_ne_zero hn) (ih inner v count)
  case empty =>
    intro active n inner
    exact absurd rfl inner
  case single =>
    intro active r n ih _ v count
    rw [Recurrence.countSequences_single] at count
    exact .sequences_single (ih v count)
  case short =>
    intro active head second rest n short _ v count
    rw [Recurrence.countSequences_short _ _ _ _ short] at count
    cases count
    have few : n < (head :: second :: rest).length := short
    rw [Grammar.sequences_short few]
    exact Counts.empty
  case long =>
    intro active head second rest n long ih _ v count
    rw [Recurrence.countSequences_long _ _ _ _ long] at count
    exact .sequences_cons (ih v count)
  case fits =>
    intro head second rest n i fits ih₁ ih₂ ih₃ v count
    obtain ⟨a, b, others, ha, hb, ho, rfl⟩ := (plain_countSplits_fits g mode fits).1 count
    exact .splits_fits (by omega) (ih₁ a ha) (ih₂ (List.cons_ne_nil _ _) b hb) (ih₃ others ho)
  case stop =>
    intro head second rest n i stop v count
    rw [Recurrence.countSplits_stop _ _ _ _ stop] at count
    cases count
    rw [Grammar.splits_stop _ _ stop]
    exact Counts.empty
  case none =>
    intro active n v count
    rw [Recurrence.countMembers_nil] at count
    cases count
    rw [Grammar.choices_nil]
    exact Counts.empty
  case some =>
    intro active r rest n ih₁ ih₂ v count
    obtain ⟨a, b, ha, hb, rfl⟩ := (plain_countMembers_cons g mode).1 count
    exact .choices_cons (ih₁ a ha) (ih₂ b hb)

end plain

end TreeGrammar
