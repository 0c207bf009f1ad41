import TreeGrammar.Proofs.Bindings.WellFormed
import TreeGrammar.Proofs.Samplers.Growing

/-!
# Counting distinct trees

A tree records neither the members taken of unions nor the names of leaves: a tag and all names that
are bound to a value with that tag end in the same leaf. In a grammar in which no member of a union
is itself a union, two derivations of a name end in one tree for this reason only. A node tells the
name of its product, so any two other members of a union have no tree in common.

* `Grammar.leafTag?`: the tag of the leaf that a name or a tag stands for.
* `Grammar.TagsApart`: no union has two members that stand for one leaf.
* `Grammar.Unambiguous`, `Grammar.unambiguous_iff_tagsApart`: derivations are told apart by their
  trees exactly if tags are apart.
* `count_eq_trees_iff_tagsApart`: over the grammars that normalisation returns, counts are of
  distinct trees, and samples uniform among them, exactly if tags are apart.
* `sameLeaves`: definitions that are accepted although they are not.
-/

namespace TreeGrammar

namespace Grammar

/-- The tag of the leaf that a name or a tag stands for. -/
def leafTag? (g : Grammar) : Ref → Option String
  | .name s =>
    if isTag s then some s
    else
      match g.get? s with
      | some (.value tag) => some tag
      | _ => none
  | _ => none

/-- The members of the union that a name is bound to. -/
def members (g : Grammar) (name : String) : List Ref :=
  match g.get? name with
  | some (.union items) => items
  | _ => []

/-- No union has two members that stand for one leaf. -/
def TagsApart (g : Grammar) : Prop :=
  ∀ name ∈ g.names, ((g.members name).filterMap g.leafTag?).Nodup

instance (g : Grammar) : Decidable g.TagsApart :=
  inferInstanceAs (Decidable (∀ name ∈ g.names, ((g.members name).filterMap g.leafTag?).Nodup))

/-- No two derivations of a reference end in one tree. -/
def Unambiguous (g : Grammar) : Prop :=
  ∀ r d d', g.Derives r d → g.Derives r d' → d.tree = d'.tree → d = d'

/-- Unions repeat no member, and have no unions among them. -/
structure Flat (g : Grammar) : Prop where
  distinct : ∀ name items, g.get? name = some (.union items) → items.Nodup
  apart : ∀ name items, g.get? name = some (.union items) → ∀ x, .name x ∈ items →
    ¬isTag x = true → ∀ members, g.get? x ≠ some (.union members)

variable {g : Grammar} {name s tag : String} {items : List Ref}

/-- The members of a name that is bound to a union are those of the union. -/
theorem members_eq (found : g.get? name = some (.union items)) : g.members name = items := by
  rw [members, found]

/-- A tag stands for its own leaf. -/
theorem leafTag?_tag (h : isTag s = true) : g.leafTag? (.name s) = some s := by
  rw [leafTag?, if_pos h]

/-- A name of a value stands for the value's leaf. -/
theorem leafTag?_value (h : ¬isTag s = true) (found : g.get? s = some (.value tag)) :
    g.leafTag? (.name s) = some tag := by
  rw [leafTag?, if_neg h, found]

/-- Whatever stands for a leaf derives it. -/
theorem derives_of_leafTag? {r : Ref} (h : g.leafTag? r = some tag) : g.Derives r (.leaf tag) := by
  cases r with
  | name s =>
    rw [leafTag?] at h
    split at h
    · next tagged =>
      cases h
      exact .tag tagged
    · next name =>
      split at h
      · next found =>
        cases h
        exact .value name found
      · cases h
  | inline t => cases h
  | deferred b => cases h

/-- What is no union derives the leaf that it stands for, or nodes of its own name. -/
theorem leaf_or_node_of_derives {d : Derivation}
    (single : ¬isTag s = true → ∀ members, g.get? s ≠ some (.union members))
    (h : g.Derives (.name s) d) :
    (∃ tag, g.leafTag? (.name s) = some tag ∧ d = .leaf tag) ∨ ∃ ds, d = .node s ds := by
  cases h with
  | tag tagged => exact Or.inl ⟨s, leafTag?_tag tagged, rfl⟩
  | value name found => exact Or.inl ⟨_, leafTag?_value name found, rfl⟩
  | product => exact Or.inr ⟨_, rfl⟩
  | union name found => exact absurd found (single name _)

/-- No text is met twice exactly if it is met at one place only. -/
theorem nodup_filterMap_iff {α β : Type} {f : α → Option β} {l : List α} :
    (l.filterMap f).Nodup ↔ ∀ (i j : Nat) a a' b, l[i]? = some a → l[j]? = some a' → f a = some b →
      f a' = some b → i = j := by
  rw [List.Nodup, List.pairwise_filterMap, List.pairwise_iff_getElem]
  constructor
  · intro apart i j a a' b hi hj ha ha'
    obtain ⟨hi', rfl⟩ := List.getElem?_eq_some_iff.1 hi
    obtain ⟨hj', rfl⟩ := List.getElem?_eq_some_iff.1 hj
    rcases Nat.lt_trichotomy i j with less | same | greater
    · exact absurd rfl (apart i j hi' hj' less b ha b ha')
    · exact same
    · exact absurd rfl (apart j i hj' hi' greater b ha' b ha)
  · rintro once i j hi hj less b ha b' ha' rfl
    have same := once i j _ _ b (List.getElem?_eq_getElem hi) (List.getElem?_eq_getElem hj) ha ha'
    omega

/-- Where tags are apart each leaf is that of one place of a union at most. -/
theorem TagsApart.place_eq (apart : g.TagsApart) (found : g.get? name = some (.union items))
    {i j : Nat} {r r' : Ref} (hi : items[i]? = some r) (hj : items[j]? = some r')
    (hr : g.leafTag? r = some tag) (hr' : g.leafTag? r' = some tag) : i = j := by
  have once := apart name (mem_names_of_get? found)
  rw [members_eq found, nodup_filterMap_iff] at once
  exact once i j r r' tag hi hj hr hr'

/-- Where tags are apart members at different places of a union have no tree in common. -/
theorem Flat.place_eq (flat : g.Flat) (apart : g.TagsApart)
    (found : g.get? name = some (.union items)) {i j : Nat} {r r' : Ref} {d d' : Derivation}
    (hi : items[i]? = some r) (hj : items[j]? = some r') (h : g.Derives r d) (h' : g.Derives r' d')
    (same : d.tree = d'.tree) : i = j := by
  have member : ∀ {k : Nat} {r : Ref} {d : Derivation}, items[k]? = some r → g.Derives r d →
      (∃ tag, g.leafTag? r = some tag ∧ d = .leaf tag) ∨ ∃ x ds, r = .name x ∧ d = .node x ds := by
    intro k r d place derives
    cases r with
    | name x =>
      have single := flat.apart name items found x (List.mem_of_getElem? place)
      exact (leaf_or_node_of_derives single derives).imp_right fun ⟨ds, e⟩ => ⟨x, ds, rfl, e⟩
    | inline t => exact absurd derives (derives_nameless nofun)
    | deferred b => exact absurd derives (derives_nameless nofun)
  rcases member hi h with ⟨tag, hr, rfl⟩ | ⟨x, ds, rfl, rfl⟩
  · rcases member hj h' with ⟨tag', hr', rfl⟩ | ⟨y, ds', rfl, rfl⟩
    · simp only [Derivation.tree, Tree.leaf.injEq] at same
      subst same
      exact apart.place_eq found hi hj hr hr'
    · simp [Derivation.tree] at same
  · rcases member hj h' with ⟨tag', hr', rfl⟩ | ⟨y, ds', rfl, rfl⟩
    · simp [Derivation.tree] at same
    · simp only [Derivation.tree, Tree.node.injEq] at same
      obtain ⟨rfl, -⟩ := same
      obtain ⟨bound, -⟩ := List.getElem?_eq_some_iff.1 hi
      exact (List.getElem?_inj bound (flat.distinct name items found)).1 (hi.trans hj.symm)

/-- Sequences of derivations with the same trees are the same if each derivation in the first is
told apart by its tree. -/
theorem eq_of_trees_eq {ds ds' : List Derivation} (h : List.Forall₂ g.Derives items ds)
    (h' : List.Forall₂ g.Derives items ds') (same : Derivation.trees ds = Derivation.trees ds')
    (told : ∀ d ∈ ds, ∀ r d', g.Derives r d → g.Derives r d' → d.tree = d'.tree → d = d') :
    ds = ds' := by
  induction h generalizing ds' with
  | nil =>
    obtain rfl := List.forall₂_nil_left_iff.1 h'
    rfl
  | @cons r d rest ds hd _ ih =>
    obtain ⟨d', ds'', hd', rest', rfl⟩ := List.forall₂_cons_left_iff.1 h'
    simp only [Derivation.trees, List.cons.injEq] at same
    rw [told d List.mem_cons_self r d' hd hd' same.1,
      ih rest' same.2 fun d hd => told d (List.mem_cons_of_mem _ hd)]

/-- Where tags are apart, derivations are told apart by their trees. The induction is on the first
derivation. -/
theorem Flat.eq_of_tree_eq (flat : g.Flat) (apart : g.TagsApart) : (d : Derivation) →
    ∀ r d', g.Derives r d → g.Derives r d' → d.tree = d'.tree → d = d'
  | .leaf tag, r, d', h, h', same => by
    cases h with
    | tag tagged => exact ((derives_tag tagged).1 h').symm
    | value name found => exact ((derives_value name found).1 h').symm
  | .node name ds, r, d', h, h', same => by
    cases h with
    | product untagged found children =>
      obtain ⟨ds', children', rfl⟩ := (derives_product untagged found).1 h'
      simp only [Derivation.tree, Tree.node.injEq, true_and] at same
      rw [eq_of_trees_eq children children' same fun d member => flat.eq_of_tree_eq apart d]
  | .choice i d, r, d', h, h', same => by
    cases h with
    | union untagged found place member =>
      obtain ⟨j, r', d'', place', member', rfl⟩ := (derives_union untagged found).1 h'
      rw [Derivation.tree, Derivation.tree] at same
      obtain rfl := flat.place_eq apart found place place' member member' same
      rw [place] at place'
      obtain rfl := Option.some.inj place'
      rw [flat.eq_of_tree_eq apart d _ _ member member' same]

/-- Where tags are not apart there is a union with two members that stand for one leaf. -/
theorem exists_of_not_tagsApart (h : ¬g.TagsApart) :
    ∃ (name : String) (items : List Ref) (i j : Nat) (r r' : Ref) (tag : String),
      g.get? name = some (.union items) ∧ items[i]? = some r ∧ items[j]? = some r' ∧
      g.leafTag? r = some tag ∧ g.leafTag? r' = some tag ∧ i ≠ j := by
  simp only [TagsApart, nodup_filterMap_iff, not_forall] at h
  obtain ⟨name, -, i, j, r, r', tag, hi, hj, hr, hr', apart⟩ := h
  rcases found : g.get? name with _ | t | items | items
  · simp [members, found] at hi
  · simp [members, found] at hi
  · simp [members, found] at hi
  · rw [members_eq found] at hi hj
    exact ⟨name, items, i, j, r, r', tag, found, hi, hj, hr, hr', apart⟩

/-- Where tags are not apart some union has two derivations of one leaf. -/
theorem exists_two_derivations (names : ∀ s t, g.get? s = some t → ¬isTag s = true)
    (h : ¬g.TagsApart) : ∃ name ∈ g.names, ∃ tag i j, i ≠ j ∧
      g.Derives (.name name) (.choice i (.leaf tag)) ∧
      g.Derives (.name name) (.choice j (.leaf tag)) := by
  obtain ⟨name, items, i, j, r, r', tag, found, hi, hj, hr, hr', apart⟩ := exists_of_not_tagsApart h
  have untagged := names name _ found
  exact ⟨name, mem_names_of_get? found, tag, i, j, apart,
    .union untagged found hi (derives_of_leafTag? hr),
    .union untagged found hj (derives_of_leafTag? hr')⟩

/-- Derivations are told apart by their trees exactly if tags are apart: two members that stand for
one leaf are two derivations of it. -/
theorem unambiguous_iff_tagsApart (flat : g.Flat)
    (names : ∀ s t, g.get? s = some t → ¬isTag s = true) : g.Unambiguous ↔ g.TagsApart := by
  refine ⟨fun told => ?_, fun apart r d => flat.eq_of_tree_eq apart d r⟩
  by_contra h
  obtain ⟨name, -, tag, i, j, apart, first, second⟩ := exists_two_derivations names h
  have same := told _ _ _ first second (by simp only [Derivation.tree])
  exact apart (Derivation.choice.inj same).1

/-! ### Counting distinct trees -/

/-- The trees of a size that a name or a tag stands for. -/
def trees (g : Grammar) (mode : Accounting) (name : String) (n : Int) : Set Tree :=
  {t | (∃ d, g.Derives (.name name) d ∧ d.tree = t) ∧ (t.size mode : Int) = n}

/-- The trees of a size are those that derivations of the size end in. -/
theorem trees_eq_image (g : Grammar) (mode : Accounting) (name : String) (n : Int) :
    g.trees mode name n = Derivation.tree '' g.derivations mode (.name name) n.toNat := by
  rw [← derivations_toNat]
  ext t
  constructor
  · rintro ⟨⟨d, derives, rfl⟩, size⟩
    exact ⟨d, ⟨derives, size⟩, rfl⟩
  · rintro ⟨d, ⟨derives, size⟩, rfl⟩
    exact ⟨⟨d, derives, rfl⟩, size⟩

end Grammar

/-- A grammar that normalisation returns is flat. -/
theorem Stages.flat_ofBindings {ds : List Definition} {named flat : Bindings}
    (stages : Stages ds named flat) : (Grammar.ofBindings flat).Flat where
  distinct := fun _ _ found => (stages.flat_unions found).2.1
  apart := fun _ _ found x member _ => (stages.flat_unions found).2.2 x member

/-- A grammar that normalisation returns has different derivations with one tree exactly if some
union has two members that stand for one leaf. If no union has, every count is a number of distinct
trees, and each of them is grown with the same probability. If one has, the trees of size one of its
name are fewer than their count. -/
theorem count_eq_trees_iff_tagsApart {ds : List Definition} {events : List Event} {g : Grammar}
    (built : Grammar.ofDefinitions? ds = (events, .ok g)) :
    (g.Unambiguous ↔ g.TagsApart) ∧
    (g.TagsApart → ∀ mode s, Sampler.Reachable g mode s → ∀ name,
      isTag name = true ∨ name ∈ g.names → ∀ n : Int, ∃ k : ℕ,
      (s.count name n).1 = .ok (k : Int) ∧ (g.trees mode name n).encard = k ∧
      ∀ t ∈ g.trees mode name n,
        ∑ᶠ draws ∈ (s.generation name n).playsTo (fun out => out.1 = .ok t.sample),
          Draw.weight draws = 1 / (k : ℚ)) ∧
    (¬g.TagsApart → ∃ name ∈ g.names, ∀ mode s, Sampler.Reachable g mode s → ∃ k : ℕ,
      (s.count name 1).1 = .ok (k : Int) ∧ (g.trees mode name 1).encard < k) := by
  have normal := Grammar.ofDefinitions?_normal built
  have iff : g.Unambiguous ↔ g.TagsApart := by
    obtain ⟨named, flat, stages, rfl⟩ := Grammar.exists_stages built
    exact Grammar.unambiguous_iff_tagsApart stages.flat_ofBindings normal.closed.names
  refine ⟨iff, fun apart mode s reachable name known n => ?_, fun together => ?_⟩
  · obtain ⟨k, answer, count, counts⟩ := reachable.sound.exists_counts normal known n
    refine ⟨k, answer, ?_, fun t ht => ?_⟩
    · have told : Set.InjOn Derivation.tree (g.derivations mode (.name name) n.toNat) :=
        fun d hd d' hd' same => iff.2 apart _ d d' hd.1 hd'.1 same
      rw [Grammar.trees_eq_image, told.encard_image, counts.encard]
    · rw [Grammar.trees_eq_image] at ht
      obtain ⟨d, hd, rfl⟩ := ht
      -- a tree has one derivation, so its share is that of the derivation
      have only : {d' | d' ∈ g.derivations mode (.name name) n.toNat ∧ d'.tree = d.tree} = {d} := by
        ext d'
        refine ⟨fun h => iff.2 apart _ d' d h.1.1 hd.1 h.2, ?_⟩
        rintro rfl
        exact ⟨hd, rfl⟩
      have hv : (k : Int) ≠ 0 := (counts.pos_of_mem hd).ne'
      rw [← Draw.probability_eq_finsum,
        reachable.sound.probability_generation count hv d.tree, only, Set.ncard_singleton,
        Int.cast_natCast, Nat.cast_one]
  · obtain ⟨name, bound, tag, i, j, apart, first, second⟩ :=
      Grammar.exists_two_derivations normal.closed.names together
    refine ⟨name, bound, fun mode s reachable => ?_⟩
    obtain ⟨k, answer, -, counts⟩ := reachable.sound.exists_counts normal (Or.inr bound) 1
    refine ⟨k, answer, ?_⟩
    rw [Grammar.trees_eq_image, ← counts.encard]
    -- with as many trees as derivations the choices of both members would be one
    refine lt_of_le_of_ne (Set.encard_image_le _ _) fun same => ?_
    have told := counts.finite.injOn_of_encard_image_eq same
    have size : ∀ place, (Derivation.choice place (.leaf tag)).size mode = 1 := by
      intro place
      rw [Derivation.size_choice, Derivation.size_leaf]
    have e := told ⟨first, size i⟩ ⟨second, size j⟩ (by simp only [Derivation.tree])
    exact apart (Derivation.choice.inj e).1

/-- The two binary trees with three leaves are distinct, and there are no others. -/
theorem count_eq_trees_iff_tagsApart_binary :
    binary.Unambiguous ∧ (binary.trees .leaves "B" 3).encard = 2 := by
  obtain ⟨iff, exact', -⟩ := count_eq_trees_iff_tagsApart binary_built
  have apart : binary.TagsApart := by decide
  obtain ⟨k, answer, trees, -⟩ :=
    exact' apart .leaves _ (.fresh (.ofState 0)) "B" (Or.inr (by decide)) 3
  have two : ((Sampler.ofGrammar binary .leaves (.ofState 0)).count "B" 3).1 = .ok 2 := by
    rw [(Sampler.sound_ofGrammar (.ofState 0)).count]
    cbv
  rw [two, Except.ok.injEq] at answer
  refine ⟨iff.2 apart, ?_⟩
  rw [trees, ← Int.natCast_inj.1 answer]
  rfl

/-- Two names for one leaf, and a union of both. -/
def sameLeaves : List Definition :=
  [⟨"L", .value "v_x", by decide⟩, ⟨"R", .value "v_x", by decide⟩,
    ⟨"U", .union [.name "L", .name "R"], by decide⟩]

/-- The grammar of the union of two names for one leaf, which is kept as it stands. -/
def sameLeavesGrammar : Grammar :=
  .ofBindings [("L", .value "v_x"), ("R", .value "v_x"), ("U", .union ["L", "R"])]

/-- The definitions are accepted, and the union keeps both names. -/
theorem sameLeaves_built :
    Grammar.ofDefinitions? sameLeaves = ([.converged 1, .built 3 0], .ok sameLeavesGrammar) := by
  cbv

/-- Not every count is a number of distinct trees: the union of two names for one leaf has one tree,
and its count is two. -/
theorem count_ne_trees_sameLeaves :
    ¬∀ (ds : List Definition) (events : List Event) (g : Grammar),
      Grammar.ofDefinitions? ds = (events, .ok g) → ∀ (mode : Accounting) (source : Source),
      ∀ name ∈ g.names, ∀ (n : Int) (k : ℕ),
      ((Sampler.ofGrammar g mode source).count name n).1 = .ok (k : Int) →
      (g.trees mode name n).encard = k := by
  intro all
  have count : ((Sampler.ofGrammar sameLeavesGrammar .nodes (.ofState 0)).count "U" 1).1 =
      .ok ((2 : ℕ) : Int) := by
    rw [(Sampler.sound_ofGrammar (.ofState 0)).count]
    cbv
  have two := all _ _ _ sameLeaves_built .nodes (.ofState 0) "U" (by decide) 1 2 count
  have union : sameLeavesGrammar.get? "U" = some (.union [.name "L", .name "R"]) := by cbv
  have first : sameLeavesGrammar.get? "L" = some (.value "v_x") := by cbv
  have second : sameLeavesGrammar.get? "R" = some (.value "v_x") := by cbv
  have only : sameLeavesGrammar.trees .nodes "U" 1 ⊆ {.leaf "v_x"} := by
    rintro t ⟨⟨d, derives, rfl⟩, -⟩
    obtain ⟨i, r, d', place, member, rfl⟩ := (Grammar.derives_union (by decide) union).1 derives
    have either : r = .name "L" ∨ r = .name "R" := by
      simpa using List.mem_of_getElem? place
    rcases either with rfl | rfl
    · obtain rfl := (Grammar.derives_value (by decide) first).1 member
      rfl
    · obtain rfl := (Grammar.derives_value (by decide) second).1 member
      rfl
  have le := Set.encard_le_encard only
  rw [two, Set.encard_singleton] at le
  exact absurd le (by decide)

end TreeGrammar
