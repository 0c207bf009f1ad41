import Mathlib
import TreeGrammar.Proofs.Bindings.SelfAlias
import TreeGrammar.Proofs.Counting.Derivation

/-!
# The trees of a name

Which trees a name stands for in bindings, without a record of the members taken of unions. These
are the trees of the derivations that the grammar of the bindings has for the name.

* `Bindings.Yields`: the trees of a name or a tag.
* `Bindings.yields_union`: the trees of a union are those of its members.
* `Bindings.yields_iff`: they are the trees of derivations.
-/

namespace TreeGrammar

namespace Bindings

/-- The trees of a text. A tag is never looked up. -/
inductive Yields (b : Bindings) : String → Tree → Prop
  | tag {s : String} (tag : isTag s = true) : Yields b s (.leaf s)
  | value {s tag : String} (name : ¬isTag s = true) (bound : b.lookup s = some (.value tag)) :
      Yields b s (.leaf tag)
  | product {s : String} {items : List String} {ts : List Tree} (name : ¬isTag s = true)
      (bound : b.lookup s = some (.product items)) (length : items.length = ts.length)
      (children : ∀ p ∈ items.zip ts, Yields b p.1 p.2) : Yields b s (.node s ts)
  | union {s x : String} {items : List String} {t : Tree} (name : ¬isTag s = true)
      (bound : b.lookup s = some (.union items)) (member : x ∈ items) (tree : Yields b x t) :
      Yields b s t

variable {b : Bindings} {s : String} {t : Tree}

/-! ### What a text yields -/

/-- The trees of a union are those of its members. -/
theorem yields_union {items : List String} (name : ¬isTag s = true)
    (found : b.lookup s = some (.union items)) :
    b.Yields s t ↔ ∃ x ∈ items, b.Yields x t := by
  constructor
  · intro h
    cases h with
    | tag tag => exact absurd tag name
    | value _ bound => rw [found] at bound; cases bound
    | product _ bound => rw [found] at bound; cases bound
    | union _ bound member tree =>
      rw [found] at bound
      cases bound
      exact ⟨_, member, tree⟩
  · rintro ⟨x, member, tree⟩
    exact .union name found member tree

/-! ### Trees of derivations -/

/-- Trees that come from derivations one by one come from derivations in a row. -/
theorem exists_derivations {P : String → Derivation → Prop} {items : List String} {ts : List Tree}
    (length : items.length = ts.length)
    (each : ∀ p ∈ items.zip ts, ∃ d, P p.1 d ∧ d.tree = p.2) :
    ∃ ds, List.Forall₂ P items ds ∧ Derivation.trees ds = ts := by
  induction items generalizing ts with
  | nil =>
    obtain rfl := List.length_eq_zero_iff.1 length.symm
    exact ⟨[], .nil, by rw [Derivation.trees]⟩
  | cons s items ih =>
    cases ts with
    | nil => cases length
    | cons t ts =>
      obtain ⟨d, hd, rfl⟩ := each (s, t) List.mem_cons_self
      obtain ⟨ds, hds, rfl⟩ :=
        ih (Nat.succ.inj length) fun p hp => each p (List.mem_cons_of_mem _ hp)
      exact ⟨d :: ds, .cons hd hds, by rw [Derivation.trees]⟩

/-- A tree of a name has a derivation. -/
theorem exists_derivation_of_yields (h : b.Yields s t) :
    ∃ d, (Grammar.ofBindings b).Derives (.name s) d ∧ d.tree = t := by
  have found : ∀ {s : String} {body : Body}, b.lookup s = some body →
      (Grammar.ofBindings b).get? s = some body.toTy := by
    intro s body bound
    rw [get?_ofBindings, bound]
    rfl
  induction h with
  | tag tag => exact ⟨_, .tag tag, by rw [Derivation.tree]⟩
  | value name bound => exact ⟨_, .value name (found bound), by rw [Derivation.tree]⟩
  | @product s items ts name bound length children ih =>
    obtain ⟨ds, derives, rfl⟩ :=
      exists_derivations (P := fun s d => (Grammar.ofBindings b).Derives (.name s) d) length ih
    refine ⟨.node s ds, .product name (found bound) ?_, by rw [Derivation.tree]⟩
    exact List.forall₂_map_left_iff.2 derives
  | @union s x items t name bound member _ ih =>
    obtain ⟨d, derives, rfl⟩ := ih
    obtain ⟨i, hi, rfl⟩ := List.mem_iff_getElem.1 member
    refine ⟨.choice i d, .union name (found bound) ?_ derives, by rw [Derivation.tree]⟩
    rw [List.getElem?_map, List.getElem?_eq_getElem hi]
    rfl

/-- The tree of a derivation is one of its name. -/
theorem yields_of_derives : {d : Derivation} → {s : String} →
    (Grammar.ofBindings b).Derives (.name s) d → b.Yields s d.tree
  | .leaf tag, s, h => by
    rw [Derivation.tree]
    cases h with
    | tag tag => exact .tag tag
    | value name found =>
      rw [get?_ofBindings, Option.map_eq_some_iff] at found
      obtain ⟨body, bound, shape⟩ := found
      cases body with
      | value tag => cases shape; exact .value name bound
      | product items => cases shape
      | union items => cases shape
  | .node name ds, s, h => by
    rw [Derivation.tree, Derivation.trees_eq_map]
    cases h with
    | product name found children =>
      rw [get?_ofBindings, Option.map_eq_some_iff] at found
      obtain ⟨body, bound, shape⟩ := found
      cases body with
      | value tag => cases shape
      | product items =>
        cases shape
        have derives := List.forall₂_map_left_iff.1 children
        refine .product name bound (by rw [List.length_map, derives.length_eq]) fun p hp => ?_
        rw [List.zip_map_right] at hp
        obtain ⟨q, hq, rfl⟩ := List.mem_map.1 hp
        have smaller := List.sizeOf_lt_of_mem (List.of_mem_zip hq).2
        exact yields_of_derives ((List.forall₂_iff_zip.1 derives).2 hq)
      | union items => cases shape
  | .choice i d, s, h => by
    rw [Derivation.tree]
    cases h with
    | union name found place member =>
      rw [get?_ofBindings, Option.map_eq_some_iff] at found
      obtain ⟨body, bound, shape⟩ := found
      cases body with
      | value tag => cases shape
      | product items => cases shape
      | union items =>
        cases shape
        rw [List.getElem?_map, Option.map_eq_some_iff] at place
        obtain ⟨x, place, rfl⟩ := place
        exact .union name bound (List.mem_of_getElem? place) (yields_of_derives member)
termination_by d => sizeOf d
decreasing_by
  · simp only [Derivation.node.sizeOf_spec]
    omega
  · simp only [Derivation.choice.sizeOf_spec]
    omega

/-- The trees of a name are the trees of its derivations. -/
theorem yields_iff :
    b.Yields s t ↔ ∃ d, (Grammar.ofBindings b).Derives (.name s) d ∧ d.tree = t := by
  refine ⟨exists_derivation_of_yields, ?_⟩
  rintro ⟨d, derives, rfl⟩
  exact yields_of_derives derives

end Bindings

end TreeGrammar
