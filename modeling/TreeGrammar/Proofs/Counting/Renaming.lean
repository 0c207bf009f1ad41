import Mathlib
import TreeGrammar.Proofs.Bindings.Renaming
import TreeGrammar.Proofs.Counting.Exact

/-!
# Counts under other names

Where bindings are found in others under other names, the derivations of a name are those of its
other name, with other names in them. So both have the same counts.

* `Derivation.rename`, `Sample.rename`: a derivation, and a tree that was grown, with other names.
* `Bindings.Embeds.derives_rename_iff`: derivations correspond.
* `Bindings.Embeds.countRef_eq`, `Bindings.Embeds.countSequences_eq`: counts are the same.
-/

namespace TreeGrammar

/-! ### Other names in derivations and trees -/

namespace Sample

mutual

/-- A tree in which nodes have other names. -/
def rename (f : String → String) : Sample → Sample
  | absent => absent
  | leaf tag => leaf tag
  | node name children => node (f name) (renameAll f children)

/-- Several trees in which nodes have other names. -/
def renameAll (f : String → String) : List Sample → List Sample
  | [] => []
  | t :: ts => t.rename f :: renameAll f ts

end

end Sample

namespace Derivation

mutual

/-- A derivation in which nodes have other names. -/
def rename (f : String → String) : Derivation → Derivation
  | leaf tag => leaf tag
  | node name children => node (f name) (renameAll f children)
  | choice place member => choice place (member.rename f)

/-- Several derivations in which nodes have other names. -/
def renameAll (f : String → String) : List Derivation → List Derivation
  | [] => []
  | d :: ds => d.rename f :: renameAll f ds

end

mutual

/-- To rename back and there changes nothing. -/
theorem rename_symm (σ : Equiv.Perm String) : (d : Derivation) → (d.rename σ.symm).rename σ = d
  | leaf tag => by rw [rename, rename]
  | node name children => by
    rw [rename, rename, σ.apply_symm_apply, renameAll_symm σ children]
  | choice place member => by rw [rename, rename, rename_symm σ member]

/-- To rename several derivations back and there changes nothing. -/
theorem renameAll_symm (σ : Equiv.Perm String) : (ds : List Derivation) →
    renameAll σ (renameAll σ.symm ds) = ds
  | [] => by rw [renameAll, renameAll]
  | d :: ds => by rw [renameAll, renameAll, rename_symm σ d, renameAll_symm σ ds]

end

/-- Two derivations are two under other names. -/
theorem rename_injective (σ : Equiv.Perm String) : Function.Injective (rename σ) :=
  Function.LeftInverse.injective (rename_symm σ.symm)

/-- Two lists of derivations are two under other names. -/
theorem renameAll_injective (σ : Equiv.Perm String) : Function.Injective (renameAll σ) :=
  Function.LeftInverse.injective (renameAll_symm σ.symm)

mutual

/-- Names do not count for the size. -/
theorem size_rename (f : String → String) (mode : Accounting) : (d : Derivation) →
    (d.rename f).size mode = d.size mode
  | leaf tag => by rw [rename]
  | node name [] => by rw [rename, renameAll, size_unit, size_unit]
  | node name (d :: ds) => by
    have inner : renameAll f (d :: ds) ≠ [] := by
      rw [renameAll]
      exact List.cons_ne_nil _ _
    rw [rename, size_node mode inner, size_node mode (List.cons_ne_nil d ds),
      sizes_renameAll f mode (d :: ds)]
  | choice place member => by rw [rename, size_choice, size_choice, size_rename f mode member]

/-- Names do not count for the size of several derivations. -/
theorem sizes_renameAll (f : String → String) (mode : Accounting) : (ds : List Derivation) →
    sizes mode (renameAll f ds) = sizes mode ds
  | [] => by rw [renameAll]
  | d :: ds => by
    rw [renameAll, sizes_cons, sizes_cons, size_rename f mode d, sizes_renameAll f mode ds]

end

end Derivation

section

variable {g : Grammar} {s : String}

/-- A node is a derivation of a product exactly if it has the product's name and derivations of the
items. -/
theorem Grammar.derives_node {name : String} {items : List Ref} {ds : List Derivation}
    (tag : ¬isTag s = true) (found : g.get? s = some (.product items)) :
    g.Derives (.name s) (.node name ds) ↔ name = s ∧ List.Forall₂ g.Derives items ds := by
  rw [derives_product tag found]
  constructor
  · rintro ⟨ds', children, same⟩
    cases same
    exact ⟨rfl, children⟩
  · rintro ⟨rfl, children⟩
    exact ⟨ds, children, rfl⟩

/-- A choice is a derivation of a union exactly if what it chooses is one of the member there. -/
theorem Grammar.derives_choice {place : Nat} {texts : List String} {d : Derivation}
    (tag : ¬isTag s = true) (found : g.get? s = some (.union (texts.map .name))) :
    g.Derives (.name s) (.choice place d) ↔
      ∃ x, texts[place]? = some x ∧ g.Derives (.name x) d := by
  rw [derives_union tag found]
  constructor
  · rintro ⟨i, r, d', there, member, same⟩
    cases same
    rw [List.getElem?_map, Option.map_eq_some_iff] at there
    obtain ⟨x, there, rfl⟩ := there
    exact ⟨x, there, member⟩
  · rintro ⟨x, there, member⟩
    exact ⟨place, .name x, d, by rw [List.getElem?_map, there]; rfl, member, rfl⟩

end

namespace Bindings.Embeds

open TreeGrammar.Derivation

variable {σ : Equiv.Perm String} {b b' : Bindings} {s : String}

/-- What the grammar of the others binds a name to under its other name. -/
theorem get? (h : b.Embeds σ b') {t : Ty} (found : (Grammar.ofBindings b).get? s = some t) :
    ∃ body : Body, t = body.toTy ∧
      (Grammar.ofBindings b').get? (σ s) = some (body.rename σ).toTy := by
  rw [get?_ofBindings, Option.map_eq_some_iff] at found
  obtain ⟨body, found, rfl⟩ := found
  exact ⟨body, rfl, by rw [get?_ofBindings, h.bodies s body found]; rfl⟩

mutual

/-- The derivations of a name are those of its other name, with other names in them. -/
theorem derives_rename_iff (h : b.Embeds σ b') (closed : (Grammar.ofBindings b).Closed) :
    (d : Derivation) → {s : String} → (Grammar.ofBindings b).Accounts (.name s) →
    ((Grammar.ofBindings b').Derives (.name (σ s)) (d.rename σ) ↔
      (Grammar.ofBindings b).Derives (.name s) d)
  | d, s, accounts => by
    by_cases tag : isTag s = true
    · rw [h.tags s tag, Grammar.derives_tag tag, Grammar.derives_tag tag]
      cases d <;> simp [rename]
    have tag' : ¬isTag (σ s) = true := fun tag' => tag (h.isTag_apply.1 tag')
    obtain ⟨_, same, known | ⟨t, found⟩⟩ := accounts
    · cases same
      exact absurd known tag
    cases same
    have items := closed.items s t found
    obtain ⟨body, rfl, found'⟩ := h.get? found
    cases body with
    | value t =>
      rw [Grammar.derives_value tag found, Grammar.derives_value tag' found']
      cases d <;> simp [rename]
    | product texts =>
      cases d with
      | node name ds =>
        rw [rename, Grammar.derives_node tag found, Grammar.derives_node tag' found',
          σ.apply_eq_iff_eq]
        exact and_congr_right fun _ =>
          derives_renameAll_iff h closed ds fun x hx => items _ (List.mem_map_of_mem hx)
      | _ => simp [rename, Grammar.derives_product tag found, Grammar.derives_product tag' found']
    | union texts =>
      cases d with
      | choice place d =>
        rw [rename, Grammar.derives_choice tag found, Grammar.derives_choice tag' found']
        constructor
        · rintro ⟨y, there, member⟩
          rw [List.getElem?_map, Option.map_eq_some_iff] at there
          obtain ⟨x, there, rfl⟩ := there
          have known := items _ (List.mem_map_of_mem (List.mem_of_getElem? there))
          exact ⟨x, there, (derives_rename_iff h closed d known).1 member⟩
        · rintro ⟨x, there, member⟩
          have known := items _ (List.mem_map_of_mem (List.mem_of_getElem? there))
          exact ⟨σ x, by rw [List.getElem?_map, there]; rfl,
            (derives_rename_iff h closed d known).2 member⟩
      | _ => simp [rename, Grammar.derives_union tag found, Grammar.derives_union tag' found']

/-- Derivations of several items are those of their other names, renamed. The induction is on the
derivations. -/
theorem derives_renameAll_iff (h : b.Embeds σ b') (closed : (Grammar.ofBindings b).Closed) :
    (ds : List Derivation) → {texts : List String} →
    (∀ x ∈ texts, (Grammar.ofBindings b).Accounts (.name x)) →
    (List.Forall₂ (Grammar.ofBindings b').Derives ((texts.map σ).map .name) (renameAll σ ds) ↔
      List.Forall₂ (Grammar.ofBindings b).Derives (texts.map .name) ds)
  | [], texts, _ => by
    rw [renameAll]
    cases texts <;> simp
  | d :: ds, texts, known => by
    rw [renameAll]
    cases texts with
    | nil => simp
    | cons x rest =>
      obtain ⟨first, others⟩ := List.forall_mem_cons.1 known
      rw [List.map_cons, List.map_cons, List.map_cons, List.forall₂_cons, List.forall₂_cons]
      exact and_congr (derives_rename_iff h closed d first)
        (derives_renameAll_iff h closed ds others)

end

/-- The other name of what has a meaning has one. -/
theorem accounts (h : b.Embeds σ b') (accounts : (Grammar.ofBindings b).Accounts (.name s)) :
    (Grammar.ofBindings b').Accounts (.name (σ s)) := by
  obtain ⟨_, same, tag | ⟨t, found⟩⟩ := accounts
  · cases same
    exact ⟨_, rfl, Or.inl (h.isTag_apply.2 tag)⟩
  · cases same
    obtain ⟨body, -, found'⟩ := h.get? found
    exact ⟨_, rfl, Or.inr ⟨_, found'⟩⟩

/-! ### The same counts -/

section

variable (h : b.Embeds σ b') {mode : Accounting} (normal : (Grammar.ofBindings b).Normal)
include h normal

/-- The derivations of the other name are those of the name, renamed, at every size. -/
theorem derivations_eq (accounts : (Grammar.ofBindings b).Accounts (.name s)) (n : Nat) :
    (Grammar.ofBindings b').derivations mode (.name (σ s)) n =
      rename σ '' (Grammar.ofBindings b).derivations mode (.name s) n := by
  ext d
  constructor
  · rintro ⟨derives, size⟩
    rw [← rename_symm σ d] at derives size ⊢
    refine ⟨_, ⟨(h.derives_rename_iff normal.closed _ accounts).1 derives, ?_⟩, rfl⟩
    rwa [size_rename] at size
  · rintro ⟨d, ⟨derives, size⟩, rfl⟩
    exact ⟨(h.derives_rename_iff normal.closed d accounts).2 derives,
      (size_rename σ mode d).trans size⟩

variable {texts : List String} (known : ∀ x ∈ texts, (Grammar.ofBindings b).Accounts (.name x))
include known

/-- The sequences for the other names are those for the names, renamed, at every size. -/
theorem sequences_eq (n : Nat) :
    (Grammar.ofBindings b').sequences mode ((texts.map σ).map .name) n =
      renameAll σ '' (Grammar.ofBindings b).sequences mode (texts.map .name) n := by
  ext ds
  constructor
  · rintro ⟨derives, sizes⟩
    rw [← renameAll_symm σ ds] at derives sizes ⊢
    refine ⟨_, ⟨(h.derives_renameAll_iff normal.closed _ known).1 derives, ?_⟩, rfl⟩
    rwa [sizes_renameAll] at sizes
  · rintro ⟨ds, ⟨derives, sizes⟩, rfl⟩
    exact ⟨(h.derives_renameAll_iff normal.closed ds known).2 derives,
      (sizes_renameAll σ mode ds).trans sizes⟩

end

section

variable (h : b.Embeds σ b') {mode : Accounting} (normal : (Grammar.ofBindings b).Normal)
  (normal' : (Grammar.ofBindings b').Normal)
include h normal normal'

/-- A name and its other name have the same counts. -/
theorem countRef_eq (accounts : (Grammar.ofBindings b).Accounts (.name s)) (n : Nat) :
    ((Grammar.ofBindings b').plain mode).countRef [] (.name (σ s)) n =
      ((Grammar.ofBindings b).plain mode).countRef [] (.name s) n := by
  obtain ⟨v, count⟩ := plain_countRef_ok normal.closed (normal.acyclic mode) accounts n
  obtain ⟨v', count'⟩ :=
    plain_countRef_ok normal'.closed (normal'.acyclic mode) (h.accounts accounts) n
  have counts := ((plain_counts _ mode).1 _ _ _ _ count).image (rename_injective σ)
  rw [← h.derivations_eq normal accounts] at counts
  rw [count, count', counts.unique ((plain_counts _ mode).1 _ _ _ _ count')]

/-- Several names and their other names have the same counts. -/
theorem countSequences_eq {texts : List String}
    (known : ∀ x ∈ texts, (Grammar.ofBindings b).Accounts (.name x)) (n : Nat) :
    ((Grammar.ofBindings b').plain mode).countSequences [] ((texts.map σ).map .name) n =
      ((Grammar.ofBindings b).plain mode).countSequences [] (texts.map .name) n := by
  by_cases none : texts = []
  · subst none
    rw [List.map_nil, List.map_nil, Recurrence.countSequences_nil, Recurrence.countSequences_nil]
  have known' : ∀ y ∈ texts.map σ, (Grammar.ofBindings b').Accounts (.name y) := by
    intro y hy
    obtain ⟨x, hx, rfl⟩ := List.mem_map.1 hy
    exact h.accounts (known x hx)
  obtain ⟨v, count⟩ := plain_countSequences_ok normal.closed (normal.acyclic mode)
    (List.forall_mem_map.2 known) n
  obtain ⟨v', count'⟩ := plain_countSequences_ok normal'.closed (normal'.acyclic mode)
    (List.forall_mem_map.2 known') n
  have exact : ∀ {g : Grammar} {items : List Ref} {v : Int}, items ≠ [] →
      (g.plain mode).countSequences [] items n = .ok v → Counts v (g.sequences mode items n) :=
    fun inner count => (plain_counts _ mode).2.2.1 _ _ _ inner _ count
  have counts := (exact (by simpa using none) count).image (renameAll_injective σ)
  rw [← h.sequences_eq normal known] at counts
  rw [count, count', counts.unique (exact (by simpa using none) count')]

end

end Bindings.Embeds

end TreeGrammar
