import Mathlib
import TreeGrammar.Proofs.Bindings.Frontier
import TreeGrammar.Proofs.Bindings.WellFormed

/-!
# Bindings under other names

Bindings may be found in others under other names, and in another order. Tags stay what they are.
Whatever is bound and whatever has no finite base is so under the other names, and flattening, which
leaves unions the members that walks meet, leaves bindings that are found in the others again.

* `Body.rename`: a body whose items have other names.
* `Bindings.Embeds`: bindings that are found in others under other names.
* `Bindings.Embeds.circular`: names without a finite base have none under their other names.
* `Bindings.Embeds.flatten`: so it is after flattening.
-/

namespace TreeGrammar

/-- A body whose items have other names. -/
def Body.rename (f : String → String) : Body → Body
  | value tag => value tag
  | product items => product (items.map f)
  | union items => union (items.map f)

/-- To rename there and back changes nothing. -/
theorem Body.rename_symm (σ : Equiv.Perm String) (body : Body) :
    (body.rename σ).rename σ.symm = body := by
  cases body <;> simp [rename]

/-- What a body is an alias for it is under other names as well. -/
theorem Body.mem_aliases_rename {f : String → String} {body : Body} {t : String}
    (h : t ∈ body.aliases) : f t ∈ (body.rename f).aliases := by
  rcases body with tag | items | items
  · cases h
  · match items, h with
    | [item], h => exact List.mem_singleton.2 (congrArg f (List.mem_singleton.1 h))
  · exact List.mem_map_of_mem h

/-- The items of a renamed body are the items, renamed. -/
theorem Body.items_rename (f : String → String) (body : Body) :
    (body.rename f).items = body.items.map f := by
  cases body <;> rfl

namespace Bindings

variable {σ : Equiv.Perm String} {b b' flat flat' : Bindings} {s t : String} {items : List String}
  {count count' : Nat}

/-- Bindings are found in others under other names. Tags are their own other names. -/
structure Embeds (σ : Equiv.Perm String) (b b' : Bindings) : Prop where
  tags : ∀ s, isTag s = true → σ s = s
  bodies : ∀ s body, b.lookup s = some body → b'.lookup (σ s) = some (body.rename σ)

/-- Where every name has a finite base a union is flattened to what a walk meets. -/
theorem Ready.flatten_union (ready : b.Ready) (founded : ∀ s, ¬b.Circular s)
    (result : b.flatten = .ok (flat, count)) (union : b.members? s = some items) :
    flat.members? s = some (b.frontier s).eraseDups := by
  obtain ⟨texts, left⟩ := Option.ne_none_iff_exists'.1 fun none => by
    rw [(flatten_others result ready.distinct s).2, union] at none
    cases none
  rw [left, flatten_members? (acyclic_of_founded founded) result ready.distinct
    (flat_of_founded ready.distinct founded result) left]

namespace Embeds

variable (h : b.Embeds σ b')
include h

/-- The other name of a text is a tag exactly if the text is one. -/
theorem isTag_apply : isTag (σ s) = true ↔ isTag s = true := by
  refine ⟨fun tag => ?_, fun tag => by rwa [h.tags s tag]⟩
  have same : σ s = s := σ.injective (h.tags _ tag)
  rwa [same] at tag

/-- The other name of what is bound is bound. -/
theorem mem_names (bound : s ∈ b.names) : σ s ∈ b'.names := by
  obtain ⟨body, found⟩ := exists_lookup_of_mem_names bound
  exact mem_names_of_lookup (h.bodies s body found)

/-- An alias is one under other names as well. -/
theorem next (step : t ∈ b.next s) : σ t ∈ b'.next (σ s) := by
  obtain ⟨body, found⟩ := exists_lookup_of_mem_names (mem_names_of_next step)
  rw [Bindings.next, found] at step
  rw [Bindings.next, h.bodies s body found]
  exact Body.mem_aliases_rename step

/-- A name without a finite base has none under its other name. -/
theorem circular (circular : b.Circular s) : b'.Circular (σ s) :=
  Relation.TransGen.lift σ (fun _ _ => h.next) s s circular

/-- Where nothing else is bound the others are found in the bindings under their first names. -/
theorem symm (only : ∀ s, σ s ∈ b'.names → s ∈ b.names) : b'.Embeds σ.symm b := by
  refine ⟨fun s tag => by rw [Equiv.symm_apply_eq, h.tags s tag], fun s body found => ?_⟩
  have bound := mem_names_of_lookup found
  rw [← σ.apply_symm_apply s] at bound found
  obtain ⟨body', found'⟩ := exists_lookup_of_mem_names (only _ bound)
  rw [h.bodies _ body' found'] at found
  cases found
  rw [found', Body.rename_symm]

/-- Where nothing else is bound every item of the others is a tag or bound, if that is so of the
bindings. -/
theorem accountedBy (only : ∀ s, σ s ∈ b'.names → s ∈ b.names) (distinct : b'.names.Nodup)
    (accounted : b.AccountedBy b.names) : b'.AccountedBy b'.names := by
  rintro ⟨s, body⟩ member x item
  have found := lookup_eq_of_mem distinct member
  have found' := (h.symm only).bodies s body found
  have known := accounted _ (mem_of_lookup found') (σ.symm x) (by
    rw [Body.items_rename]
    exact List.mem_map_of_mem item)
  rw [← σ.apply_symm_apply x]
  exact known.imp h.isTag_apply.2 h.mem_names

/-- The members of a union, renamed, are those of its other name. -/
theorem members?_some (found : b.members? s = some items) :
    b'.members? (σ s) = some (items.map σ) := by
  rw [members?_eq_some_iff] at found ⊢
  exact h.bodies s _ found

/-- What is known to be no union is none under its other name. -/
theorem members?_none (untagged : Untagged b') (known : isTag s = true ∨ s ∈ b.names)
    (other : b.members? s = none) : b'.members? (σ s) = none := by
  rcases known with tag | bound
  · rw [h.tags s tag, members?, lookup_tag_of_untagged untagged tag]
  · obtain ⟨body, found⟩ := exists_lookup_of_mem_names bound
    rw [members?, found] at other
    rw [members?, h.bodies s body found]
    cases body with
    | value => rfl
    | product => rfl
    | union => cases other

/-- Walks meet the same members under their other names. -/
theorem walk (accounted : b.AccountedBy b.names) (untagged : Untagged b')
    (known : isTag s = true ∨ s ∈ b.names) (k : Nat) :
    b'.walk k (σ s) = (b.walk k s).map σ := by
  induction k generalizing s with
  | zero => rfl
  | succ k ih =>
    rcases found : b.members? s with _ | items
    · rw [walk_other found, walk_other (h.members?_none untagged known found)]
      rfl
    · rw [walk_union found, walk_union (h.members?_some found), List.flatMap_map, List.map_flatMap]
      refine List.flatMap_congr fun x hx => ih ?_
      exact accounted _ (mem_of_lookup (members?_eq_some_iff.1 found)) x hx

/-- Where no name is an alias for itself a walk meets under other names what it met, renamed. -/
theorem frontier (ready : b.Ready) (ready' : b'.Ready) (founded : ∀ s, ¬b'.Circular s)
    (bound : s ∈ b.names) : b'.frontier (σ s) = (b.frontier s).map σ := by
  have acyclic' := acyclic_of_founded founded
  have acyclic := acyclic_of_founded fun s circular => founded _ (h.circular circular)
  have deep : b.length < b.length + b'.length + 1 := by omega
  have deep' : b'.length < b.length + b'.length + 1 := by omega
  rw [← walk_eq_frontier acyclic deep, ← walk_eq_frontier acyclic' deep',
    h.walk ready.accounted ready'.untagged (Or.inr bound)]

/-- Flattened bindings are found in flattened bindings. -/
theorem flatten (ready : b.Ready) (ready' : b'.Ready) (founded : ∀ s, ¬b'.Circular s)
    (result : b.flatten = .ok (flat, count)) (result' : b'.flatten = .ok (flat', count')) :
    flat.Embeds σ flat' := by
  refine ⟨h.tags, fun s body found => ?_⟩
  have bound : s ∈ b.names := (ready.flatten result).1 ▸ mem_names_of_lookup found
  have others := flatten_others result ready.distinct s
  have others' := flatten_others result' ready'.distinct (σ s)
  rcases union : b.members? s with _ | items
  · rw [others'.1 (h.members?_none ready'.untagged (Or.inr bound) union)]
    rw [others.1 union] at found
    exact h.bodies s body found
  · have left : flat.members? s = some (b.frontier s).eraseDups := ready.flatten_union
      (fun s circular => founded _ (h.circular circular)) result union
    have left' := ready'.flatten_union founded result' (h.members?_some union)
    rw [members?_eq_some_iff, found, Option.some.injEq] at left
    rw [members?_eq_some_iff, h.frontier ready ready' founded bound,
      eraseDups_map σ.injective] at left'
    rw [left', left]
    rfl

end Embeds

end Bindings

end TreeGrammar
