import Mathlib
import TreeGrammar.Proofs.Bindings.Naming

/-!
# Normal grammars

What normalisation promises about the grammars that it returns: no tag is bound, every item is a tag
or bound, and no name is an alias for itself, whether or not inner nodes count. Fresh names are no
tags because of their stem; opening the members of a union neither binds nor loses a name, and
brings no items that did not occur somewhere before.

* `Bindings.AccountedBy`: every item is a tag or among some names.
* `flatten_accounted`: flattening keeps that, and the names.
* `Grammar.ofDefinitions?_normal`: the grammars that normalisation returns.
-/

namespace TreeGrammar

/-! ### Names that are no tags -/

/-- No name bound is a tag. -/
def Untagged {α : Type} (b : List (String × α)) : Prop :=
  ∀ p ∈ b, ¬isTag p.1 = true

instance {α : Type} (b : List (String × α)) : Decidable (Untagged b) :=
  inferInstanceAs (Decidable (∀ p ∈ b, ¬isTag p.1 = true))

/-- No binding is for a tag exactly if no name bound is one. -/
theorem untagged_iff {b : Bindings} : Untagged b ↔ ∀ s ∈ b.names, ¬isTag s = true := by
  rw [Untagged, Bindings.names, List.forall_mem_map]

/-- Bindings of the same names are for no tag either. -/
theorem Untagged.of_names {b flat : Bindings} (untagged : Untagged b)
    (same : flat.names = b.names) : Untagged flat := by
  rw [untagged_iff, same]
  exact untagged_iff.1 untagged

/-- Names that begin with `t` are no tags. -/
theorem not_isTag_numbered (k : Nat) : ¬isTag ("t_" ++ toString k) = true := by
  intro tag
  obtain ⟨cs, e⟩ := isTag_iff.1 tag
  simp at e

/-- A definition may have a numbered name. -/
theorem isDefinable_numbered (k : Nat) : IsDefinable ("t_" ++ toString k) :=
  ⟨fun empty => by simpa using congrArg String.toList empty,
    Bool.not_eq_true _ ▸ not_isTag_numbered k⟩

/-- Naming nested types binds no tag. -/
theorem extract_untagged {supply : FreshNames} {queue : List Nested} {log : List Extraction}
    {b : Bindings} (e : extract supply queue = .ok (log, b)) (stem : supply.stem = "t_")
    (untagged : Untagged queue) : Untagged b := by
  obtain ⟨names, handed⟩ := extract_names e
  intro p hp
  have bound : p.1 ∈ b.names := List.mem_map_of_mem hp
  rw [names] at bound
  rcases List.mem_append.1 bound with given | new
  · obtain ⟨q, hq, same⟩ := List.mem_map.1 given
    exact same ▸ untagged q hq
  · obtain ⟨k, e⟩ := handed.numbered p.1 new
    rw [e, stem]
    exact not_isTag_numbered k

/-- The names of definitions are no tags, and neither are those handed out. -/
theorem untagged_of_definitions {ds : List Definition} {log : List Extraction} {b : Bindings}
    (naming : extract (FreshNames.ofUsed (ds.map (·.name)) "t_")
      (ds.map fun d => (d.name, d.type)) = .ok (log, b)) : Untagged b := by
  refine extract_untagged naming rfl fun p hp => ?_
  obtain ⟨d, -, rfl⟩ := List.mem_map.1 hp
  simpa using d.definable.2

/-! ### Items that are accounted for -/

/-- The items of a body as a type are its texts, as names. -/
theorem Body.items_toTy (body : Body) : body.toTy.items = body.items.map .name := by
  cases body <;> rfl

namespace Bindings

/-- Every item is a tag or among `names`. -/
def AccountedBy (names : List String) (b : Bindings) : Prop :=
  ∀ p ∈ b, ∀ item ∈ p.2.items, isTag item = true ∨ item ∈ names

instance (names : List String) (b : Bindings) : Decidable (b.AccountedBy names) :=
  inferInstanceAs (Decidable (∀ p ∈ b, ∀ item ∈ p.2.items, isTag item = true ∨ item ∈ names))

variable {b : Bindings} {names : List String}

/-- Where nothing is found that is not bound every item is a tag or bound. -/
theorem accountedBy_of_unbound?_eq_none (h : b.unbound? = none) : b.AccountedBy b.names := by
  intro p hp item hi
  rw [unbound?, List.findSome?_eq_none_iff] at h
  have found := h p hp
  rw [Option.map_eq_none_iff, List.find?_eq_none] at found
  have accounted : b.accounts item = true := by simpa using found item hi
  rw [accounts, Bool.or_eq_true, List.contains_iff_mem] at accounted
  exact accounted

/-- Items are accounted for in two lists of bindings if they are in each. -/
theorem AccountedBy.append {b' : Bindings} (h : b.AccountedBy names) (h' : b'.AccountedBy names) :
    (b ++ b').AccountedBy names := by
  intro p hp
  rcases List.mem_append.1 hp with hp | hp
  · exact h p hp
  · exact h' p hp

/-- The members of a union that is opened occur in the bindings. -/
theorem AccountedBy.expand (h : b.AccountedBy names) {items : List String}
    (hi : ∀ item ∈ items, isTag item = true ∨ item ∈ names) :
    ∀ item ∈ b.expand items, isTag item = true ∨ item ∈ names := by
  intro item member
  rw [Bindings.expand, List.mem_eraseDups, List.mem_flatMap] at member
  obtain ⟨x, hx, member⟩ := member
  rcases found : b.members? x with _ | sub
  · rw [found] at member
    obtain rfl := List.mem_singleton.1 member
    exact hi item hx
  · rw [found] at member
    rw [members?] at found
    split at found
    · next sub' bound =>
      cases found
      exact h (x, .union sub) (mem_of_lookup bound) item member
    · cases found

/-- A pass binds the same names, in the same order, and brings no other items. -/
theorem pass_accounted {done todo b' : Bindings} {opened : Bool}
    (h : pass done todo = .ok (b', opened)) (hd : done.AccountedBy names)
    (ht : todo.AccountedBy names) :
    b'.names = done.names ++ todo.names ∧ b'.AccountedBy names := by
  induction todo generalizing done b' opened with
  | nil =>
    rw [pass] at h
    cases h
    exact ⟨by simp [Bindings.names], hd⟩
  | cons p rest ih =>
    obtain ⟨name, body⟩ := p
    have hr : AccountedBy names rest := fun p hp => ht p (List.mem_cons_of_mem _ hp)
    -- whatever the body becomes, the pass goes on, and the name stays in its place
    have next : ∀ (body' : Body) (opened' : Bool),
        (∀ item ∈ body'.items, isTag item = true ∨ item ∈ names) →
        pass (done ++ [(name, body')]) rest = .ok (b', opened') →
        b'.names = done.names ++ Bindings.names ((name, body) :: rest) ∧ b'.AccountedBy names := by
      intro body' opened' items h'
      have one : AccountedBy names [(name, body')] := by
        intro p hp
        obtain rfl := List.mem_singleton.1 hp
        exact items
      obtain ⟨same, accounted⟩ := ih h' (hd.append one) hr
      refine ⟨?_, accounted⟩
      rw [same]
      simp [Bindings.names]
    have items : ∀ item ∈ body.items, isTag item = true ∨ item ∈ names :=
      ht (name, body) List.mem_cons_self
    rcases body with tag | texts | texts
    · rw [pass.eq_3 _ _ _ _ fun _ e => by cases e] at h
      exact next _ _ items h
    · rw [pass.eq_3 _ _ _ _ fun _ e => by cases e] at h
      exact next _ _ items h
    · rw [pass] at h
      split at h
      · cases h
      · simp only at h
        split at h
        · cases h
        · split at h
          · cases h
          · next b'' opened' h' =>
            cases h
            exact next (.union _) opened' ((hd.append ht).expand items) h'

/-- Passes bind the same names, in the same order, and bring no other items. -/
theorem passes_accounted {count fuel count' : Nat} {b b' : Bindings}
    (h : b.passes count fuel = .ok (b', count')) (hb : b.AccountedBy names) :
    b'.names = b.names ∧ b'.AccountedBy names := by
  induction fuel generalizing b count with
  | zero =>
    rw [Bindings.passes] at h
    cases h
    exact ⟨rfl, hb⟩
  | succ fuel ih =>
    rw [Bindings.passes] at h
    split at h
    · cases h
    · next b'' opened passed =>
      have none : AccountedBy names [] := fun p hp => absurd hp List.not_mem_nil
      obtain ⟨same, accounted⟩ := pass_accounted passed none hb
      rw [show Bindings.names [] = [] from rfl, List.nil_append] at same
      split at h
      · obtain ⟨same', accounted'⟩ := ih h accounted
        exact ⟨same'.trans same, accounted'⟩
      · cases h
        exact ⟨same, accounted⟩

/-- Flattening binds the same names, in the same order, and brings no other items. -/
theorem flatten_accounted {b b' : Bindings} {count : Nat} (h : b.flatten = .ok (b', count))
    (hb : b.AccountedBy names) : b'.names = b.names ∧ b'.AccountedBy names :=
  passes_accounted h hb

/-! ### The grammar of bindings -/

/-- Where no name is a tag and every item is accounted for, nothing is missing from the grammar. -/
theorem closed_ofBindings (untagged : Untagged b) (accounted : b.AccountedBy b.names) :
    (Grammar.ofBindings b).Closed := by
  have bound : ∀ s t, (Grammar.ofBindings b).get? s = some t →
      ∃ body, (s, body) ∈ b ∧ body.toTy = t := by
    intro s t found
    rw [get?_ofBindings, Option.map_eq_some_iff] at found
    obtain ⟨body, found, rfl⟩ := found
    exact ⟨body, mem_of_lookup found, rfl⟩
  refine ⟨fun s t found => ?_, fun s t found r hr => ?_⟩
  · obtain ⟨body, member, -⟩ := bound s t found
    exact untagged (s, body) member
  · obtain ⟨body, member, rfl⟩ := bound s t found
    rw [Body.items_toTy] at hr
    obtain ⟨item, hi, rfl⟩ := List.mem_map.1 hr
    refine ⟨item, rfl, ?_⟩
    rcases accounted (s, body) member item hi with tag | named
    · exact Or.inl tag
    · obtain ⟨body', found'⟩ := exists_lookup_of_mem_names named
      refine Or.inr ⟨body'.toTy, ?_⟩
      rw [get?_ofBindings, found']
      rfl

end Bindings

namespace Grammar

/-- Nothing is missing from the grammar, and no name is an alias for itself, whether or not inner
nodes count. -/
structure Normal (g : Grammar) : Prop where
  closed : g.Closed
  acyclic : ∀ mode, ¬g.Cyclic mode

variable {g : Grammar}

/-- Where inner nodes count, fewer names are aliases. -/
theorem Alias.leaves {mode : Accounting} {s t : String} (h : g.Alias mode s t) :
    g.Alias .leaves s t := by
  obtain ⟨type, found, member⟩ := h
  refine ⟨type, found, ?_⟩
  rcases type with tag | items | items
  · cases member
  · match items, mode, member with
    | [_], .leaves, member => exact member
  · exact member

/-- A cycle where inner nodes count is one where they do not: there are no fewer aliases. -/
theorem Cyclic.leaves {mode : Accounting} (h : g.Cyclic mode) : g.Cyclic .leaves := by
  obtain ⟨s, cycle⟩ := h
  have le : g.Alias mode ≤ g.Alias .leaves := fun _ _ => Alias.leaves
  exact ⟨s, Relation.TransGen.mono le s s cycle⟩

/-- What is accepted is normal: what is missing and what has no finite base has been refused. -/
theorem ofBindings?_normal {given : Nat} {b : Bindings} {events : List Event}
    (untagged : Untagged b) (h : ofBindings? given b = (events, .ok g)) : g.Normal := by
  rw [ofBindings?] at h
  split at h
  · cases h
  · next unbound =>
    split at h
    · cases h
    · next flat count flattened =>
      split at h
      · cases h
      · next selfAlias =>
        cases h
        obtain ⟨same, accounted⟩ :=
          Bindings.flatten_accounted flattened (Bindings.accountedBy_of_unbound?_eq_none unbound)
        rw [← same] at accounted
        have closed := Bindings.closed_ofBindings (untagged.of_names same) accounted
        have acyclic := Bindings.not_cyclic_of_selfAlias?_eq_none closed selfAlias
        exact ⟨closed, fun mode cycle => acyclic cycle.leaves⟩

/-- The grammars that normalisation returns are normal. -/
theorem ofDefinitions?_normal {ds : List Definition} {events : List Event}
    (h : ofDefinitions? ds = (events, .ok g)) : g.Normal := by
  rw [ofDefinitions?] at h
  simp only at h
  split at h
  · cases h
  · split at h
    · cases h
    · next log b extracted =>
      exact ofBindings?_normal (untagged_of_definitions extracted)
        (Prod.ext rfl (Prod.mk.inj h).2)

end Grammar

/-! ### Binary trees -/

/-- Binary trees over one tag: the tag, or a pair of trees. The pair stands inside the union. -/
def binaryDefinitions : List Definition :=
  [⟨"B", .union [.name "v_x", .inline (.product [.name "B", .name "B"])], by decide⟩]

/-- The same when the pair has got a name. -/
def binaryBindings : Bindings :=
  [("B", .union ["v_x", "t_0"]), ("t_0", .product ["B", "B"])]

/-- The grammar of binary trees. -/
def binary : Grammar :=
  .ofBindings binaryBindings

/-- Binary trees are accepted, and the pair gets a name. -/
theorem binary_built :
    Grammar.ofDefinitions? binaryDefinitions =
      ([.extracted ⟨"t_0", .product [.name "B", .name "B"], "B"⟩, .converged 1, .built 2 1],
        .ok binary) := by
  cbv

end TreeGrammar
