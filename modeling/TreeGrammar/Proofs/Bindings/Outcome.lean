import Mathlib
import TreeGrammar.Proofs.Bindings.Loops
import TreeGrammar.Proofs.Bindings.Stages
import TreeGrammar.Proofs.Reading.Faithful
import TreeGrammar.Proofs.Reading.Respelling

/-!
# What comes of definitions

Normalisation reports the first thing that is wrong, in a fixed order: something is no definition, a
name repeats an earlier one, a builder fails, an item is bound nowhere, or a name has no finite
base. Names without a finite base are looked for twice, while unions are opened and among the
aliases that are left then; between them the two searches miss none. Where nothing is wrong there is
a grammar.

* `FirstRepeat`, `Bindings.FirstUnbound`: what is reported of names and of items.
* `extract_error`: naming nested types fails only where a builder fails.
* `Bindings.Circular`: a name without a finite base (see `TreeGrammar.Proofs.Bindings.Loops`).
* `ofBindings?_of_circular`, `ofBindings?_of_founded`: what becomes of bindings that are closed.
* `Outcome`, `ofEntries?_outcome`: what comes of definitions, and of what may be none.
-/

namespace TreeGrammar

/-! ### Repeated names and unbound items -/

/-- A name is the first in a list that repeats an earlier one. -/
def FirstRepeat (names : List String) (name : String) : Prop :=
  ∃ before after, names = before ++ name :: after ∧ before.Nodup ∧ name ∈ before

/-- A repetition that is found divides the list: what is before it has none, and the name is there
or was met earlier. -/
theorem exists_of_firstRepeated {earlier names : List String} {name : String}
    (h : firstRepeated earlier names = some name) :
    ∃ before after, names = before ++ name :: after ∧ before.Nodup ∧
      (∀ x ∈ before, x ∉ earlier) ∧ (name ∈ before ∨ name ∈ earlier) := by
  induction names generalizing earlier with
  | nil => cases h
  | cons first rest ih =>
    rw [firstRepeated] at h
    split at h
    · next again =>
      cases h
      exact ⟨[], rest, rfl, List.nodup_nil, fun x hx => absurd hx List.not_mem_nil, Or.inr again⟩
    · next new =>
      obtain ⟨before, after, rfl, distinct, apart, repeated⟩ := ih h
      refine ⟨first :: before, after, rfl, List.nodup_cons.2 ⟨fun again => ?_, distinct⟩,
        fun x hx => ?_, ?_⟩
      · exact apart first again List.mem_cons_self
      · rcases List.mem_cons.1 hx with rfl | hx
        · exact new
        · exact fun before => apart x hx (List.mem_cons_of_mem _ before)
      · rcases repeated with hx | hx
        · exact Or.inl (List.mem_cons_of_mem _ hx)
        · rcases List.mem_cons.1 hx with rfl | hx
          · exact Or.inl List.mem_cons_self
          · exact Or.inr hx

/-- The name reported is the first that repeats an earlier one. -/
theorem firstRepeat_of_firstRepeated {names : List String} {name : String}
    (h : firstRepeated [] names = some name) : FirstRepeat names name := by
  obtain ⟨before, after, e, distinct, -, repeated⟩ := exists_of_firstRepeated h
  exact ⟨before, after, e, distinct, repeated.resolve_right List.not_mem_nil⟩

/-- Names of which one repeats are not distinct. -/
theorem FirstRepeat.not_nodup {names : List String} {name : String} (h : FirstRepeat names name) :
    ¬names.Nodup := by
  obtain ⟨before, after, rfl, -, repeated⟩ := h
  intro distinct
  exact (List.nodup_append.1 distinct).2.2 name repeated name List.mem_cons_self rfl

namespace Bindings

variable {b flat : Bindings}

/-- An item is the first, in the order of the bindings and of the items of each, that is neither a
tag nor bound, and `owner` is the name it occurs under. -/
structure FirstUnbound (b : Bindings) (item owner : String) : Prop where
  name : ¬isTag item = true
  unbound : item ∉ b.names
  first : ∃ (before after : Bindings) (body : Body) (items others : List String),
    b = before ++ (owner, body) :: after ∧ body.items = items ++ item :: others ∧
    before.AccountedBy b.names ∧ ∀ x ∈ items, isTag x = true ∨ x ∈ b.names

/-- An item is accounted for exactly if it is a tag or bound. -/
theorem accounts_iff {item : String} :
    b.accounts item = true ↔ isTag item = true ∨ item ∈ b.names := by
  rw [accounts, Bool.or_eq_true, List.contains_iff_mem]

/-- The item reported is the first that is neither a tag nor bound. -/
theorem firstUnbound_of_unbound? {item owner : String} (h : b.unbound? = some (item, owner)) :
    b.FirstUnbound item owner := by
  obtain ⟨before, ⟨name, body⟩, after, e, reported, earlier⟩ := List.findSome?_eq_some_iff.1 h
  obtain ⟨item', found, pair⟩ := Option.map_eq_some_iff.1 reported
  cases pair
  obtain ⟨missing, items, others, e', accounted⟩ := List.find?_eq_some_iff_append.1 found
  have missing : ¬(isTag item = true ∨ item ∈ b.names) := by
    rw [← accounts_iff]
    simpa using missing
  refine ⟨fun tag => missing (Or.inl tag), fun bound => missing (Or.inr bound),
    before, after, body, items, others, e, e', fun p hp x hx => ?_, fun x hx => ?_⟩
  · have none := earlier p hp
    rw [Option.map_eq_none_iff, List.find?_eq_none] at none
    exact accounts_iff.1 (by simpa using none x hx)
  · exact accounts_iff.1 (by simpa using accounted x hx)

/-- Where an item is not bound not every item is accounted for. -/
theorem FirstUnbound.not_accountedBy {item owner : String} (h : b.FirstUnbound item owner) :
    ¬b.AccountedBy b.names := by
  obtain ⟨before, after, body, items, others, e, e', -⟩ := h.first
  intro accounted
  have member : (owner, body) ∈ b := e ▸ List.mem_append_right _ List.mem_cons_self
  rcases accounted _ member item (e' ▸ List.mem_append_right _ List.mem_cons_self) with tag | bound
  · exact h.name tag
  · exact h.unbound bound

/-- Where every item is accounted for none is reported. -/
theorem unbound?_of_accountedBy (h : b.AccountedBy b.names) : b.unbound? = none := by
  rcases found : b.unbound? with _ | ⟨item, owner⟩
  · rfl
  · exact absurd h (firstUnbound_of_unbound? found).not_accountedBy

/-! ### Closed bindings -/

/-- A name that is reported as an alias for itself has no finite base. -/
theorem circular_of_selfAlias? (distinct : b.names.Nodup) {name : String}
    (h : b.selfAlias? = some name) : b.Circular name := by
  obtain ⟨⟨s, body⟩, found, rfl⟩ := Option.map_eq_some_iff.1 h
  have member := List.mem_of_find?_eq_some found
  have passed := List.find?_some found
  rw [Bool.and_eq_true] at passed
  obtain ⟨x, step, way⟩ := reached_of_reaches passed.2
  refine Relation.TransGen.head' ?_ way
  rw [next, lookup_eq_of_mem distinct member]
  exact step

/-- Aliases lead from a name to itself exactly if the grammar of the bindings has a cycle. -/
theorem circular_iff_cyclic :
    (∃ s, b.Circular s) ↔ (Grammar.ofBindings b).Cyclic .leaves := by
  rw [Grammar.Cyclic, alias_ofBindings]
  rfl

/-- Bindings with distinct names, none a tag, in which every item is a tag or bound and no union is
without members. -/
structure Ready (b : Bindings) : Prop where
  distinct : b.names.Nodup
  untagged : Untagged b
  accounted : b.AccountedBy b.names
  inhabited : b.Inhabited

variable (ready : b.Ready)
include ready

/-- Flattening leaves nothing unbound. -/
theorem Ready.flatten {count : Nat} (h : b.flatten = .ok (flat, count)) :
    flat.names = b.names ∧ flat.AccountedBy flat.names ∧ Untagged flat := by
  obtain ⟨same, accounted⟩ := flatten_accounted h ready.accounted
  exact ⟨same, same ▸ accounted, ready.untagged.of_names same⟩

/-- Where a name has no finite base such a name is reported. -/
theorem Ready.of_circular {s : String} (circular : b.Circular s) (given : Nat) :
    ∃ name reason, b.Circular name ∧
      (Grammar.ofBindings? given b).2 = .error (.noFiniteBase name reason) := by
  rw [Grammar.ofBindings?, unbound?_of_accountedBy ready.accounted]
  dsimp only
  rcases result : b.flatten with e | ⟨flat, count⟩
  · obtain ⟨name, rfl, circular'⟩ := flatten_error ready.distinct ready.inhabited result
    exact ⟨name, _, circular', rfl⟩
  · obtain ⟨same, accounted, untagged⟩ := ready.flatten result
    rcases found : flat.selfAlias? with _ | name
    · have founded := not_cyclic_of_selfAlias?_eq_none (closed_ofBindings untagged accounted) found
      rw [← circular_iff_cyclic, flatten_circular_iff ready.distinct result] at founded
      exact absurd ⟨s, circular⟩ founded
    · have circular' := circular_of_selfAlias? (same ▸ ready.distinct) found
      exact ⟨name, _, (flatten_leads ready.distinct result).circular circular',
        by simp only [found]; rfl⟩

/-- Where every name has a finite base the bindings flatten to a grammar. -/
theorem Ready.of_founded (founded : ∀ s, ¬b.Circular s) (given : Nat) :
    ∃ flat count, b.flatten = .ok (flat, count) ∧ flat.selfAlias? = none ∧
      Grammar.ofBindings? given b = ([.converged count, .built flat.length (flat.length - given)],
        .ok (Grammar.ofBindings flat)) := by
  obtain ⟨flat, count, result⟩ := exists_flatten ready.distinct ready.inhabited founded
  obtain ⟨same, accounted, untagged⟩ := ready.flatten result
  have none : flat.selfAlias? = none := by
    rw [selfAlias?_eq_none_iff (same ▸ ready.distinct) (closed_ofBindings untagged accounted),
      ← circular_iff_cyclic, flatten_circular_iff ready.distinct result]
    exact fun ⟨s, circular⟩ => founded s circular
  refine ⟨flat, count, result, none, ?_⟩
  rw [Grammar.ofBindings?, unbound?_of_accountedBy ready.accounted]
  simp only [result, none]

end Bindings

/-! ### Naming nested types -/

/-- A type as reading makes them: its unions have members and its values are tags, and so it is with
the element types of the builders in it. It is alike to itself. -/
def Ty.Made (t : Ty) : Prop :=
  t.Alike (· = ·) id t

/-- The type of a definition is what some expression is read as for its name. -/
def Definition.Written (d : Definition) : Prop :=
  ∃ e : Expr, e.bindTo d.name [] = .ok (.ref (.inline d.type))

/-- The type of a definition is one that reading makes, since an expression is read as it. -/
theorem Definition.Written.made {d : Definition} (h : d.Written) : d.type.Made := by
  obtain ⟨e, read⟩ := h
  have agree := Expr.bindTo_agree (f := id) .eq (rfl : d.name = d.name) e .nil
    fun s _ => by rw [respellText, id, ite_self]
  rw [Expr.respell_id] at agree
  obtain ⟨o, read', same⟩ := agree.exists_ok read
  rw [read] at read'
  cases read'
  cases same with
  | ref same =>
    cases same with
    | inline same => exact same

/-- A definition that is made of an expression is written. -/
theorem Definition.written_of_makeAll {defs : List (String × Expr)} {ds : List Definition}
    (made : makeAll defs = .ok ds) : ∀ d ∈ ds, d.Written := by
  intro d hd
  obtain ⟨p, -, name, bound⟩ := exists_of_forall₂_right (makeAll_cases made) d hd
  exact ⟨p.2, name ▸ bound⟩

/-- Where references are alike one by one to themselves each is alike to itself. -/
theorem Ref.AllAlike.of_mem {items : List Ref} {R : String → String → Prop} {f : String → String}
    (h : Ref.AllAlike R f items items) : ∀ r ∈ items, r.Alike R f r := by
  rw [Ref.allAlike_iff] at h
  exact List.forall₂_same.1 h

/-- The items of a type that reading makes are made by it too. -/
theorem Ty.Made.items {t : Ty} (h : t.Made) : ∀ r ∈ t.items, r.Alike (· = ·) id r :=
  (Ty.Alike.items h).of_mem

/-- A builder that is made by reading stands for a type that is, or it complains. -/
theorem typeNamed_made {builder : Builder}
    (h : (Ref.deferred builder).Alike (· = ·) id (.deferred builder)) (x : String) :
    (∃ t, builder.typeNamed x = .ok t ∧ t.Made) ∨
      ∃ why, builder.typeNamed x = .error (.construction why) := by
  cases h with
  | deferred same =>
    rcases Builder.typeNamed_agree .eq same (rfl : x = x) with
      ⟨t, t', e, e', same⟩ | ⟨_, _, e, -, ⟨why, rfl⟩, -⟩
    · rw [e] at e'
      cases e'
      exact Or.inl ⟨t, e, same⟩
    · exact Or.inr ⟨why, e⟩

/-- What an item stands for differs in spelling only from itself if the item and the name do. -/
theorem Ref.TypedAs.alike {R : String → String → Prop} (m : Matching R) {x : String} (same : R x x)
    {r : Ref} {t : Ty} (typed : r.TypedAs x t) (h : r.Alike R id r) : t.Alike R id t := by
  cases typed with
  | inline =>
    cases h with
    | inline alike => exact alike
  | deferred typed =>
    cases h with
    | deferred alike =>
      obtain ⟨t', typed', alike'⟩ := (Builder.typeNamed_agree m alike same).exists_ok typed
      rw [typed] at typed'
      cases typed'
      exact alike'

/-- An item that reading makes stands for a type that reading makes, whatever its name. -/
theorem Ref.TypedAs.made {x : String} {r : Ref} {t : Ty} (typed : r.TypedAs x t)
    (h : r.Alike (· = ·) id r) : t.Made :=
  typed.alike .eq rfl h

/-- There is a text for each item. -/
theorem length_texts {supply : FreshNames} {items : List Ref} {h : Extracted}
    (e : extractItems supply items = .ok h) : h.texts.length = items.length := by
  induction items generalizing supply h with
  | nil =>
    cases e
    rfl
  | cons r rest ih =>
    obtain ⟨s, h', -, e', rfl⟩ | ⟨t, h', -, e', rfl⟩ := extractItems_cons_cases e
    · rw [List.length_cons, List.length_cons, ih e']
    · rw [List.length_cons, List.length_cons, ih e']

/-- An item stands for every type that is moved out. -/
theorem extractItems_moved {supply : FreshNames} {items : List Ref} {h : Extracted}
    (e : extractItems supply items = .ok h) : ∀ p ∈ h.moved, ∃ r ∈ items, r.TypedAs p.1 p.2 := by
  induction items generalizing supply h with
  | nil =>
    cases e
    exact fun p hp => absurd hp List.not_mem_nil
  | cons r rest ih =>
    obtain ⟨s, h', rfl, e', rfl⟩ | ⟨t, h', typed, e', rfl⟩ := extractItems_cons_cases e
    · intro p hp
      obtain ⟨r, hr, typed⟩ := ih e' p hp
      exact ⟨r, List.mem_cons_of_mem _ hr, typed⟩
    · intro p hp
      rcases List.mem_cons.1 hp with rfl | hp
      · exact ⟨r, List.mem_cons_self, typed⟩
      · obtain ⟨r, hr, typed⟩ := ih e' p hp
        exact ⟨r, List.mem_cons_of_mem _ hr, typed⟩

/-- Naming the types nested in one fails only where a builder among the items fails. -/
theorem extractItems_error {supply : FreshNames} {items : List Ref} {moved : List Nested}
    {err : Failure} (e : extractItems supply items = .error (moved, err)) :
    ∃ builder x, .deferred builder ∈ items ∧ builder.typeNamed x = .error err := by
  induction items generalizing supply moved with
  | nil => cases e
  | cons r rest ih =>
    have later : ∀ {supply' moved'}, extractItems supply' rest = .error (moved', err) →
        ∃ builder x, .deferred builder ∈ r :: rest ∧ builder.typeNamed x = .error err := by
      intro supply' moved' e'
      obtain ⟨builder, x, member, failed⟩ := ih e'
      exact ⟨builder, x, List.mem_cons_of_mem _ member, failed⟩
    cases r with
    | name s =>
      rw [extractItems] at e
      split at e
      · next e' =>
        cases e
        exact later e'
      · cases e
    | inline t =>
      rw [extractItems] at e
      split at e
      · next e' =>
        cases e
        exact later e'
      · cases e
    | deferred builder =>
      rw [extractItems] at e
      split at e
      · next failed =>
        cases e
        exact ⟨builder, _, List.mem_cons_self, failed⟩
      · split at e
        · next e' =>
          cases e
          exact later e'
        · cases e

/-- What is met after the first type of the queue is met in the whole queue. -/
theorem Nested.Met.later {name : String} {t : Ty} {rest moved : List Nested}
    {log : List Extraction} {p : Nested} (h : Nested.Met (rest ++ moved) log p) :
    Nested.Met ((name, t) :: rest) (Extraction.all name moved ++ log) p := by
  rcases h with given | ⟨owner, logged⟩
  · rcases List.mem_append.1 given with given | out
    · exact Or.inl (List.mem_cons_of_mem _ given)
    · exact Or.inr ⟨name, List.mem_append_left _ (List.mem_map.2 ⟨p, out, rfl⟩)⟩
  · exact Or.inr ⟨owner, List.mem_append_right _ logged⟩

/-- A type that has a counterpart is one with texts for its items. -/
theorem Ty.Alike.exists_withTexts {R : String → String → Prop} {f : String → String} {t t' : Ty}
    (h : t.Alike R f t') {texts : List String} (length : texts.length = t'.items.length) :
    ∃ body, t'.withTexts texts = .ok body := by
  cases h with
  | value => exact ⟨_, rfl⟩
  | product => exact ⟨_, rfl⟩
  | union nonempty same =>
    refine ⟨_, if_neg fun none => nonempty ?_⟩
    rw [List.isEmpty_iff_length_eq_zero, length, Ty.items, List.length_eq_zero_iff] at none
    subst none
    cases same
    rfl

/-- Naming nested types fails only where a builder that is met complains. -/
theorem extract_error {supply : FreshNames} {queue : List Nested} {log : List Extraction}
    {err : Failure} (e : extract supply queue = .error (log, err)) (made : ∀ p ∈ queue, p.2.Made) :
    (∃ why, err = .construction why) ∧ ∃ p builder x, Nested.Met queue log p ∧
      .deferred builder ∈ p.2.items ∧ builder.typeNamed x = .error err := by
  fun_induction extract supply queue generalizing log err with
  | case1 => cases e
  | case2 supply name t rest moved err' e' =>
    cases e
    obtain ⟨builder, x, item, failed⟩ := extractItems_error e'
    have first : t.Made := made (name, t) List.mem_cons_self
    refine ⟨?_, (name, t), builder, x, Or.inl List.mem_cons_self, item, failed⟩
    obtain ⟨t', typed, -⟩ | ⟨why, failed'⟩ := typeNamed_made (first.items _ item) x
    · rw [failed] at typed
      cases typed
    · rw [failed] at failed'
      cases failed'
      exact ⟨why, rfl⟩
  | case3 supply name t rest h e' err' refused =>
    have first : t.Made := made (name, t) List.mem_cons_self
    obtain ⟨body, made⟩ := first.exists_withTexts (length_texts e')
    rw [refused] at made
    cases made
  | case4 supply name t rest h e' body _ log' err' e'' ih =>
    cases e
    have later : ∀ p ∈ rest ++ h.moved, p.2.Made := by
      intro p hp
      rcases List.mem_append.1 hp with hp | hp
      · exact made p (List.mem_cons_of_mem _ hp)
      · obtain ⟨r, hr, typed⟩ := extractItems_moved e' p hp
        exact typed.made ((made (name, t) List.mem_cons_self).items r hr)
    obtain ⟨complaint, p, builder, x, met, item, failed⟩ := ih e'' later
    exact ⟨complaint, p, builder, x, met.later, item, failed⟩
  | case5 => cases e

/-- Every builder that is met gives the type that is moved out for it. -/
theorem extract_applied {supply : FreshNames} {queue : List Nested} {log : List Extraction}
    {b : Bindings} (e : extract supply queue = .ok (log, b)) {p : Nested}
    (met : Nested.Met queue log p) {builder : Builder} (item : .deferred builder ∈ p.2.items) :
    ∃ x t, ⟨x, t, p.1⟩ ∈ log ∧ builder.typeNamed x = .ok t := by
  obtain ⟨texts, -, -, -, items⟩ := extract_bodies e met
  obtain ⟨x, -, same | ⟨t, typed, logged⟩⟩ := exists_of_forall₂_left items _ item
  · cases same
  · cases typed with
    | deferred typed => exact ⟨x, t, logged, typed⟩

/-- Naming nested types leaves no union without members. -/
theorem extract_inhabited {supply : FreshNames} {queue : List Nested} {log : List Extraction}
    {b : Bindings} (e : extract supply queue = .ok (log, b)) : ∀ p ∈ b, p.2 ≠ .union [] := by
  induction e using extract_induction with
  | nil =>
    exact fun p hp => absurd hp List.not_mem_nil
  | cons supply name t rest h body log' b' e' made e'' _ ih =>
    refine List.forall_mem_cons.2 ⟨?_, ih⟩
    obtain ⟨tag, -, rfl⟩ | ⟨refs, -, rfl⟩ | ⟨refs, -, nonempty, rfl⟩ := withTexts_cases made
    · nofun
    · nofun
    · intro same
      obtain ⟨x, hx⟩ := List.exists_mem_of_ne_nil _ nonempty
      rw [← List.mem_eraseDups, Body.union.inj same] at hx
      cases hx

/-! ### The outcome -/

/-- How the naming of the types nested in some definitions ends. -/
def Definition.naming (ds : List Definition) :
    Except (List Extraction × Failure) (List Extraction × Bindings) :=
  extract (FreshNames.ofUsed (ds.map (·.name)) "t_") (ds.map fun d => (d.name, d.type))

/-- What comes of definitions. Each condition stands under those before it: no two names are equal,
then naming nested types ends with bindings, then every item of these is a tag or bound, and then
some name has no finite base or none. -/
structure Outcome (ds : List Definition) (result : Except Failure Grammar) : Prop where
  /-- Of equal names the first that repeats an earlier one is reported. -/
  repeated : ¬(ds.map (·.name)).Nodup →
    ∃ name, FirstRepeat (ds.map (·.name)) name ∧ result = .error (.duplicateName name)
  /-- Where naming nested types fails a builder that is met complains, and that is reported. -/
  refused : (ds.map (·.name)).Nodup → ∀ log e, Definition.naming ds = .error (log, e) →
    (∃ why, e = .construction why) ∧ result = .error e ∧ ∃ p builder x,
      Nested.Met (ds.map fun d => (d.name, d.type)) log p ∧ .deferred builder ∈ p.2.items ∧
        builder.typeNamed x = .error e
  /-- Where it does not fail no builder that is met does. -/
  applied : ∀ log b, Definition.naming ds = .ok (log, b) → ∀ p builder,
    Nested.Met (ds.map fun d => (d.name, d.type)) log p → .deferred builder ∈ p.2.items →
      ∃ x t, ⟨x, t, p.1⟩ ∈ log ∧ builder.typeNamed x = .ok t
  /-- Of items that are neither tags nor bound the first is reported. -/
  unbound : (ds.map (·.name)).Nodup → ∀ log b, Definition.naming ds = .ok (log, b) →
    ¬b.AccountedBy b.names → ∃ item owner, b.FirstUnbound item owner ∧
      result = .error (.undefinedName item (some owner))
  /-- Of names that have no finite base before unions are opened one is reported. -/
  endless : (ds.map (·.name)).Nodup → ∀ log b, Definition.naming ds = .ok (log, b) →
    b.AccountedBy b.names → ∀ s, b.Circular s → ∃ name reason, b.Circular name ∧
      result = .error (.noFiniteBase name reason)
  /-- Otherwise there is a grammar. -/
  accepted : (ds.map (·.name)).Nodup → ∀ log b, Definition.naming ds = .ok (log, b) →
    b.AccountedBy b.names → (∀ s, ¬b.Circular s) → ∃ g, result = .ok g
  /-- Whatever aliases lead to once unions are opened is a tag or bound. -/
  found : (ds.map (·.name)).Nodup → ∀ log b flat count, Definition.naming ds = .ok (log, b) →
    b.AccountedBy b.names → b.flatten = .ok (flat, count) → ∀ s t, s ∈ flat.names →
      Relation.ReflTransGen (fun s t => t ∈ flat.next s) s t →
        isTag t = true ∨ ∃ body, flat.lookup t = some body

/-- Definitions whose names are distinct leave bindings that are ready to be flattened, if they are
closed. -/
theorem ready_of_naming {ds : List Definition} {log : List Extraction} {b : Bindings}
    (distinct : (ds.map (·.name)).Nodup) (named : Definition.naming ds = .ok (log, b))
    (accounted : b.AccountedBy b.names) : b.Ready := by
  refine ⟨nodup_of_definitions named distinct, untagged_of_definitions named, accounted,
    fun s found => ?_⟩
  exact extract_inhabited named _ (mem_of_lookup (Bindings.members?_eq_some_iff.1 found))
    rfl

/-- A body is an alias for items of it only. -/
theorem Body.aliases_subset (body : Body) : body.aliases ⊆ body.items := by
  rcases body with tag | items | items
  · exact List.Subset.refl _
  · match items with
    | [] => exact List.nil_subset _
    | [item] => exact List.Subset.refl _
    | _ :: _ :: _ => exact List.nil_subset _
  · exact List.Subset.refl _

/-- In bindings in which every item is a tag or bound aliases lead from what is bound to nothing
else. -/
theorem accounted_of_reached {b : Bindings} (accounted : b.AccountedBy b.names) {s t : String}
    (bound : s ∈ b.names) (way : Relation.ReflTransGen (fun s t => t ∈ b.next s) s t) :
    isTag t = true ∨ ∃ body, b.lookup t = some body := by
  rcases Relation.ReflTransGen.cases_tail way with rfl | ⟨u, -, step⟩
  · exact Or.inr (Bindings.exists_lookup_of_mem_names bound)
  · rcases found : b.lookup u with _ | body
    · rw [Bindings.next, found] at step
      cases step
    · rw [Bindings.next, found] at step
      have item := Body.aliases_subset body step
      exact (accounted _ (mem_of_lookup found) t item).imp_right
        Bindings.exists_lookup_of_mem_names

/-- Of the conditions one holds, so a union is never reported as empty. -/
theorem Outcome.ne_emptyExpansion {ds : List Definition} {result : Except Failure Grammar}
    (h : Outcome ds result) (name : String) : result ≠ .error (.emptyExpansion name) := by
  intro empty
  by_cases distinct : (ds.map (·.name)).Nodup
  · rcases named : Definition.naming ds with ⟨log, e⟩ | ⟨log, b⟩
    · obtain ⟨⟨why, rfl⟩, reported, -⟩ := h.refused distinct log e named
      cases empty ▸ reported
    · by_cases accounted : b.AccountedBy b.names
      · by_cases founded : ∀ s, ¬b.Circular s
        · obtain ⟨g, accepted⟩ := h.accepted distinct log b named accounted founded
          cases empty ▸ accepted
        · obtain ⟨s, circular⟩ := not_forall_not.1 founded
          obtain ⟨name', reason, -, reported⟩ := h.endless distinct log b named accounted s circular
          cases empty ▸ reported
      · obtain ⟨item, owner, -, reported⟩ := h.unbound distinct log b named accounted
        cases empty ▸ reported
  · obtain ⟨name', -, reported⟩ := h.repeated distinct
    cases empty ▸ reported

namespace Definition

variable {ds : List Definition}

/-- No repetition is found among distinct names. -/
theorem firstRepeated_of_nodup (distinct : (ds.map (·.name)).Nodup) :
    firstRepeated [] (ds.map (·.name)) = none := by
  rcases found : firstRepeated [] (ds.map (·.name)) with _ | name
  · exact found
  · exact absurd distinct (firstRepeat_of_firstRepeated found).not_nodup

/-- Where naming nested types fails that is how it ends, after what was logged before. -/
theorem ofDefinitions?_of_error (distinct : (ds.map (·.name)).Nodup) {log : List Extraction}
    {e : Failure} (named : naming ds = .error (log, e)) :
    Grammar.ofDefinitions? ds = (log.map .extracted, .error e) := by
  rw [naming] at named
  simp only [Grammar.ofDefinitions?, firstRepeated_of_nodup distinct, named]

/-- Where nested types have got names the bindings decide, and the log comes first. -/
theorem ofDefinitions?_of_ok (distinct : (ds.map (·.name)).Nodup) {log : List Extraction}
    {b : Bindings} (named : naming ds = .ok (log, b)) :
    Grammar.ofDefinitions? ds = (log.map .extracted ++ (Grammar.ofBindings? ds.length b).1,
      (Grammar.ofBindings? ds.length b).2) := by
  rw [naming] at named
  simp only [Grammar.ofDefinitions?, firstRepeated_of_nodup distinct, named]

/-- What comes of definitions that are written. -/
theorem outcome (written : ∀ d ∈ ds, d.Written) : Outcome ds (Grammar.ofDefinitions? ds).2 := by
  constructor
  case repeated =>
    intro again
    rcases found : firstRepeated [] (ds.map (·.name)) with _ | name
    · exact absurd (nodup_of_firstRepeated found).1 again
    · refine ⟨name, firstRepeat_of_firstRepeated found, ?_⟩
      simp only [Grammar.ofDefinitions?, found]
  case refused =>
    intro distinct log e named
    have made : ∀ p ∈ ds.map fun d => (d.name, d.type), Ty.Made p.2 := by
      intro p hp
      obtain ⟨d, hd, rfl⟩ := List.mem_map.1 hp
      exact (written d hd).made
    obtain ⟨complaint, met⟩ := extract_error named made
    exact ⟨complaint, by rw [ofDefinitions?_of_error distinct named], met⟩
  case applied => exact fun log b named p builder met item => extract_applied named met item
  case unbound =>
    intro distinct log b named missing
    rw [ofDefinitions?_of_ok distinct named]
    rcases found : b.unbound? with _ | ⟨item, owner⟩
    · exact absurd (Bindings.accountedBy_of_unbound?_eq_none found) missing
    · refine ⟨item, owner, Bindings.firstUnbound_of_unbound? found, ?_⟩
      simp only [Grammar.ofBindings?, found]
  case endless =>
    intro distinct log b named accounted s circular
    rw [ofDefinitions?_of_ok distinct named]
    exact (ready_of_naming distinct named accounted).of_circular circular ds.length
  case accepted =>
    intro distinct log b named accounted founded
    rw [ofDefinitions?_of_ok distinct named]
    obtain ⟨flat, count, -, -, result⟩ :=
      (ready_of_naming distinct named accounted).of_founded founded ds.length
    exact ⟨_, by rw [result]⟩
  case found =>
    intro distinct log b flat count named accounted flattened s t bound way
    obtain ⟨-, accounted', -⟩ := (ready_of_naming distinct named accounted).flatten flattened
    exact accounted_of_reached accounted' bound way

end Definition

/-! ### What may be no definition -/

/-- Either all is definitions, or something is none; of that the first is what is reported. -/
theorem Entry.definitions_cases (entries : List Entry) :
    (∃ ds : List Definition, entries = ds.map .definition ∧ Entry.definitions entries = .ok ds) ∨
    ∃ (ds : List Definition) (o : Operand) (rest : List Entry),
      entries = ds.map .definition ++ .other o :: rest ∧
      Entry.definitions entries = .error (.construction (.notADefinition o.literal)) := by
  induction entries with
  | nil => exact Or.inl ⟨[], rfl, rfl⟩
  | cons entry rest ih =>
    cases entry with
    | definition d =>
      obtain ⟨ds, e, found⟩ | ⟨ds, o, rest', e, found⟩ := ih
      · refine Or.inl ⟨d :: ds, by rw [e]; rfl, ?_⟩
        simp only [Entry.definitions, found]
      · refine Or.inr ⟨d :: ds, o, rest', by rw [e]; rfl, ?_⟩
        simp only [Entry.definitions, found]
    | other o => exact Or.inr ⟨[], o, rest, rfl, rfl⟩

/-- What comes of what is handed over, if its definitions are written. If something is no definition
the first such thing is reported; otherwise it is what comes of the definitions. A union is never
reported as empty. -/
theorem ofEntries?_outcome (entries : List Entry)
    (written : ∀ d, Entry.definition d ∈ entries → d.Written) :
    (∀ o, Entry.other o ∈ entries → ∃ (ds : List Definition) (o' : Operand) (rest : List Entry),
      entries = ds.map .definition ++ .other o' :: rest ∧
      (Grammar.ofEntries? entries).2 = .error (.construction (.notADefinition o'.literal))) ∧
    (∀ ds : List Definition, entries = ds.map .definition →
      Outcome ds (Grammar.ofEntries? entries).2) ∧
    ∀ name, (Grammar.ofEntries? entries).2 ≠ .error (.emptyExpansion name) := by
  rw [Grammar.ofEntries?]
  obtain ⟨ds, rfl, found⟩ | ⟨ds, o, rest, rfl, found⟩ := Entry.definitions_cases entries
  · have outcome : Outcome ds (Grammar.ofDefinitions? ds).2 :=
      Definition.outcome fun d hd => written d (List.mem_map_of_mem hd)
    simp only [found]
    refine ⟨fun o ho => ?_, fun ds' same => ?_, outcome.ne_emptyExpansion⟩
    · obtain ⟨d, -, same⟩ := List.mem_map.1 ho
      cases same
    · obtain rfl : ds = ds' :=
        List.map_injective_iff.2 (fun d d' e => Entry.definition.inj e) same
      exact outcome
  · simp only [found]
    refine ⟨fun _ _ => ⟨ds, o, rest, rfl, rfl⟩, fun ds' same => ?_, fun name empty => ?_⟩
    · have member : Entry.other o ∈ ds'.map Entry.definition :=
        same ▸ List.mem_append_right _ List.mem_cons_self
      obtain ⟨d, -, same⟩ := List.mem_map.1 member
      cases same
    · cases empty

/-- Two names that are aliases for each other, one of them by way of a product of one item. -/
def entangled : List (String × Expr) :=
  [("P", .union [.product [.name "Q"], .name "v_x"]), ("Q", .union [.name "P"])]

/-- The definitions, in which the product has no name yet. -/
def entangledDefinitions : List Definition :=
  [⟨"P", .union [.inline (.product [.name "Q"]), .name "v_x"], by decide⟩,
    ⟨"Q", .union [.name "P"], by decide⟩]

/-- The bindings, in which it has got one. -/
def entangledBindings : Bindings :=
  [("P", .union ["t_0", "v_x"]), ("Q", .union ["P"]), ("t_0", .product ["Q"])]

/-- The expressions are read as the definitions. -/
theorem entangled_made : Definition.makeAll entangled = .ok entangledDefinitions := by
  cbv

/-- The product gets the first free name. -/
theorem entangled_named :
    Definition.naming entangledDefinitions =
      .ok ([⟨"t_0", .product [.name "Q"], "P"⟩], entangledBindings) := by
  cbv

/-- From `P` aliases lead by way of the product and of `Q` back to it. -/
theorem entangled_circular : entangledBindings.Circular "P" :=
  .tail (.tail (.single (by decide : "t_0" ∈ entangledBindings.next "P"))
    (by decide : "Q" ∈ entangledBindings.next "t_0")) (by decide : "P" ∈ entangledBindings.next "Q")

/-- Two names that are aliases for each other are refused, since neither has a finite base, although
one of them has a leaf as well. -/
theorem ofEntries?_outcome_entangled :
    ∃ name reason, entangledBindings.Circular name ∧
      (Grammar.ofEntries? (entangledDefinitions.map .definition)).2 =
        .error (.noFiniteBase name reason) := by
  have written : ∀ d, Entry.definition d ∈ entangledDefinitions.map .definition → d.Written := by
    intro d hd
    obtain ⟨d', hd', same⟩ := List.mem_map.1 hd
    cases same
    exact Definition.written_of_makeAll entangled_made d hd'
  have outcome := (ofEntries?_outcome (entangledDefinitions.map .definition) written).2.1 _ rfl
  exact outcome.endless (by decide) _ _ entangled_named (by decide) "P" entangled_circular

end TreeGrammar
