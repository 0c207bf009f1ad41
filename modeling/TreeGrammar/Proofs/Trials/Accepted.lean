import Mathlib
import TreeGrammar.Proofs.Bindings.WellFormed
import TreeGrammar.Proofs.Trials.Drawing

/-!
# Random grammars are accepted

Normalisation accepts the definitions of a random grammar, whatever was drawn. No builder is left in
their types, so naming nested types ends with bindings; all references are to tags or to names that
are given; and aliases lead from a name to an earlier one, or to a product that is no alias.

* `exists_extract`: naming nested types ends with bindings where no builder fails.
* `exists_met_of_mem`: whatever is bound is a type that was met, with texts for its items.
* `Ty.texts`: the texts that stand in a type, also in the types nested in it.
* `RandomGrammar.TameAll.accepted`: such definitions are accepted.
* `RandomGrammar.accepted_always`: random grammars are made and accepted, whatever is drawn.
-/

namespace TreeGrammar

/-! ### What naming nested types leaves -/

/-- Naming nested types ends with bindings if no builder fails and no union is empty, in the types
of the queue and in those nested in them. -/
theorem exists_extract {P Q : Ty → Prop} (sub : ∀ t, Q t → P t)
    (nested : ∀ t, P t → ∀ r ∈ t.items, ∀ x t', r.TypedAs x t' → Q t')
    (builders : ∀ t, P t → ∀ builder, .deferred builder ∈ t.items → ∀ x err,
      builder.typeNamed x ≠ .error err)
    (unions : ∀ items, P (.union items) → items ≠ []) {supply : FreshNames} {queue : List Nested}
    (start : ∀ p ∈ queue, P p.2) :
    ∃ log b, extract supply queue = .ok (log, b) ∧ ∀ x ∈ log, Q x.type := by
  fun_induction extract supply queue with
  | case1 => exact ⟨[], [], rfl, fun x hx => absurd hx List.not_mem_nil⟩
  | case2 supply name t rest moved err e =>
    obtain ⟨builder, x, item, failed⟩ := extractItems_error e
    exact absurd failed (builders t (start _ List.mem_cons_self) builder item x err)
  | case3 supply name t rest h e err refused =>
    cases t with
    | value => cases refused
    | product => cases refused
    | union items =>
      -- only an empty union is refused here
      rw [Ty.withTexts] at refused
      split at refused
      · next empty =>
        rw [List.isEmpty_iff_length_eq_zero, length_texts e, List.length_eq_zero_iff] at empty
        exact absurd empty (unions items (start _ List.mem_cons_self))
      · cases refused
  | case4 supply name t rest h e body made log err e' ih =>
    obtain ⟨log', b, e'', -⟩ := ih fun p hp => (List.mem_append.1 hp).elim
      (fun hp => start p (List.mem_cons_of_mem _ hp)) fun hp => by
        obtain ⟨r, hr, typed⟩ := extractItems_moved e p hp
        exact sub _ (nested t (start _ List.mem_cons_self) r hr p.1 p.2 typed)
    rw [e'] at e''
    cases e''
  | case5 supply name t rest h e body made log b e' ih =>
    have moved : ∀ p ∈ h.moved, Q p.2 := fun p hp => by
      obtain ⟨r, hr, typed⟩ := extractItems_moved e p hp
      exact nested t (start _ List.mem_cons_self) r hr p.1 p.2 typed
    obtain ⟨log', b', e'', later⟩ := ih fun p hp => (List.mem_append.1 hp).elim
      (fun hp => start p (List.mem_cons_of_mem _ hp)) fun hp => sub _ (moved p hp)
    rw [e'] at e''
    cases e''
    refine ⟨_, _, rfl, fun x hx => (List.mem_append.1 hx).elim (fun hx => ?_) (later x)⟩
    obtain ⟨p, hp, rfl⟩ := List.mem_map.1 hx
    exact moved p hp

/-- Whatever is bound is a type that was met, with texts for its items. -/
theorem exists_met_of_mem {supply : FreshNames} {queue : List Nested} {log : List Extraction}
    {b : Bindings} (e : extract supply queue = .ok (log, b)) (distinct : b.names.Nodup) {s : String}
    {body : Body} (member : (s, body) ∈ b) :
    ∃ t texts, Nested.Met queue log (s, t) ∧ t.withTexts texts = .ok body ∧
      List.Forall₂ (Ref.BecomesIn log s) t.items texts := by
  have bound : s ∈ b.names := List.mem_map_of_mem member
  obtain ⟨t, met⟩ : ∃ t, Nested.Met queue log (s, t) := by
    rw [(extract_names e).1, List.mem_append, List.mem_map, List.mem_map] at bound
    obtain ⟨p, hp, rfl⟩ | ⟨x, hx, rfl⟩ := bound
    · exact ⟨p.2, Or.inl hp⟩
    · exact ⟨x.type, Or.inr ⟨x.owner, hx⟩⟩
  obtain ⟨texts, body', made, member', items⟩ := extract_bodies e met
  have same := Bindings.lookup_eq_of_mem distinct member
  rw [Bindings.lookup_eq_of_mem distinct member'] at same
  cases same
  exact ⟨t, texts, met, made, items⟩

/-- A product that is an alias has one item. -/
theorem eq_singleton_of_mem_aliases {texts : List String} {x : String}
    (h : x ∈ (Body.product texts).aliases) : texts = [x] := by
  rcases texts with _ | ⟨y, _ | ⟨z, rest⟩⟩
  · cases h
  · rw [List.mem_singleton.1 h]
  · cases h

/-- The items of a body are among the texts that its type was given. -/
theorem items_subset_of_withTexts {t : Ty} {texts : List String} {body : Body}
    (made : t.withTexts texts = .ok body) : body.items ⊆ texts := by
  obtain ⟨tag, -, rfl⟩ | ⟨items, -, rfl⟩ | ⟨items, -, -, rfl⟩ := withTexts_cases made
  · exact List.nil_subset _
  · exact List.Subset.refl _
  · exact fun x hx => List.mem_eraseDups.1 hx

/-! ### The texts in a type -/

mutual

/-- The texts that stand in a reference, also in the types nested in it. -/
def Ref.texts : Ref → List String
  | .name s => [s]
  | .inline t => t.texts
  | .deferred b => b.texts

/-- The texts that stand in a type, also in the types nested in it. -/
def Ty.texts : Ty → List String
  | .value _ => []
  | .product items => Ref.textsAll items
  | .union items => Ref.textsAll items

/-- The texts that stand in what a builder makes its type of. -/
def Builder.texts : Builder → List String
  | .written _ _ body => body.literals
  | .list _ _ elem => elem.texts

/-- The texts that stand in several references. -/
def Ref.textsAll : List Ref → List String
  | [] => []
  | r :: rest => r.texts ++ Ref.textsAll rest

end

/-- A text stands in several references exactly if it stands in one of them. -/
theorem Ref.mem_textsAll {s : String} {items : List Ref} :
    s ∈ Ref.textsAll items ↔ ∃ r ∈ items, s ∈ r.texts := by
  induction items with
  | nil => simp [Ref.textsAll]
  | cons r rest ih => simp [Ref.textsAll, ih]

/-- A text stands in a type exactly if it stands in one of its items. -/
theorem Ty.mem_texts {s : String} {t : Ty} : s ∈ t.texts ↔ ∃ r ∈ t.items, s ∈ r.texts := by
  cases t with
  | value => simp [Ty.texts, Ty.items]
  | product => rw [Ty.texts, Ref.mem_textsAll, Ty.items]
  | union => rw [Ty.texts, Ref.mem_textsAll, Ty.items]

/-- Every text in the types of some definitions is a tag, or the name of one of them. -/
def Definition.Closed (ds : List Definition) : Prop :=
  ∀ d ∈ ds, ∀ s ∈ d.type.texts, isTag s = true ∨ s ∈ ds.map (·.name)

namespace RandomGrammar

variable {n : Nat} {ds : List Definition}

/-- In what may stand in a random grammar of `n` definitions, nested or not, there are tags and
names of these only. -/
theorem Before.texts {r : Ref} (h : Before n r) {s : String} (hs : s ∈ r.texts) :
    isTag s = true ∨ ∃ k < n, s = nameOf k := by
  obtain ⟨s', rfl, known⟩ := h
  rw [Ref.texts, List.mem_singleton] at hs
  exact hs ▸ known

/-- The texts in a member are tags or names of the grammar. -/
theorem Member.texts {r : Ref} (h : Member n n r) {s : String} (hs : s ∈ r.texts) :
    isTag s = true ∨ ∃ k < n, s = nameOf k := by
  obtain before | ⟨t, rfl, each, -⟩ := h
  · exact before.texts hs
  · rw [Ref.texts, Ty.texts, Ref.mem_textsAll] at hs
    obtain ⟨r, hr, hs⟩ := hs
    exact (each r hr).texts hs

/-- What is a tag or a name is no type that is given a name. -/
theorem not_typedAs_of_before {i : Nat} {r : Ref} {x : String} {t : Ty} (before : Before i r) :
    ¬r.TypedAs x t := by
  obtain ⟨s, rfl, -⟩ := before
  intro typed
  cases typed

/-- The items of a type are tags and names, or they are products that are no aliases. -/
theorem Tame.items {i : Nat} {t : Ty} (h : Tame n i t) (le : i ≤ n) :
    ∀ r ∈ t.items, Member n n r := by
  cases h with
  | product each => exact fun r hr => Or.inl (each r hr)
  | union _ each => exact fun r hr => (each r hr).imp_left fun before => before.mono le

namespace TameAll

variable (tame : TameAll n ds)
include tame

/-- The definitions have the names of the grammar, in order. -/
theorem names_eq : ds.map (·.name) = (List.range n).map nameOf := by
  rw [TameAll] at tame
  generalize List.range n = numbers at tame ⊢
  induction tame with
  | nil => rfl
  | cons first _ ih => rw [List.map_cons, List.map_cons, first.1, ih]

/-- The names of the definitions are distinct. -/
theorem nodup : (ds.map (·.name)).Nodup := by
  rw [tame.names_eq]
  exact List.Nodup.map nameOf_injective List.nodup_range

/-- The names of the definitions are those with a number below `n`. -/
theorem mem_names_iff {s : String} : s ∈ ds.map (·.name) ↔ ∃ i < n, s = nameOf i := by
  rw [tame.names_eq, List.mem_map]
  simp only [List.mem_range, eq_comm]

/-- The definition with a given name. -/
theorem tame_of_mem {d : Definition} (hd : d ∈ ds) :
    ∃ i < n, d.name = nameOf i ∧ Tame n i d.type := by
  obtain ⟨i, hi, named, type⟩ := exists_of_forall₂_left tame d hd
  exact ⟨i, List.mem_range.1 hi, named, type⟩

/-- Naming nested types ends with bindings, and moves out products only that are no aliases. -/
theorem exists_naming : ∃ log b, Definition.naming ds = .ok (log, b) ∧
    ∀ x ∈ log, Compound n x.type := by
  refine exists_extract (P := fun t => ∃ i ≤ n, Tame n i t) (Q := Compound n)
    (fun t h => ⟨n, le_rfl, h.tame n⟩) ?_ ?_ ?_ ?_
  · rintro t ⟨i, le, h⟩ r hr x t' typed
    obtain before | ⟨t'', rfl, compound⟩ := h.items le r hr
    · exact absurd typed (not_typedAs_of_before before)
    · cases typed
      exact compound
  · rintro t ⟨i, le, h⟩ builder hb
    obtain ⟨s, same, -⟩ | ⟨t'', same, -⟩ := h.items le _ hb
    · cases same
    · cases same
  · rintro items ⟨i, -, h⟩
    cases h with
    | union nonempty => exact nonempty
  · intro p hp
    obtain ⟨d, hd, rfl⟩ := List.mem_map.1 hp
    obtain ⟨i, lt, -, type⟩ := tame.tame_of_mem hd
    exact ⟨i, lt.le, type⟩

/-- A tag or an earlier name stays what it is. -/
theorem becomes_cases {log : List Extraction} {owner x : String} {r : Ref}
    (item : r.BecomesIn log owner x) {i : Nat} (before : Before i r) :
    (∃ k < i, x = nameOf k) ∨ x ∉ ds.map (·.name) := by
  obtain rfl | ⟨t', typed, -⟩ := item
  · obtain ⟨s', same, tag | given⟩ := before
    · cases same
      refine Or.inr fun given => ?_
      obtain ⟨k, -, rfl⟩ := tame.mem_names_iff.1 given
      exact absurd tag (Bool.eq_false_iff.1 (isDefinable_nameOf k).2)
    · cases same
      exact Or.inl given
  · exact absurd typed (not_typedAs_of_before before)

/-- All texts refer to tags and names that are given. -/
theorem closed : Definition.Closed ds := by
  intro d hd s hs
  obtain ⟨i, lt, -, type⟩ := tame.tame_of_mem hd
  obtain ⟨r, hr, inner⟩ := Ty.mem_texts.1 hs
  rw [tame.mem_names_iff]
  exact (type.items lt.le r hr).texts inner

variable {log : List Extraction} {b : Bindings} (named : Definition.naming ds = .ok (log, b))
include named

/-- A name that was handed out is new, and no text refers to it. -/
theorem handedOut_apart {x : Extraction} (logged : x ∈ log) :
    x.name ∉ ds.map (·.name) ∧ ∀ d ∈ ds, x.name ∉ d.type.texts := by
  have new : x.name ∉ ds.map (·.name) :=
    notMem_of_logged named (List.mem_map.2 ⟨x, logged, rfl⟩)
  refine ⟨new, fun d hd written => ?_⟩
  have bound : x.name ∈ b.names := by
    rw [names_of_definitions named]
    exact List.mem_append_right _ (List.mem_map.2 ⟨x, logged, rfl⟩)
  have untagged := untagged_iff.1 (untagged_of_definitions named) _ bound
  exact (tame.closed d hd _ written).elim untagged new

variable (moved : ∀ x ∈ log, Compound n x.type)
include moved

/-- A type that is met is that of a definition, or it was moved out. -/
theorem met_cases {s : String} {t : Ty}
    (met : Nested.Met (ds.map fun d => (d.name, d.type)) log (s, t)) :
    (∃ i < n, s = nameOf i ∧ Tame n i t) ∨ s ∉ ds.map (·.name) ∧ Compound n t := by
  obtain given | ⟨owner, logged⟩ := met
  · obtain ⟨d, hd, same⟩ := List.mem_map.1 given
    cases same
    exact Or.inl (tame.tame_of_mem hd)
  · exact Or.inr ⟨notMem_of_logged named (List.mem_map.2 ⟨_, logged, rfl⟩), moved _ logged⟩

/-- Every item is a tag or bound. -/
theorem accounted : b.AccountedBy b.names := by
  have distinct := nodup_of_definitions named tame.nodup
  have names := names_of_definitions named
  rintro ⟨s, body⟩ member x item
  obtain ⟨t, texts, met, made, becomes⟩ := exists_met_of_mem named distinct member
  obtain ⟨r, hr, same | ⟨t', -, logged⟩⟩ :=
    exists_of_forall₂_right becomes x (items_subset_of_withTexts made item)
  · have before : Member n n r := by
      obtain ⟨i, lt, -, h⟩ | ⟨-, h⟩ := tame.met_cases named moved met
      · exact h.items lt.le r hr
      · exact (h.tame n).items le_rfl r hr
    subst same
    obtain ⟨s', same, known⟩ | ⟨t', same, -⟩ := before
    · cases same
      refine known.imp_right fun given => ?_
      rw [names]
      exact List.mem_append_left _ (tame.mem_names_iff.2 given)
    · cases same
  · refine Or.inr ?_
    rw [names]
    exact List.mem_append_right _ (List.mem_map.2 ⟨_, logged, rfl⟩)

/-- An alias of a name leads to an earlier one, or to what is no definition. -/
theorem next_cases {s x : String} (step : x ∈ b.next s) :
    ∃ i < n, s = nameOf i ∧ ((∃ k < i, x = nameOf k) ∨ x ∉ ds.map (·.name)) := by
  have distinct := nodup_of_definitions named tame.nodup
  obtain ⟨body, found⟩ := Bindings.exists_lookup_of_mem_names (Bindings.mem_names_of_next step)
  rw [Bindings.next, found] at step
  obtain ⟨t, texts, met, made, becomes⟩ :=
    exists_met_of_mem named distinct (mem_of_lookup found)
  obtain ⟨r, hr, item⟩ := exists_of_forall₂_right becomes x
    (items_subset_of_withTexts made (Body.aliases_subset body step))
  have length := becomes.length_eq
  obtain ⟨i, lt, rfl, h⟩ | ⟨-, h⟩ := tame.met_cases named moved met
  · refine ⟨i, lt, rfl, ?_⟩
    cases h with
    | product _ single =>
      cases made
      obtain rfl := eq_singleton_of_mem_aliases step
      exact tame.becomes_cases item (single length r hr)
    | union _ each =>
      obtain before | ⟨t', rfl, -⟩ := each r hr
      · exact tame.becomes_cases item before
      · obtain same | ⟨t'', -, logged⟩ := item
        · cases same
        · exact Or.inr (notMem_of_logged named (List.mem_map.2 ⟨_, logged, rfl⟩))
  · obtain ⟨-, other⟩ := h
    cases made
    obtain rfl := eq_singleton_of_mem_aliases step
    exact absurd length other

/-- No name is an alias for itself. -/
theorem founded (s : String) : ¬b.Circular s := by
  have others : ∀ x, x ∉ ds.map (·.name) → Acc (fun t s => t ∈ b.next s) x := by
    refine fun x hx => ⟨x, fun y step => ?_⟩
    obtain ⟨i, lt, rfl, -⟩ := tame.next_cases named moved step
    exact absurd (tame.mem_names_iff.2 ⟨i, lt, rfl⟩) hx
  have given : ∀ i, Acc (fun t s => t ∈ b.next s) (nameOf i) := by
    intro i
    induction i using Nat.strong_induction_on with
    | _ i ih =>
      refine ⟨_, fun y step => ?_⟩
      obtain ⟨j, -, same, ⟨k, lt, rfl⟩ | other⟩ := tame.next_cases named moved step
      · exact ih k (nameOf_injective same ▸ lt)
      · exact others y other
  have wf : WellFounded fun t s => t ∈ b.next s := by
    refine ⟨fun s => ?_⟩
    by_cases known : s ∈ ds.map (·.name)
    · obtain ⟨i, -, rfl⟩ := tame.mem_names_iff.1 known
      exact given i
    · exact others s known
  intro circular
  exact wf.transGen.irrefl.irrefl s (Relation.transGen_swap.1 circular)

omit named moved in
/-- Definitions with such types are accepted. -/
theorem accepted : ∃ g, (Grammar.ofDefinitions? ds).2 = .ok g := by
  obtain ⟨log, b, named, moved⟩ := tame.exists_naming
  have ready := ready_of_naming tame.nodup named (tame.accounted named moved)
  obtain ⟨flat, count, -, -, built⟩ := ready.of_founded (tame.founded named moved) ds.length
  exact ⟨_, by rw [Definition.ofDefinitions?_of_ok tame.nodup named, built]⟩

end TameAll

/-- Whatever is drawn, a random grammar of `n` definitions is made, with the names it should have,
and accepted. No two names are equal, and every reference, nested or not, is to a tag or a name
that is given. The names that nested types get are new, and no reference is to one of them. No name
is an alias for itself, neither before unions are opened nor in the grammar. -/
theorem accepted_always (n : Nat) : Draw.Succeeds (fun ds =>
    ds.map (·.name) = (List.range n).map (fun i => "t_g" ++ toString i) ∧
    (ds.map (·.name)).Nodup ∧ Definition.Closed ds ∧
    ∃ log b events g, Definition.naming ds = .ok (log, b) ∧
      Grammar.ofDefinitions? ds = (events, .ok g) ∧
      (∀ x ∈ log, x.name ∉ ds.map (·.name) ∧ ∀ d ∈ ds, x.name ∉ d.type.texts) ∧
      (∀ s, ¬b.Circular s) ∧ ∀ mode, ¬g.Cyclic mode) (definitions n) := by
  refine (succeeds_definitions n).mono fun ds tame => ?_
  obtain ⟨log, b, named, moved⟩ := tame.exists_naming
  obtain ⟨g, built⟩ := tame.accepted
  have built' : Grammar.ofDefinitions? ds = (_, .ok g) := Prod.ext rfl built
  have normal := Grammar.ofDefinitions?_normal built'
  exact ⟨tame.names_eq, tame.nodup, tame.closed, log, b, _, g, named, built',
    fun x logged => tame.handedOut_apart named logged, tame.founded named moved, normal.acyclic⟩

end RandomGrammar

end TreeGrammar
