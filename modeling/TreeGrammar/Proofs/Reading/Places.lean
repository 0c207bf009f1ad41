import Mathlib
import TreeGrammar.Proofs.Bindings.Unions
import TreeGrammar.Proofs.Bindings.WellFormed
import TreeGrammar.Proofs.Reading.Restoring
import TreeGrammar.Proofs.Trees.Chains

/-!
# Where nested expressions end up

An expression stands at a place of a definition that a path leads to. Reading the definition and
naming what is nested in it give the place a name: that of the definition, or one that was handed
out for the item that the expression is read as. What is bound there is the expression, as it is
read for this name.

* `Expr.parts`, `Expr.at?`: the expressions inside an expression.
* `Place`, `Place.Step`, `Place.Leads`: the places that paths lead to.
* `Place.Sound`, `Place.Sound.step`, `Place.Sound.leads`: what is bound at a place.
* `Place.Sound.exists_leads`: every list that is written ends up at a place.
* `lists_kept`: lists are recognised where they end up, and their trees are read without loss.
-/

namespace TreeGrammar

/-! ### Paths in expressions -/

namespace Expr

/-- The expressions that an expression is put together of, in order. -/
def parts : Expr → List Expr
  | name _ => []
  | raw _ => []
  | value _ => []
  | product items => items
  | union items => items
  | list _ elem => [elem]
  | mu _ body => [body]
  | var _ => []
  | closed e => [e]

/-- The expression that a path leads to. -/
def at? (e : Expr) : List Nat → Option Expr
  | [] => some e
  | i :: path =>
    match e.parts[i]? with
    | some part => part.at? path
    | none => none

/-- The binders in a part are binders in the whole. -/
theorem binders_parts {e part : Expr} (h : part ∈ e.parts) : ∀ p ∈ part.binders, p ∈ e.binders := by
  intro p hp
  cases e with
  | name | raw | value | var => cases h
  | product items | union items =>
    rw [binders]
    exact mem_bindersAll.2 ⟨part, h, hp⟩
  | list label elem =>
    obtain rfl := List.mem_singleton.1 h
    rw [binders]
    exact List.mem_cons_of_mem _ hp
  | mu label body =>
    obtain rfl := List.mem_singleton.1 h
    rw [binders]
    exact List.mem_cons_of_mem _ hp
  | closed inner =>
    obtain rfl := List.mem_singleton.1 h
    rwa [binders]

/-- Only a name and a value are stored as a text. -/
theorem store_eq_name {former : Former} {r : Ref} {s : String}
    (stored : store former (.ref r) = .ok (.name s)) :
    r = .name s ∨ ∃ tag, r = .inline (.value tag) := by
  rcases store_cases stored with ⟨tag, e, -⟩ | e
  · cases e
    exact Or.inr ⟨tag, rfl⟩
  · cases e
    exact Or.inl rfl

/-- An expression in which a list is written is stored as something that is no name. -/
theorem ne_name_of_at? {label : Nat} {elem : Expr} (e : Expr) {path : List Nat}
    (there : e.at? path = some (.list label elem)) {former : Former} {scope : List String} {r : Ref}
    (stored : e.Stored former scope r) (s : String) : r ≠ .name s := by
  rintro rfl
  obtain ⟨o, read, stored⟩ := stored
  cases e with
  | name | raw | value | var => cases path <;> cases there
  | product items =>
    obtain ⟨refs, rfl, -⟩ := product_cases read
    rcases store_eq_name stored with e | ⟨tag, e⟩ <;> cases e
  | union items =>
    obtain ⟨refs, rfl, -⟩ := union_cases read
    rcases store_eq_name stored with e | ⟨tag, e⟩ <;> cases e
  | list label elem =>
    obtain ⟨r, rfl, -⟩ := list_cases read
    rcases store_eq_name stored with e | ⟨tag, e⟩ <;> cases e
  | mu label body =>
    rw [eval] at read
    cases read
    rcases store_eq_name stored with e | ⟨tag, e⟩ <;> cases e
  | closed inner =>
    rw [eval] at read
    cases path with
    | nil => cases there
    | cons i path =>
      cases i with
      | zero => exact ne_name_of_at? inner there ⟨o, read, stored⟩ s rfl
      | succ i => cases there

end Expr

/-! ### Places -/

/-- An expression where it stands: with the names given to the binders around it, innermost first,
the name that it is bound to, and the type bound there before nested types are moved out of it. -/
structure Place where
  expr : Expr
  scope : List String
  name : String
  type : Ty

namespace Place

/-- The place of a part of an expression. An item of a product is found in its position, and a
member of a union in the position of the one that is kept for it; both are moved out under the name
that stands there. A binder gives its own name to the variable of its body, and the element type of
a list is the first item of the cells. -/
inductive Step (log : List Extraction) (b : Bindings) : Place → Nat → Place → Prop
  | item {items : List Expr} {refs : List Ref} {texts scope : List String} {i : Nat} {e : Expr}
      {r : Ref} {s x : String} {u : Ty} (part : items[i]? = some e) (item : refs[i]? = some r)
      (bound : b.lookup s = some (.product texts)) (text : texts[i]? = some x)
      (typed : r.TypedAs x u) (moved : ⟨x, u, s⟩ ∈ log) :
      Step log b ⟨.product items, scope, s, .product refs⟩ i ⟨e, scope, x, u⟩
  | member {items : List Expr} {refs : List Ref} {texts scope : List String} {i j : Nat} {e : Expr}
      {r kept : Ref} {s x : String} {u : Ty} (part : items[i]? = some e)
      (stored : e.Stored .union scope r) (item : refs[j]? = some kept)
      (form : kept.canonical = r.canonical) (bound : b.lookup s = some (.union texts))
      (text : texts[j]? = some x) (typed : kept.TypedAs x u) (moved : ⟨x, u, s⟩ ∈ log) :
      Step log b ⟨.union items, scope, s, .union refs⟩ i ⟨e, scope, x, u⟩
  | element {label : Nat} {elem : Expr} {r : Ref} {scope : List String} {s cell x : String} {u : Ty}
      (list : b.lookup s = some (.union [emptyList, cell]))
      (pair : b.lookup cell = some (.product [x, s])) (typed : r.TypedAs x u)
      (moved : ⟨x, u, cell⟩ ∈ log) :
      Step log b
        ⟨.list label elem, scope, s, .union [.name emptyList, .inline (.product [r, .name s])]⟩ 0
        ⟨elem, scope, x, u⟩
  | body {label : Nat} {body : Expr} {scope : List String} {s : String} {t : Ty} :
      Step log b ⟨.mu label body, scope, s, t⟩ 0 ⟨body, s :: scope, s, t⟩
  | inside {e : Expr} {scope : List String} {s : String} {t : Ty} :
      Step log b ⟨.closed e, scope, s, t⟩ 0 ⟨e, [], s, t⟩

/-- A path leads from one place to another. -/
inductive Leads (log : List Extraction) (b : Bindings) : Place → List Nat → Place → Prop
  | here (p : Place) : Leads log b p [] p
  | there {p q r : Place} {i : Nat} {path : List Nat} (step : Step log b p i q)
      (rest : Leads log b q path r) : Leads log b p (i :: path) r

/-- What is bound at a place is met while nested types are named, and it is the type that the
expression is read as for the name, or one with the same canonical form that a union has kept in its
stead. Builders are not replaced in this way. -/
structure Sound (bs : List (Nat × Expr)) (queue : List Nested) (log : List Extraction) (p : Place) :
    Prop where
  binders : ∀ q ∈ p.expr.binders, q ∈ bs
  met : Nested.Met queue log (p.name, p.type)
  origin : p.type.From bs
  read : ∃ t, p.expr.bindTo p.name p.scope = .ok (.ref (.inline t)) ∧
    p.type.canonical = t.canonical ∧
    ∀ builder, p.expr.eval p.scope = .ok (.ref (.deferred builder)) → p.type = t

end Place

/-! ### The items of a type -/

/-- What has the canonical forms of what some expressions are stored as. -/
theorem forall₂_of_forms {former : Former} {scope : List String} {es : List Expr}
    {refs stored : List Ref} (each : List.Forall₂ (Expr.Stored former scope) es stored)
    (forms : refs.map Ref.canonical = stored.map Ref.canonical) :
    List.Forall₂ (fun e r => ∃ r', e.Stored former scope r' ∧ r.canonical = r'.canonical) es
      refs := by
  induction each generalizing refs with
  | nil =>
    obtain rfl := List.map_eq_nil_iff.1 forms
    exact .nil
  | cons first _ ih =>
    obtain ⟨r, rest, rfl, form, forms⟩ := List.map_eq_cons_iff.1 forms
    exact .cons ⟨_, first, form⟩ (ih forms)

section

variable {bs : List (Nat × Expr)} {queue : List Nested} {log : List Extraction} {b : Bindings}

/-- A type that is moved out for an item is bound at the place of an expression that is stored as
this item, or as one with the same canonical form. -/
theorem Place.sound_of_stored (apart : LabelsApart bs) {e : Expr} {former : Former}
    {scope : List String} {r kept : Ref} {x owner : String} {u : Ty}
    (within : ∀ p ∈ e.binders, p ∈ bs) (stored : e.Stored former scope r)
    (form : kept.canonical = r.canonical) (origin : kept.From bs) (typed : kept.TypedAs x u)
    (moved : ⟨x, u, owner⟩ ∈ log) :
    Place.Sound bs queue log ⟨e, scope, x, u⟩ := by
  obtain ⟨o, read, stored⟩ := stored
  cases typed with
  | inline =>
    obtain ⟨u', rfl, same⟩ := Ref.eq_inline_of_canonical form.symm
    obtain ⟨tag, -, e⟩ | rfl := store_cases stored
    · cases e
    · refine ⟨within, Or.inr ⟨owner, moved⟩, origin, u', ?_, same.symm, fun builder again => ?_⟩
      · rw [Expr.bindTo_eq, read]
        rfl
      · rw [read] at again
        cases again
  | @deferred builder _ typed =>
    obtain ⟨builder', rfl, mark⟩ := Ref.eq_deferred_of_canonical form.symm
    obtain ⟨tag, -, e⟩ | rfl := store_cases stored
    · cases e
    · obtain rfl := Builder.From.eq_of_mark apart (Expr.from_eval e within read) origin mark
      have bound : e.bindTo x scope = .ok (.ref (.inline u)) := by
        rw [Expr.bindTo_eq, read]
        exact bindTo_of_typeNamed typed
      exact ⟨within, Or.inr ⟨owner, moved⟩, Expr.from_bindTo e within bound, u, bound, rfl,
        fun _ _ => rfl⟩

namespace Place.Sound

variable {p q : Place} {i : Nat}

/-- What is bound at the place of a list. -/
theorem list_type {label : Nat} {elem : Expr} {scope : List String} {s : String} {t : Ty}
    (h : Place.Sound bs queue log ⟨.list label elem, scope, s, t⟩) :
    ∃ r, t = .union [.name emptyList, .inline (.product [r, .name s])] ∧
      elem.Stored .list scope r := by
  obtain ⟨t', read, -, same⟩ := h.read
  obtain ⟨r, rfl, stored, deferred⟩ := bindTo_list_cases read
  exact ⟨r, same _ deferred, stored⟩

/-- The items of a product have the canonical forms of what its parts are stored as. -/
theorem product_items {items : List Expr} {scope : List String} {s : String} {t : Ty}
    (h : Place.Sound bs queue log ⟨.product items, scope, s, t⟩) :
    ∃ refs, t = .product refs ∧ List.Forall₂ (fun e r => ∃ r', e.Stored .product scope r' ∧
      r.canonical = r'.canonical) items refs := by
  obtain ⟨t', read, form, -⟩ := h.read
  obtain ⟨stored, e, each⟩ := product_cases read
  cases e
  obtain ⟨refs, rfl, forms⟩ := Ty.eq_product_of_canonical form
  exact ⟨refs, rfl, forall₂_of_forms each forms⟩

/-- The members of a union have the canonical forms of what is kept of its parts. -/
theorem union_members {items : List Expr} {scope : List String} {s : String} {t : Ty}
    (h : Place.Sound bs queue log ⟨.union items, scope, s, t⟩) :
    ∃ refs stored, t = .union refs ∧
      (refs.map Ref.canonical).Perm ((Ref.distinct stored).map Ref.canonical) ∧
      List.Forall₂ (Expr.Stored .union scope) items stored := by
  obtain ⟨t', read, form, -⟩ := h.read
  obtain ⟨stored, e, each⟩ := union_cases read
  cases e
  obtain ⟨refs, rfl, forms⟩ := Ty.eq_union_of_canonical form
  exact ⟨refs, stored, rfl, forms, each⟩

/-- What is bound at the place of a part. -/
theorem step (apart : LabelsApart bs) (h : p.Sound bs queue log) (step : Step log b p i q) :
    q.Sound bs queue log ∧ p.expr.parts[i]? = some q.expr := by
  have within : ∀ part, p.expr.parts[i]? = some part → ∀ q ∈ part.binders, q ∈ bs :=
    fun part there q hq => h.binders q (Expr.binders_parts (List.mem_of_getElem? there) q hq)
  cases step with
  | item part item bound text typed moved =>
    refine ⟨?_, part⟩
    obtain ⟨refs, e, each⟩ := h.product_items
    cases e
    obtain ⟨r, item', r', stored, form⟩ := exists_getElem?_of_forall₂_left each part
    rw [item] at item'
    cases item'
    exact sound_of_stored apart (within _ part) stored form
      (Ref.allFrom_iff.1 h.origin _ (List.mem_of_getElem? item)) typed moved
  | member part stored item form bound text typed moved =>
    exact ⟨sound_of_stored apart (within _ part) stored form
      (Ref.allFrom_iff.1 h.origin _ (List.mem_of_getElem? item)) typed moved, part⟩
  | element list pair typed moved =>
    refine ⟨?_, rfl⟩
    obtain ⟨r, e, stored⟩ := h.list_type
    cases e
    have cells := Ref.allFrom_iff.1 h.origin _ (List.mem_cons_of_mem _ List.mem_cons_self)
    exact sound_of_stored apart (within _ rfl) stored rfl
      (Ref.allFrom_iff.1 cells _ List.mem_cons_self) typed moved
  | body =>
    obtain ⟨t, read, -, same⟩ := h.read
    rw [Expr.bindTo] at read
    cases same _ (by rw [Expr.eval])
    exact ⟨⟨within _ rfl, h.met, h.origin, _, read, rfl, fun _ _ => rfl⟩, rfl⟩
  | inside =>
    obtain ⟨t, read, form, same⟩ := h.read
    rw [Expr.bindTo] at read
    rw [Expr.eval] at same
    exact ⟨⟨within _ rfl, h.met, h.origin, t, read, form, same⟩, rfl⟩

/-- What is bound where a path leads. -/
theorem leads (apart : LabelsApart bs) (h : p.Sound bs queue log) {path : List Nat}
    (leads : Leads log b p path q) : q.Sound bs queue log ∧ p.expr.at? path = some q.expr := by
  induction leads with
  | here p => exact ⟨h, rfl⟩
  | there step _ ih =>
    obtain ⟨sound, part⟩ := h.step apart step
    obtain ⟨sound, there⟩ := ih sound
    refine ⟨sound, ?_⟩
    rw [Expr.at?, part]
    exact there

/-! ### Lists end up somewhere -/

variable (named : ∀ p, Nested.Met queue log p →
  ∃ texts, b.lookup p.1 = some (p.2.refilled texts) ∧
    List.Forall₂ (Ref.BecomesIn log p.1) p.2.items texts)
include named

/-- The place of a list is bound to the empty list and cells, which are bound to pairs. The element
type is a text that stands in the cells, or it is moved out of them. -/
theorem list_bound {label : Nat} {elem : Expr} {scope : List String} {s : String} {t : Ty}
    (h : Place.Sound bs queue log ⟨.list label elem, scope, s, t⟩) :
    ∃ r cell x, t = .union [.name emptyList, .inline (.product [r, .name s])] ∧
      elem.Stored .list scope r ∧ b.lookup s = some (.union [emptyList, cell]) ∧
      b.lookup cell = some (.product [x, s]) ∧ r.BecomesIn log cell x := by
  obtain ⟨r, rfl, stored⟩ := h.list_type
  obtain ⟨texts, list, items⟩ := named _ h.met
  obtain ⟨empty, _, first, others, rfl⟩ := List.forall₂_cons_left_iff.1 items
  obtain ⟨cell, _, second, none, rfl⟩ := List.forall₂_cons_left_iff.1 others
  obtain rfl := List.forall₂_nil_left_iff.1 none
  obtain same | ⟨u, typed, -⟩ := first
  · cases same
    obtain same | ⟨u, typed, moved⟩ := second
    · cases same
    · cases typed
      obtain ⟨texts, pair, items⟩ := named (cell, .product [r, .name s]) (Or.inr ⟨s, moved⟩)
      obtain ⟨x, _, first, others, rfl⟩ := List.forall₂_cons_left_iff.1 items
      obtain ⟨s', _, second, none, rfl⟩ := List.forall₂_cons_left_iff.1 others
      obtain rfl := List.forall₂_nil_left_iff.1 none
      obtain same | ⟨u, typed, -⟩ := second
      · cases same
        exact ⟨r, cell, x, rfl, stored, list, pair, first⟩
      · cases typed
  · cases typed

/-- A part that is stored as something that is no name has a place. -/
theorem exists_step (h : p.Sound bs queue log) {part : Expr} (there : p.expr.parts[i]? = some part)
    (other : ∀ {former scope r}, part.Stored former scope r → ∀ s, r ≠ .name s) :
    ∃ q, Step log b p i q ∧ q.expr = part := by
  have moved : ∀ {former scope} {r kept : Ref} {owner x : String}, part.Stored former scope r →
      kept.canonical = r.canonical → kept.BecomesIn log owner x →
      ∃ u, kept.TypedAs x u ∧ ⟨x, u, owner⟩ ∈ log := by
    intro former scope r kept owner x stored form becomes
    refine becomes.resolve_left fun same => ?_
    rw [same] at form
    exact other stored x (Ref.eq_name_of_canonical form.symm)
  obtain ⟨e, scope, s, t⟩ := p
  cases e with
  | name | raw | value | var => cases there
  | product items =>
    obtain ⟨refs, rfl, each⟩ := h.product_items
    obtain ⟨texts, bound, become⟩ := named _ h.met
    obtain ⟨r, item, r', stored, form⟩ := exists_getElem?_of_forall₂_left each there
    obtain ⟨x, text, becomes⟩ := exists_getElem?_of_forall₂_left become item
    obtain ⟨u, typed, logged⟩ := moved stored form becomes
    exact ⟨_, .item there item bound text typed logged, rfl⟩
  | union items =>
    obtain ⟨refs, stored, rfl, forms, each⟩ := h.union_members
    obtain ⟨texts, bound, become⟩ := named _ h.met
    obtain ⟨r, item, stored⟩ := exists_getElem?_of_forall₂_left each there
    -- the union may have dropped the part for an earlier one of its form
    obtain ⟨kept, member, form⟩ := List.mem_map.1
      (forms.symm.subset (Ref.canonical_mem_distinct (List.mem_of_getElem? item)))
    obtain ⟨j, place⟩ := List.mem_iff_getElem?.1 member
    obtain ⟨x, text, becomes⟩ := exists_getElem?_of_forall₂_left become place
    obtain ⟨u, typed, logged⟩ := moved stored form becomes
    exact ⟨_, .member there stored place form bound text typed logged, rfl⟩
  | list label elem =>
    obtain ⟨r, cell, x, rfl, stored, list, pair, becomes⟩ := h.list_bound named
    cases i with
    | zero =>
      cases there
      obtain ⟨u, typed, logged⟩ := moved stored rfl becomes
      exact ⟨_, .element list pair typed logged, rfl⟩
    | succ i => cases there
  | mu label body =>
    cases i with
    | zero =>
      cases there
      exact ⟨_, .body, rfl⟩
    | succ i => cases there
  | closed e =>
    cases i with
    | zero =>
      cases there
      exact ⟨_, .inside, rfl⟩
    | succ i => cases there

/-- A path to a list leads to a place. -/
theorem exists_leads (apart : LabelsApart bs) (h : p.Sound bs queue log) {path : List Nat}
    {label : Nat} {elem : Expr} (there : p.expr.at? path = some (.list label elem)) :
    ∃ q, Leads log b p path q := by
  induction path generalizing p with
  | nil => exact ⟨p, .here p⟩
  | cons i path ih =>
    rw [Expr.at?] at there
    split at there
    · next part here =>
      obtain ⟨q, step, rfl⟩ := h.exists_step named here (Expr.ne_name_of_at? part there)
      obtain ⟨r, leads⟩ := ih (h.step apart step).1 there
      exact ⟨r, .there step leads⟩
    · cases there

end Place.Sound

end

/-! ### Lists in the grammar -/

/-- Opening unions leaves a list as it is: neither of its members is a union. -/
theorem Stages.list_kept {ds : List Definition} {named flat : Bindings}
    (stages : Stages ds named flat) {s cell x : String}
    (list : named.lookup s = some (.union [emptyList, cell]))
    (pair : named.lookup cell = some (.product [x, s])) :
    (Grammar.ofBindings flat).get? s = some (.union [.name emptyList, .name cell]) ∧
      (Grammar.ofBindings flat).ListCell cell (.name x) s := by
  obtain ⟨count, flattening⟩ := stages.flattening
  have flattened := stages.ready.flattened flattening
  have empty : named.members? emptyList = none := by
    rw [Bindings.members?, stages.lookup_tag isTag_emptyList]
  have cells : named.members? cell = none := by
    rw [Bindings.members?, pair]
  have apart : emptyList ≠ cell := by
    rintro rfl
    rw [stages.lookup_tag isTag_emptyList] at pair
    cases pair
  obtain ⟨l, walks, left⟩ := flattened.unions s _ (Bindings.members?_eq_some_iff.2 list)
  have all : named.Walks s [emptyList, cell] :=
    .union (Bindings.members?_eq_some_iff.2 list)
      (.cons (.ends empty) (.cons (.ends cells) .nil))
  have distinct : [emptyList, cell].Nodup := by simpa using apart
  rw [walks.unique all, Bindings.eraseDups_of_nodup distinct,
    Bindings.members?_eq_some_iff] at left
  have members : (Grammar.ofBindings flat).get? s =
      some (.union [.name emptyList, .name cell]) := by
    rw [Bindings.get?_ofBindings, left]
    rfl
  refine ⟨members, ?_, _, members, fun r => by simp⟩
  rw [Bindings.get?_ofBindings, flattened.others cell cells, pair]
  rfl

/-- Definitions are made of expressions, and normalisation returns a grammar for them. If no two
binders share a label, and every text written as a reference is a tag or the name of a definition,
then the path to each list that is written in a definition leads to a place, and where it leads the
name is bound to the empty list and a name of cells. And every name of cells has a union for its
lists that reading takes apart: it is a bijection from the trees of the lists to the sequences of
trees of the elements, which folding cells over elements undoes, and a list has one unit of size and
those of its elements and cells. -/
theorem lists_kept {ds : List Definition} {events : List Event} {g : Grammar}
    (built : Grammar.ofDefinitions? ds = (events, .ok g)) :
    (∀ defs, Definition.makeAll defs = .ok ds → LabelsApart (Expr.bindersAll (defs.map (·.2))) →
      (∀ s ∈ Expr.literalsAll (defs.map (·.2)), isTag s = true ∨ s ∈ defs.map (·.1)) →
      ∃ log b, Definition.naming ds = .ok (log, b) ∧ ∀ p ∈ defs, ∃ t,
        p.2.bindTo p.1 [] = .ok (.ref (.inline t)) ∧
        ∀ path label elem, p.2.at? path = some (.list label elem) →
          (∃ q, Place.Leads log b ⟨p.2, [], p.1, t⟩ path q) ∧
          ∀ q, Place.Leads log b ⟨p.2, [], p.1, t⟩ path q → q.expr = .list label elem ∧
            ∃ cell, g.get? q.name = some (.union [.name emptyList, .name cell]) ∧
              g.isListCell cell = true) ∧
    ∀ cell, g.isListCell cell = true → ∃ elem rest,
      g.get? cell = some (.product [elem, .name rest]) ∧
      Set.BijOn Tree.elements? (g.treesOf (.name rest))
        (Except.ok '' {xs | ∀ x ∈ xs, x ∈ g.treesOf elem}) ∧
      ∀ t ∈ g.treesOf (.name rest), ∀ xs, t.elements? = .ok xs →
        Tree.ofElements cell xs = t ∧
        ∀ mode, t.size mode = 1 + (xs.map fun x => x.size mode + mode.offset).sum := by
  obtain ⟨named, flat, stages, rfl⟩ := Grammar.exists_stages built
  refine ⟨fun defs made apart literals => ?_, fun cell isCell => ?_⟩
  · obtain ⟨log, naming⟩ := stages.naming
    refine ⟨log, named, naming, fun p hp => ?_⟩
    have hoisted := Definition.hoisted literals made stages.distinct naming
    obtain ⟨d, hd, name, read⟩ := exists_of_forall₂_left (makeAll_cases made) p hp
    have member : p.2 ∈ defs.map (·.2) := List.mem_map_of_mem hp
    have within : ∀ q ∈ p.2.binders, q ∈ Expr.bindersAll (defs.map (·.2)) :=
      fun q hq => Expr.mem_bindersAll.2 ⟨p.2, member, hq⟩
    have sound : Place.Sound (Expr.bindersAll (defs.map (·.2)))
        (ds.map fun d => (d.name, d.type)) log ⟨p.2, [], p.1, d.type⟩ :=
      ⟨within, Or.inl (List.mem_map.2 ⟨d, hd, by rw [name]⟩), Expr.from_bindTo p.2 within read,
        d.type, read, rfl, fun _ _ => rfl⟩
    refine ⟨d.type, read, fun path label elem there =>
      ⟨sound.exists_leads hoisted.items apart there, fun q leads => ?_⟩⟩
    obtain ⟨soundHere, same⟩ := sound.leads apart leads
    rw [there] at same
    obtain ⟨e, scope, s, t⟩ := q
    cases Option.some.inj same
    obtain ⟨r, cell, x, -, -, list, pair, -⟩ := soundHere.list_bound hoisted.items
    obtain ⟨union, cells⟩ := stages.list_kept list pair
    exact ⟨rfl, cell, union, Grammar.isListCell_iff.2 ⟨_, _, cells⟩⟩
  · obtain ⟨elem, rest, cells⟩ := Grammar.isListCell_iff.1 isCell
    refine ⟨elem, rest, cells.pair, cells.bijOn stages.flat_closed, fun t derived xs read => ?_⟩
    obtain ⟨ys, -, rfl⟩ := cells.exists_ofElements stages.flat_closed t derived
    rw [Tree.elements?_ofElements] at read
    cases read
    exact ⟨rfl, fun mode => Tree.size_ofElements mode cell _⟩

/-- A pair of a tag and a list of tags that is written in place. -/
def listed : List (String × Expr) :=
  [("M", .product [.name "v_y", .list 0 (.name "v_x")])]

/-- The definition, in which the list still awaits its name. -/
def listedDefinitions : List Definition :=
  [⟨"M", .product [.name "v_y", .deferred (.list 0 [] (.name "v_x"))], by decide⟩]

/-- The list has got a name, and so have its cells. -/
def listedBindings : Bindings :=
  [("M", .product ["v_y", "t_0"]), ("t_0", .union [emptyList, "t_1"]),
    ("t_1", .product ["v_x", "t_0"])]

/-- The list and its cells get the names that are handed out. -/
theorem listed_named : Definition.naming listedDefinitions = .ok
    ([⟨"t_0", .union [.name emptyList, .inline (.product [.name "v_x", .name "t_0"])], "M"⟩,
      ⟨"t_1", .product [.name "v_x", .name "t_0"], "t_0"⟩], listedBindings) := by
  cbv

/-- No name of the bindings is an alias for itself. -/
theorem listed_selfAlias? : listedBindings.selfAlias? = none := by
  have away : listedBindings.reaches "t_0" [emptyList, "t_1"] [] = false := by
    have name : isTag "t_1" = false := by decide
    rw [Bindings.reaches, Bindings.reaches, Bindings.reaches]
    simp [name, emptyList]
    cbv
  rw [Bindings.selfAlias?, Option.map_eq_none_iff, List.find?_eq_none]
  intro p hp
  simp only [listedBindings, List.mem_cons, List.not_mem_nil, or_false] at hp
  rcases hp with rfl | rfl | rfl
  · exact Bool.false_ne_true
  · simp only [Body.aliases, away, Bool.and_false, Bool.false_eq_true, not_false_eq_true]
  · exact Bool.false_ne_true

/-- The definition is accepted. -/
theorem listed_built : ∃ events,
    Grammar.ofDefinitions? listedDefinitions = (events, .ok (.ofBindings listedBindings)) := by
  have closed : listedBindings.unbound? = none := by cbv
  have flat : listedBindings.flatten = .ok (listedBindings, 1) := by cbv
  have made : (Grammar.ofBindings? 1 listedBindings).2 = .ok (.ofBindings listedBindings) := by
    rw [Grammar.ofBindings?, closed]
    dsimp only
    rw [flat]
    dsimp only
    rw [listed_selfAlias?]
  rw [Definition.ofDefinitions?_of_ok (by decide) listed_named]
  exact ⟨_, congrArg (Prod.mk _) made⟩

/-- The list in second place is bound to the empty list or a cell, and its trees are the sequences
of tags. -/
theorem lists_kept_listed :
    (∃ log b t q, Definition.naming listedDefinitions = .ok (log, b) ∧
      Place.Leads log b ⟨.product [.name "v_y", .list 0 (.name "v_x")], [], "M", t⟩ [1] q ∧
      ∃ cell, (Grammar.ofBindings listedBindings).get? q.name =
        some (.union [.name emptyList, .name cell]) ∧
        (Grammar.ofBindings listedBindings).isListCell cell = true) ∧
    ∃ elem rest, (Grammar.ofBindings listedBindings).get? "t_1" =
        some (.product [elem, .name rest]) ∧
      Set.BijOn Tree.elements? ((Grammar.ofBindings listedBindings).treesOf (.name rest))
        (Except.ok '' {xs | ∀ x ∈ xs, x ∈ (Grammar.ofBindings listedBindings).treesOf elem}) := by
  obtain ⟨events, built⟩ := listed_built
  obtain ⟨kept, read⟩ := lists_kept built
  obtain ⟨log, b, named, places⟩ := kept listed (by cbv) (by simp [LabelsApart, listed,
    Expr.bindersAll, Expr.binders]) (by simp [listed, Expr.literalsAll, Expr.literals, isTag])
  obtain ⟨t, -, lists⟩ := places _ List.mem_cons_self
  obtain ⟨⟨q, leads⟩, bound⟩ := lists [1] 0 (.name "v_x") rfl
  refine ⟨⟨log, b, t, q, named, leads, (bound q leads).2⟩, ?_⟩
  obtain ⟨elem, rest, pair, bij, -⟩ := read "t_1" (by decide)
  exact ⟨elem, rest, pair, bij⟩

end TreeGrammar
