import Mathlib
import TreeGrammar.Proofs.Bindings.Stages
import TreeGrammar.Proofs.Canonical.Delimited
import TreeGrammar.Proofs.Reading.Written

/-!
# Expressions in bindings

Reading an expression and naming the types nested in it leave bindings in which the expression can
be found again: a name or a tag stands for itself, a variable for the name given to its binder, and
a type written in place for a new name that is bound to it. Of the members of a union that have one
canonical form only one is kept, and the others are found again under its name.

* `Bindings.Refers`, `Bindings.Defines`: a text stands for an expression, and a name is bound to
  one.
* `Expr.Allowed`: which binders and texts an expression may hold.
* `defines_of_binds`: what is bound once nested types have names is bound to its expression.
-/

namespace TreeGrammar

/-- The body of the lists of an element type: the empty list, or a cell of an element and a list.
The name of the lists is number 0, and that of the element type number 1. -/
def Expr.cells : Expr :=
  .union [.name emptyList, .product [.var 1, .var 0]]

namespace Bindings

section

variable (b : Bindings) (given : List String) (known : String → Prop)

mutual

/-- A text stands for an expression, if the binders around it have got the names in the list,
innermost first. Texts that are written as references are to be known, and a type written in place
stands under a name of its own that is not among those given. -/
inductive Refers : List String → Expr → String → Prop
  | name {scope : List String} {s : String} (h : known s) : Refers scope (.name s) s
  | raw {scope : List String} {s : String} (h : known s) : Refers scope (.raw (.text s)) s
  | value {scope : List String} {s : String} (tag : isTag s = true) :
      Refers scope (.value (.text s)) s
  | var {scope : List String} {i : Nat} {s : String} (bound : scope[i]? = some s) :
      Refers scope (.var i) s
  | closed {scope : List String} {e : Expr} {s : String} (inner : Refers [] e s) :
      Refers scope (.closed e) s
  | new {scope : List String} {e : Expr} {s : String} (new : s ∉ given)
      (defines : Defines scope e s) : Refers scope e s

/-- A name is bound to an expression. -/
inductive Defines : List String → Expr → String → Prop
  | value {scope : List String} {s tag : String} (bound : b.lookup s = some (.value tag)) :
      Defines scope (.value (.text tag)) s
  | product {scope : List String} {items : List Expr} {s : String} {texts : List String}
      (bound : b.lookup s = some (.product texts)) (length : items.length = texts.length)
      (refers : ∀ p ∈ items.zip texts, Refers scope p.1 p.2) : Defines scope (.product items) s
  | union {scope : List String} {items : List Expr} {s : String} {texts : List String}
      {R : Expr → String → Prop} (bound : b.lookup s = some (.union texts))
      (refers : ∀ e x, R e x → Refers scope e x) (there : ∀ e ∈ items, ∃ x ∈ texts, R e x)
      (back : ∀ x ∈ texts, ∃ e ∈ items, R e x) : Defines scope (.union items) s
  | mu {scope : List String} {label : Nat} {body : Expr} {s : String}
      (inner : Defines (s :: scope) body s) : Defines scope (.mu label body) s
  | list {scope : List String} {label : Nat} {elem : Expr} {s x : String}
      (refers : Refers scope elem x) (inner : Defines [s, x] Expr.cells s) :
      Defines scope (.list label elem) s
  | closed {scope : List String} {e : Expr} {s : String} (inner : Defines [] e s) :
      Defines scope (.closed e) s

end

end

end Bindings

/-! ### What a constructor stores -/

/-- A constructor stores `r` for an expression. -/
def Expr.Stored (former : Former) (scope : List String) (e : Expr) (r : Ref) : Prop :=
  ∃ o, e.eval scope = .ok o ∧ store former o = .ok r

/-- What a constructor stores for several expressions it stores for them one by one. -/
theorem stored_of_evalAll {former : Former} {scope : List String} {es : List Expr}
    {os : List Operand} {items : List Ref} (read : Expr.evalAll scope es = .ok os)
    (stored : storeAll former os = .ok items) :
    List.Forall₂ (Expr.Stored former scope) es items := by
  induction es generalizing os items with
  | nil =>
    rw [Expr.evalAll] at read
    cases read
    cases stored
    exact .nil
  | cons e rest ih =>
    obtain ⟨o, os', first, others, rfl⟩ := Expr.evalAll_cons_cases read
    obtain ⟨r, rs, one, more, rfl⟩ := storeAll_cons_cases stored
    exact .cons ⟨o, first, one⟩ (ih others more)

/-- A product is read as one of what is stored for its items. -/
theorem product_cases {es : List Expr} {scope : List String} {o : Operand}
    (read : (Expr.product es).eval scope = .ok o) :
    ∃ items, o = .ref (.inline (.product items)) ∧
      List.Forall₂ (Expr.Stored .product scope) es items := by
  rw [Expr.eval] at read
  split at read
  · cases read
  · next os readAll =>
    obtain ⟨t, made, rfl⟩ := ofTy_cases read
    obtain ⟨items, stored, rfl⟩ := product?_cases made
    exact ⟨items, rfl, stored_of_evalAll readAll stored⟩

/-- A union is read as one of what is kept of what is stored for its members. -/
theorem union_cases {es : List Expr} {scope : List String} {o : Operand}
    (read : (Expr.union es).eval scope = .ok o) :
    ∃ items, o = .ref (.inline (.union (Ref.distinct items))) ∧
      List.Forall₂ (Expr.Stored .union scope) es items := by
  rw [Expr.eval] at read
  split at read
  · cases read
  · next os readAll =>
    obtain ⟨t, made, rfl⟩ := ofTy_cases read
    obtain ⟨items, stored, rfl⟩ := union?_cases made
    exact ⟨items, rfl, stored_of_evalAll readAll stored⟩

/-- A list is read as a builder that holds what is stored for the element type. -/
theorem list_cases {label : Nat} {elem : Expr} {scope : List String} {o : Operand}
    (read : (Expr.list label elem).eval scope = .ok o) :
    ∃ r, o = .ref (.deferred (.list label scope r)) ∧ elem.Stored .list scope r := by
  rw [Expr.eval] at read
  split at read
  · cases read
  · next o' inner =>
    split at read
    · cases read
    · next r stored =>
      cases read
      exact ⟨r, rfl, o', inner, stored⟩

/-- A builder that gives a type for a name stands for it under that name. -/
theorem bindTo_of_typeNamed {builder : Builder} {name : String} {t : Ty}
    (h : builder.typeNamed name = .ok t) : builder.bindTo name = .ok (.ref (.inline t)) := by
  unfold Builder.typeNamed at h
  split at h
  · cases h
  · next t' bound =>
    cases h
    exact bound
  · cases h

/-! ### Members with one canonical form -/

/-- Of the references with one canonical form one is kept. -/
theorem exists_mem_eraseDupsBy {α : Type} (l : List (String × α)) :
    ∀ x ∈ l, ∃ y ∈ l.eraseDupsBy (·.1 == ·.1), y.1 = x.1 := by
  induction l using filter_induction with
  | nil => exact fun x hx => absurd hx List.not_mem_nil
  | cons a rest ih =>
    intro x hx
    rw [List.eraseDupsBy_cons]
    by_cases same : x.1 = a.1
    · exact ⟨a, List.mem_cons_self, same.symm⟩
    · have later : x ∈ rest.filter fun b => (b.1 == a.1) = false := by
        rcases List.mem_cons.1 hx with rfl | hx
        · exact absurd rfl same
        · exact List.mem_filter.2 ⟨hx, by simpa using same⟩
      obtain ⟨y, hy, e⟩ := ih _ x later
      exact ⟨y, List.mem_cons_of_mem _ hy, e⟩

/-- A form that there was is kept, be it by another reference. -/
theorem Ref.canonical_mem_distinct {items : List Ref} {r : Ref} (h : r ∈ items) :
    r.canonical ∈ (Ref.distinct items).map Ref.canonical := by
  obtain ⟨y, hy, e⟩ := exists_mem_eraseDupsBy (items.map fun r => (r.canonical, r))
    (r.canonical, r) (List.mem_map_of_mem h)
  have kept := (eraseDupsBy_sublist _ _).subset hy
  obtain ⟨r', -, rfl⟩ := List.mem_map.1 kept
  refine List.mem_map.2 ⟨r', List.mem_map.2 ⟨_, hy, rfl⟩, e⟩

/-! ### What is read is found again -/

/-- The binders in an expression are among `bs`, and the texts written as references are known. -/
structure Expr.Allowed (bs : List (Nat × Expr)) (known : String → Prop) (e : Expr) : Prop where
  binders : ∀ p ∈ e.binders, p ∈ bs
  literals : ∀ s ∈ e.literals, known s

section

variable {bs : List (Nat × Expr)} {known : String → Prop}

namespace Expr.Allowed

/-- What is allowed for a constructor is allowed for its items. -/
theorem items {e : Expr} {items : List Expr} (h : e.Allowed bs known)
    (binders : e.binders = Expr.bindersAll items) (literals : e.literals = Expr.literalsAll items) :
    ∀ item ∈ items, item.Allowed bs known := by
  intro item member
  refine ⟨fun p hp => h.binders p ?_, fun s hs => h.literals s ?_⟩
  · rw [binders]
    exact Expr.mem_bindersAll.2 ⟨item, member, hp⟩
  · rw [literals]
    exact Expr.mem_literalsAll.2 ⟨item, member, hs⟩

/-- The items of an allowed product are allowed. -/
theorem product {items : List Expr} (h : (Expr.product items).Allowed bs known) :
    ∀ e ∈ items, e.Allowed bs known :=
  h.items (by rw [Expr.binders]) (by rw [Expr.literals])

/-- The members of an allowed union are allowed. -/
theorem union {items : List Expr} (h : (Expr.union items).Allowed bs known) :
    ∀ e ∈ items, e.Allowed bs known :=
  h.items (by rw [Expr.binders]) (by rw [Expr.literals])

/-- The element type of allowed lists is allowed. -/
theorem list {label : Nat} {elem : Expr} (h : (Expr.list label elem).Allowed bs known) :
    elem.Allowed bs known := by
  refine ⟨fun p hp => h.binders p ?_, fun s hs => h.literals s ?_⟩
  · rw [Expr.binders]
    exact List.mem_cons_of_mem _ hp
  · rwa [Expr.literals]

/-- The body of an allowed binder is allowed. -/
theorem mu {label : Nat} {body : Expr} (h : (Expr.mu label body).Allowed bs known) :
    body.Allowed bs known := by
  refine ⟨fun p hp => h.binders p ?_, fun s hs => h.literals s ?_⟩
  · rw [Expr.binders]
    exact List.mem_cons_of_mem _ hp
  · rwa [Expr.literals]

/-- What is allowed is allowed outside the binders around it. -/
theorem closed {e : Expr} (h : (Expr.closed e).Allowed bs known) : e.Allowed bs known := by
  refine ⟨fun p hp => h.binders p ?_, fun s hs => h.literals s ?_⟩
  · rwa [Expr.binders]
  · rwa [Expr.literals]

end Expr.Allowed

variable {b : Bindings} {given : List String} {scope : List String} {x : String}

open Bindings

/-- Only a name has the form of a name, and it stands for itself. -/
theorem stands_name {s : String} {r : Ref} (h : b.Stands given r x)
    (form : r.canonical = (Ref.name s).canonical) : x = s := by
  rw [Ref.eq_name_of_canonical form] at h
  cases h
  rfl

/-- The items of a product are found one by one. -/
theorem refers_items {former : Former} {es : List Expr} {items items' : List Ref}
    {texts : List String} (stored : List.Forall₂ (Expr.Stored former scope) es items)
    (forms : items'.map Ref.canonical = items.map Ref.canonical)
    (stands : List.Forall₂ (b.Stands given) items' texts) (origin : ∀ r ∈ items', r.From bs)
    (each : ∀ e ∈ es, ∀ r r' x, e.Stored former scope r → r'.From bs →
      r'.canonical = r.canonical → b.Stands given r' x → b.Refers given known scope e x) :
    es.length = texts.length ∧ ∀ p ∈ es.zip texts, b.Refers given known scope p.1 p.2 := by
  induction stored generalizing items' texts with
  | nil =>
    obtain rfl := List.map_eq_nil_iff.1 forms
    obtain rfl := List.forall₂_nil_left_iff.1 stands
    exact ⟨rfl, fun p hp => absurd hp List.not_mem_nil⟩
  | @cons e r es items first _ ih =>
    cases items' with
    | nil => cases forms
    | cons r' items' =>
      obtain ⟨form, forms⟩ := List.cons.inj forms
      obtain ⟨x, texts, stand, others, rfl⟩ := List.forall₂_cons_left_iff.1 stands
      obtain ⟨length, refers⟩ := ih forms others
        (fun r hr => origin r (List.mem_cons_of_mem _ hr))
        fun e he => each e (List.mem_cons_of_mem _ he)
      refine ⟨congrArg (· + 1) length, ?_⟩
      rw [List.zip_cons_cons]
      refine List.forall_mem_cons.2 ⟨?_, refers⟩
      exact each e List.mem_cons_self r r' x first (origin r' List.mem_cons_self) form stand

/-- Each of the first elements has a counterpart. -/
theorem exists_of_forall₂_left {α β : Type} {R : α → β → Prop} {l : List α} {m : List β}
    (h : List.Forall₂ R l m) : ∀ x ∈ l, ∃ y ∈ m, R x y := by
  induction h with
  | nil => exact fun x hx => absurd hx List.not_mem_nil
  | cons first _ ih =>
    intro x hx
    rcases List.mem_cons.1 hx with rfl | hx
    · exact ⟨_, List.mem_cons_self, first⟩
    · obtain ⟨y, hy, related⟩ := ih x hx
      exact ⟨y, List.mem_cons_of_mem _ hy, related⟩

/-- Each of the second elements is a counterpart. -/
theorem exists_of_forall₂_right {α β : Type} {R : α → β → Prop} {l : List α} {m : List β}
    (h : List.Forall₂ R l m) : ∀ y ∈ m, ∃ x ∈ l, R x y :=
  exists_of_forall₂_left (List.Forall₂.flip h)

/-- Each of the first elements has a counterpart in its place. -/
theorem exists_getElem?_of_forall₂_left {α β : Type} {R : α → β → Prop} {l : List α} {m : List β}
    (h : List.Forall₂ R l m) {i : Nat} {x : α} (hx : l[i]? = some x) :
    ∃ y, m[i]? = some y ∧ R x y := by
  induction h generalizing i with
  | nil => cases hx
  | cons first _ ih =>
    cases i with
    | zero =>
      cases hx
      exact ⟨_, rfl, first⟩
    | succ i => exact ih hx

/-- Each of the second elements is the counterpart of the one in its place. -/
theorem exists_getElem?_of_forall₂_right {α β : Type} {R : α → β → Prop} {l : List α} {m : List β}
    (h : List.Forall₂ R l m) {i : Nat} {y : β} (hy : m[i]? = some y) :
    ∃ x, l[i]? = some x ∧ R x y :=
  exists_getElem?_of_forall₂_left (List.Forall₂.flip h) hy

/-- Every member of a union is found under the name of the one that is kept, and nothing else is. -/
theorem refers_members {former : Former} {es : List Expr} {items items' : List Ref}
    {texts : List String} (stored : List.Forall₂ (Expr.Stored former scope) es items)
    (forms : (items'.map Ref.canonical).Perm ((Ref.distinct items).map Ref.canonical))
    (stands : List.Forall₂ (b.Stands given) items' texts) (origin : ∀ r ∈ items', r.From bs)
    (each : ∀ e ∈ es, ∀ r r' x, e.Stored former scope r → r'.From bs →
      r'.canonical = r.canonical → b.Stands given r' x → b.Refers given known scope e x) :
    (∀ e ∈ es, ∃ x ∈ texts.eraseDups, b.Refers given known scope e x) ∧
      ∀ x ∈ texts.eraseDups, ∃ e ∈ es, b.Refers given known scope e x := by
  constructor
  · intro e he
    obtain ⟨r, hr, one⟩ := exists_of_forall₂_left stored e he
    obtain ⟨r', hr', form⟩ := List.mem_map.1 (forms.symm.subset (Ref.canonical_mem_distinct hr))
    obtain ⟨x, hx, stand⟩ := exists_of_forall₂_left stands r' hr'
    exact ⟨x, List.mem_eraseDups.2 hx, each e he r r' x one (origin r' hr') form stand⟩
  · intro x hx
    obtain ⟨r', hr', stand⟩ := exists_of_forall₂_right stands x (List.mem_eraseDups.1 hx)
    obtain ⟨r, hr, form⟩ := List.mem_map.1 (forms.subset (List.mem_map_of_mem hr'))
    obtain ⟨e, he, one⟩ :=
      exists_of_forall₂_right stored r ((Ref.distinct_sublist items).subset hr)
    exact ⟨e, he, each e he r r' x one (origin r' hr') form.symm stand⟩

/-- A type that a union or a product is read as, with its items found. -/
theorem defines_product {es : List Expr} {t t' : Ty} (origin : t'.From bs)
    (read : (Expr.product es).eval scope = .ok (.ref (.inline t)))
    (form : t'.canonical = t.canonical) (binds : b.Binds given x t')
    (each : ∀ e ∈ es, ∀ r r' x, e.Stored .product scope r → r'.From bs →
      r'.canonical = r.canonical → b.Stands given r' x → b.Refers given known scope e x) :
    b.Defines given known scope (.product es) x := by
  obtain ⟨items, e, stored⟩ := product_cases read
  cases e
  obtain ⟨items', rfl, forms⟩ := Ty.eq_product_of_canonical form
  cases binds with
  | product bound stand =>
    obtain ⟨length, refers⟩ := refers_items stored forms stand (Ref.allFrom_iff.1 origin) each
    exact .product bound length refers

/-- A name is bound to a union of expressions if it is bound to a type with its form. The members
that the union drops have the form of one that it keeps, so they stand for its text. -/
theorem defines_union {es : List Expr} {t t' : Ty} (origin : t'.From bs)
    (read : (Expr.union es).eval scope = .ok (.ref (.inline t)))
    (form : t'.canonical = t.canonical) (binds : b.Binds given x t')
    (each : ∀ e ∈ es, ∀ r r' x, e.Stored .union scope r → r'.From bs →
      r'.canonical = r.canonical → b.Stands given r' x → b.Refers given known scope e x) :
    b.Defines given known scope (.union es) x := by
  obtain ⟨items, e, stored⟩ := union_cases read
  cases e
  obtain ⟨items', rfl, forms⟩ := Ty.eq_union_of_canonical form
  cases binds with
  | union bound stand =>
    obtain ⟨there, back⟩ := refers_members stored forms stand (Ref.allFrom_iff.1 origin) each
    exact .union bound (fun _ _ refers => refers) there back

/-! ### Lists -/

/-- References of two canonical forms are both kept. -/
theorem distinct_pair {r r' : Ref} (apart : r.canonical ≠ r'.canonical) :
    Ref.distinct [r, r'] = [r, r'] := by
  simp [Ref.distinct, List.eraseDupsBy_cons, apart.symm]

/-- What has been stored once is stored as it is. -/
theorem store_stored {former former' : Former} {o : Operand} {r r' : Ref}
    (h : store former o = .ok r) (h' : store former' (.ref r) = .ok r') : r' = r := by
  rcases store_cases h with ⟨tag, -, rfl⟩ | rfl
  · exact eq_name_of_store h'
  · rcases store_cases h' with ⟨tag', e, rfl⟩ | e
    · cases e
      rw [store] at h
      cases h
    · cases e
      rfl

/-- The lists of an element type are a union of two. -/
theorem listOf_cases {former : Former} {o : Operand} {r : Ref} {t : Ty}
    (stored : store former o = .ok r) (made : Ty.listOf r x = .ok t) :
    t = .union [.name emptyList, .inline (.product [r, .name x])] := by
  unfold Ty.listOf at made
  split at made
  · cases made
  · next cell cellMade =>
    obtain ⟨items, cellStored, rfl⟩ := product?_cases cellMade
    obtain ⟨members, memberStored, rfl⟩ := union?_cases made
    have items_eq : items = [r, .name x] := by
      obtain ⟨r', rest, first, others, rfl⟩ := storeAll_cons_cases cellStored
      obtain ⟨r'', none, second, nil, rfl⟩ := storeAll_cons_cases others
      cases nil
      rw [store_stored stored first]
      rw [eq_name_of_store second]
    subst items_eq
    cases memberStored
    rw [distinct_pair]
    intro same
    have e := Ref.eq_name_of_canonical same.symm
    cases e

/-- For a name a list is read as a union of the empty list and of cells that end in the name. -/
theorem bindTo_list_cases {label : Nat} {elem : Expr} {t : Ty}
    (read : (Expr.list label elem).bindTo x scope = .ok (.ref (.inline t))) :
    ∃ r, t = .union [.name emptyList, .inline (.product [r, .name x])] ∧
      elem.Stored .list scope r ∧
      (Expr.list label elem).eval scope = .ok (.ref (.deferred (.list label scope r))) := by
  rw [Expr.bindTo] at read
  split at read
  · cases read
  · next o inner =>
    split at read
    · cases read
    · next r stored =>
      obtain ⟨t', made, e⟩ := ofTy_cases read
      cases e
      refine ⟨r, listOf_cases stored made, ⟨o, inner, stored⟩, ?_⟩
      rw [Expr.eval, inner]
      dsimp only
      rw [stored]

/-- The cells of a list are found under a name of their own. -/
theorem cell_of_stands {r r' : Ref} {y : String} (origin : r'.From bs)
    (form : r'.canonical = (Ref.inline (.product [r, .name x])).canonical)
    (stands : b.Stands given r' y) : y ∉ given ∧ ∃ a r'', b.lookup y = some (.product [a, x]) ∧
      r''.From bs ∧ r''.canonical = r.canonical ∧ b.Stands given r'' a := by
  obtain ⟨t, rfl, form'⟩ := Ref.eq_inline_of_canonical form
  cases stands with
  | inline new binds =>
    refine ⟨new, ?_⟩
    obtain ⟨items, rfl, forms⟩ := Ty.eq_product_of_canonical form'
    obtain ⟨r₁, rest, rfl, form₁, forms⟩ := List.map_eq_cons_iff.1 forms
    obtain ⟨r₂, rest, rfl, form₂, forms⟩ := List.map_eq_cons_iff.1 forms
    obtain rfl := List.map_eq_nil_iff.1 forms
    cases binds with
    | product bound stand =>
      obtain ⟨a, _, first, others, rfl⟩ := List.forall₂_cons_left_iff.1 stand
      obtain ⟨x', _, second, none, rfl⟩ := List.forall₂_cons_left_iff.1 others
      obtain rfl := List.forall₂_nil_left_iff.1 none
      obtain rfl := stands_name second form₂
      exact ⟨a, r₁, bound, (Ref.allFrom_iff.1 origin) r₁ List.mem_cons_self, form₁, first⟩

/-- Two references stand for a union of two. -/
theorem members_of_pair {r r' : Ref} {items : List Ref} {texts : List String}
    (forms : (items.map Ref.canonical).Perm [r.canonical, r'.canonical])
    (stands : List.Forall₂ (b.Stands given) items texts) :
    ∃ i ∈ items, ∃ i' ∈ items, ∃ u u', i.canonical = r.canonical ∧ i'.canonical = r'.canonical ∧
      b.Stands given i u ∧ b.Stands given i' u' ∧ ∀ z, z ∈ texts ↔ z = u ∨ z = u' := by
  have length : items.length = 2 := by simpa using forms.length_eq
  obtain ⟨i₁, i₂, rfl⟩ := List.length_eq_two.1 length
  obtain ⟨u₁, _, first, others, rfl⟩ := List.forall₂_cons_left_iff.1 stands
  obtain ⟨u₂, _, second, none, rfl⟩ := List.forall₂_cons_left_iff.1 others
  obtain rfl := List.forall₂_nil_left_iff.1 none
  have member : i₁.canonical ∈ [r.canonical, r'.canonical] :=
    forms.subset (List.mem_map_of_mem List.mem_cons_self)
  simp only [List.mem_cons, List.not_mem_nil, or_false] at member
  rcases member with e | e
  · rw [List.map_cons, e, List.perm_cons] at forms
    have e' : i₂.canonical = r'.canonical := by simpa using forms
    exact ⟨i₁, by simp, i₂, by simp, u₁, u₂, e, e', first, second, fun z => by simp⟩
  · have swapped := forms.trans (.swap _ _ _)
    rw [List.map_cons, e, List.perm_cons] at swapped
    have e' : i₂.canonical = r.canonical := by simpa using swapped
    exact ⟨i₂, by simp, i₁, by simp, u₂, u₁, e', e, second, first, fun z => by simp [or_comm]⟩

/-- A list is bound to a union, and its cells to a product; the element type is found in the
cells. -/
theorem defines_list {label : Nat} {elem : Expr} {r : Ref} {t' : Ty}
    (tags : ∀ s, isTag s = true → known s) (origin : t'.From bs)
    (form : t'.canonical =
      (Ty.union [.name emptyList, .inline (.product [r, .name x])]).canonical)
    (binds : b.Binds given x t')
    (each : ∀ r' a, r'.From bs → r'.canonical = r.canonical → b.Stands given r' a →
      b.Refers given known scope elem a) :
    b.Defines given known scope (.list label elem) x := by
  obtain ⟨items, rfl, forms⟩ := Ty.eq_union_of_canonical form
  have from_items := Ref.allFrom_iff.1 origin
  cases binds with
  | union bound stand =>
    obtain ⟨i, -, i', hi', u, y, form, form', nil, cell, texts⟩ := members_of_pair forms stand
    obtain rfl := stands_name nil form
    obtain ⟨new, a, r', cell_bound, from_r', form_r', stands⟩ :=
      cell_of_stands (from_items i' hi') form' cell
    have cell_defined : b.Defines given known [x, a] (.product [.var 1, .var 0]) y := by
      refine .product cell_bound rfl fun p hp => ?_
      simp only [List.zip_cons_cons, List.zip_nil_right, List.mem_cons, List.not_mem_nil,
        or_false] at hp
      rcases hp with rfl | rfl
      · exact .var rfl
      · exact .var rfl
    have nil_found : b.Refers given known [x, a] (.name emptyList) emptyList :=
      .name (tags _ isTag_emptyList)
    refine .list (each r' a from_r' form_r' stands)
      (.union bound (fun _ _ refers => refers) (fun e he => ?_) fun z hz => ?_)
    · simp only [List.mem_cons, List.not_mem_nil, or_false] at he
      rcases he with rfl | rfl
      · exact ⟨_, List.mem_eraseDups.2 ((texts _).2 (Or.inl rfl)), nil_found⟩
      · exact ⟨y, List.mem_eraseDups.2 ((texts y).2 (Or.inr rfl)), .new new cell_defined⟩
    · rcases (texts z).1 (List.mem_eraseDups.1 hz) with rfl | rfl
      · exact ⟨_, List.mem_cons_self, nil_found⟩
      · exact ⟨_, List.mem_cons_of_mem _ List.mem_cons_self, .new new cell_defined⟩

/-! ### All expressions -/

/-- A type written in place is found under a name of its own. -/
theorem refers_of_inline {e : Expr} {t : Ty} {r : Ref} (origin : r.From bs)
    (form : r.canonical = (Ref.inline t).canonical) (stands : b.Stands given r x)
    (defines : ∀ t', t'.From bs → t'.canonical = t.canonical → b.Binds given x t' →
      b.Defines given known scope e x) : b.Refers given known scope e x := by
  obtain ⟨t', rfl, form'⟩ := Ref.eq_inline_of_canonical form
  cases stands with
  | inline new binds => exact .new new (defines t' origin form' binds)

/-- A builder is found under a name of its own, bound to the type that it stands for under that
name. -/
theorem refers_of_deferred (apart : LabelsApart bs) {e : Expr} {d : Builder} {r : Ref}
    (within : ∀ p ∈ e.binders, p ∈ bs) (read : e.eval scope = .ok (.ref (.deferred d)))
    (origin : r.From bs) (form : r.canonical = (Ref.deferred d).canonical)
    (stands : b.Stands given r x)
    (defines : ∀ t, e.bindTo x scope = .ok (.ref (.inline t)) → t.From bs → b.Binds given x t →
      b.Defines given known scope e x) : b.Refers given known scope e x := by
  obtain ⟨d', rfl, mark⟩ := Ref.eq_deferred_of_canonical form
  obtain rfl := Builder.From.eq_of_mark apart origin (Expr.from_eval e within read) mark
  cases stands with
  | @deferred _ _ t new typed binds =>
    have bound : e.bindTo x scope = .ok (.ref (.inline t)) := by
      rw [Expr.bindTo_eq, read]
      exact bindTo_of_typeNamed typed
    exact .new new (defines t bound (Expr.from_bindTo e within bound) binds)

/-- An expression that is read as a type written in place, or as a builder. -/
theorem refers_of_new (apart : LabelsApart bs) {e : Expr} (within : ∀ p ∈ e.binders, p ∈ bs)
    {former : Former} {o : Operand} {r r' : Ref} (read : e.eval scope = .ok o)
    (kind : (∃ t, (∀ tag, t ≠ .value tag) ∧ o = .ref (.inline t)) ∨ ∃ d, o = .ref (.deferred d))
    (stored : store former o = .ok r) (origin : r'.From bs) (form : r'.canonical = r.canonical)
    (stands : b.Stands given r' x)
    (defines : ∀ t t', e.bindTo x scope = .ok (.ref (.inline t)) → t'.From bs →
      t'.canonical = t.canonical → b.Binds given x t' → b.Defines given known scope e x) :
    b.Refers given known scope e x := by
  rcases kind with ⟨t, other, rfl⟩ | ⟨d, rfl⟩
  · rcases store_cases stored with ⟨tag, e, -⟩ | e
    · cases e
      exact absurd rfl (other tag)
    · cases e
      refine refers_of_inline origin form stands fun t' => defines t t' ?_
      rw [Expr.bindTo_eq, read]
      rfl
  · rcases store_cases stored with ⟨tag, e, -⟩ | e
    · cases e
    · cases e
      exact refers_of_deferred apart within read origin form stands fun t bound origin' binds =>
        defines t t bound origin' rfl binds

mutual

/-- A text that stands for what an expression is read as stands for the expression. -/
theorem refers_of_stands (apart : LabelsApart bs) (tags : ∀ s, isTag s = true → known s) :
    (e : Expr) → e.Allowed bs known → ∀ {scope former r r' x}, e.Stored former scope r →
    r'.From bs → r'.canonical = r.canonical → b.Stands given r' x →
    b.Refers given known scope e x
  | .name s, allowed, scope, former, r, r', x, ⟨o, read, stored⟩, origin, form, stands => by
    rw [Expr.eval] at read
    cases read
    obtain rfl := eq_name_of_store stored
    obtain rfl := stands_name stands form
    exact .name (allowed.literals _ (by rw [Expr.literals]; exact List.mem_singleton_self _))
  | .raw d, allowed, scope, former, r, r', x, ⟨o, read, stored⟩, origin, form, stands => by
    rw [Expr.eval] at read
    cases read
    cases d with
    | text s =>
      obtain rfl := eq_name_of_store stored
      obtain rfl := stands_name stands form
      exact .raw (allowed.literals _ (by rw [Expr.literals]; exact List.mem_singleton_self _))
    | _ => cases stored
  | .value tag, _, scope, former, r, r', x, ⟨o, read, stored⟩, origin, form, stands => by
    rw [Expr.eval] at read
    obtain ⟨t, made, rfl⟩ := ofTy_cases read
    obtain ⟨s, rfl, tag, rfl⟩ := value?_cases made
    cases stored
    obtain rfl := stands_name stands form
    exact .value tag
  | .var index, _, scope, former, r, r', x, ⟨o, read, stored⟩, origin, form, stands => by
    rw [Expr.eval] at read
    split at read
    · next s bound =>
      cases read
      obtain rfl := eq_name_of_store stored
      obtain rfl := stands_name stands form
      exact .var bound
    · cases read
      cases stored
  | .closed e, allowed, scope, former, r, r', x, ⟨o, read, stored⟩, origin, form, stands => by
    rw [Expr.eval] at read
    exact .closed
      (refers_of_stands apart tags e allowed.closed ⟨o, read, stored⟩ origin form stands)
  | .product items, allowed, scope, former, r, r', x, ⟨o, read, stored⟩, origin, form, stands => by
    refine refers_of_new apart allowed.binders read (Or.inl ?_) stored origin form stands
      fun t t' => defines_of_binds apart tags (.product items) allowed
    obtain ⟨refs, rfl, -⟩ := product_cases read
    refine ⟨_, ?_, rfl⟩
    intro tag e
    cases e
  | .union items, allowed, scope, former, r, r', x, ⟨o, read, stored⟩, origin, form, stands => by
    refine refers_of_new apart allowed.binders read (Or.inl ?_) stored origin form stands
      fun t t' => defines_of_binds apart tags (.union items) allowed
    obtain ⟨refs, rfl, -⟩ := union_cases read
    refine ⟨_, ?_, rfl⟩
    intro tag e
    cases e
  | .list label elem, allowed, scope, former, r, r', x, ⟨o, read, stored⟩, origin, form,
      stands => by
    refine refers_of_new apart allowed.binders read (Or.inr ?_) stored origin form stands
      fun t t' => defines_of_binds apart tags (.list label elem) allowed
    obtain ⟨r, rfl, -⟩ := list_cases read
    exact ⟨_, rfl⟩
  | .mu label body, allowed, scope, former, r, r', x, ⟨o, read, stored⟩, origin, form, stands => by
    refine refers_of_new apart allowed.binders read (Or.inr ?_) stored origin form stands
      fun t t' => defines_of_binds apart tags (.mu label body) allowed
    rw [Expr.eval] at read
    cases read
    exact ⟨_, rfl⟩
termination_by e => (sizeOf e, 1)

/-- A name that is bound to what an expression is read as for that name is bound to the
expression. -/
theorem defines_of_binds (apart : LabelsApart bs) (tags : ∀ s, isTag s = true → known s) :
    (e : Expr) → e.Allowed bs known → ∀ {scope x t t'},
    e.bindTo x scope = .ok (.ref (.inline t)) → t'.From bs → t'.canonical = t.canonical →
    b.Binds given x t' → b.Defines given known scope e x
  | .name s, _, scope, x, t, t', read, _, _, _ => by
    have read' : (Expr.name s).eval scope = .ok (.ref (.inline t)) := read
    rw [Expr.eval] at read'
    cases read'
  | .raw d, _, scope, x, t, t', read, _, _, _ => by
    have read' : (Expr.raw d).eval scope = .ok (.ref (.inline t)) := read
    rw [Expr.eval] at read'
    cases d <;> cases read'
  | .value tag, _, scope, x, t, t', read, _, form, binds => by
    have read' : (Expr.value tag).eval scope = .ok (.ref (.inline t)) := read
    rw [Expr.eval] at read'
    obtain ⟨t'', made, e⟩ := ofTy_cases read'
    cases e
    obtain ⟨s, rfl, -, rfl⟩ := value?_cases made
    obtain rfl := Ty.eq_value_of_canonical form
    cases binds with
    | value bound => exact .value bound
  | .var index, _, scope, x, t, t', read, _, _, _ => by
    have read' : (Expr.var index).eval scope = .ok (.ref (.inline t)) := read
    rw [Expr.eval] at read'
    split at read' <;> cases read'
  | .closed e, allowed, scope, x, t, t', read, origin, form, binds => by
    rw [Expr.bindTo] at read
    exact .closed (defines_of_binds apart tags e allowed.closed read origin form binds)
  | .product items, allowed, scope, x, t, t', read, origin, form, binds =>
    defines_product origin read form binds fun e he _ _ _ stored =>
      refers_of_stands apart tags e (allowed.product e he) stored
  | .union items, allowed, scope, x, t, t', read, origin, form, binds =>
    defines_union origin read form binds fun e he _ _ _ stored =>
      refers_of_stands apart tags e (allowed.union e he) stored
  | .mu label body, allowed, scope, x, t, t', read, origin, form, binds => by
    rw [Expr.bindTo] at read
    exact .mu (defines_of_binds apart tags body allowed.mu read origin form binds)
  | .list label elem, allowed, scope, x, t, t', read, origin, form, binds => by
    obtain ⟨r, rfl, stored, -⟩ := bindTo_list_cases read
    exact defines_list tags origin form binds fun _ _ =>
      refers_of_stands apart tags elem allowed.list stored
termination_by e => (sizeOf e, 0)

end

end

end TreeGrammar
