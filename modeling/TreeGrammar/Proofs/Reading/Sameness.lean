import Mathlib
import TreeGrammar.Proofs.Canonical.Marks
import TreeGrammar.Proofs.Reading.Realisation
import TreeGrammar.Proofs.Reading.Tidy

/-!
# Canonical forms tell types apart

Two types are the same if they differ in the order and the repetition of the members of unions, at
any level. A union drops the repetitions as it is made, and its canonical form sorts what is left,
so canonical forms agree exactly on types that are the same: no two others are taken for one another
where members are compared, where counts are kept, or where grammars are compared as texts.

* `Ref.Same`, `Ty.Same`: equality up to order and repetition.
* `Ref.reduced`, `Ty.reduced`: the members of all unions without repetitions.
* `Ref.told`: canonical forms of reduced references agree exactly if the references are the same.
* `Expr.written?`: what an expression without binders says, with all repetitions.
* `Expr.eval_reduced`: it is read as what it says, reduced.
* `Grammar.canonical_eq_iff`: when two grammars have one canonical form.
* `canonical_iff_same`: what canonical forms, keys and the canonical forms of grammars tell apart.
-/

namespace TreeGrammar

open Text

/-! ### Equality up to order and repetition -/

mutual

/-- Two references are the same up to the order and the repetition of the members of unions.
Builders are the same if they come from one binder under the same names. -/
def Ref.Same : Ref → Ref → Prop
  | .name s, .name s' => s = s'
  | .inline t, .inline t' => t.Same t'
  | .deferred b, .deferred b' => b.label = b'.label ∧ b.scope = b'.scope
  | _, _ => False

/-- Two types are the same up to the order and the repetition of the members of unions. -/
def Ty.Same : Ty → Ty → Prop
  | .value tag, .value tag' => tag = tag'
  | .product items, .product items' => Ref.SameInOrder items items'
  | .union items, .union items' => Ref.EachIn items items' ∧ ∀ r' ∈ items', Ref.SomeIs items r'
  | _, _ => False

/-- The references of two lists are the same one by one. -/
def Ref.SameInOrder : List Ref → List Ref → Prop
  | [], [] => True
  | r :: rest, r' :: rest' => r.Same r' ∧ Ref.SameInOrder rest rest'
  | _, _ => False

/-- Each of the first references is the same as one of the second. -/
def Ref.EachIn : List Ref → List Ref → Prop
  | [], _ => True
  | r :: rest, items' => (∃ r' ∈ items', r.Same r') ∧ Ref.EachIn rest items'

/-- Some of the references is the same as the one given. -/
def Ref.SomeIs : List Ref → Ref → Prop
  | [], _ => False
  | r :: rest, r' => r.Same r' ∨ Ref.SomeIs rest r'

end

/-- References are the same in order exactly if they are one by one. -/
theorem Ref.sameInOrder_iff {items items' : List Ref} :
    Ref.SameInOrder items items' ↔ List.Forall₂ Ref.Same items items' := by
  induction items generalizing items' with
  | nil => cases items' <;> simp [Ref.SameInOrder]
  | cons r rest ih => cases items' <;> simp [Ref.SameInOrder, ih]

/-- Each reference is in a list exactly if it has one that is the same there. -/
theorem Ref.eachIn_iff {items items' : List Ref} :
    Ref.EachIn items items' ↔ ∀ r ∈ items, ∃ r' ∈ items', r.Same r' := by
  induction items with
  | nil => simp [Ref.EachIn]
  | cons r rest ih => simp [Ref.EachIn, ih]

/-- Some reference is the one given exactly if it is the same. -/
theorem Ref.someIs_iff {items : List Ref} {r' : Ref} :
    Ref.SomeIs items r' ↔ ∃ r ∈ items, r.Same r' := by
  induction items with
  | nil => simp [Ref.SomeIs]
  | cons r rest ih => simp [Ref.SomeIs, ih]

/-- Products are the same exactly if their items are one by one. -/
theorem Ty.same_product_iff {items items' : List Ref} :
    (Ty.product items).Same (.product items') ↔ List.Forall₂ Ref.Same items items' := by
  rw [Ty.Same, Ref.sameInOrder_iff]

/-- Two unions are the same if each member of one is the same as some member of the other. -/
theorem Ty.same_union_iff {items items' : List Ref} :
    (Ty.union items).Same (.union items') ↔
      (∀ r ∈ items, ∃ r' ∈ items', r.Same r') ∧ ∀ r' ∈ items', ∃ r ∈ items, r.Same r' := by
  simp only [Ty.Same, Ref.eachIn_iff, Ref.someIs_iff]

/-! ### Without repetitions -/

mutual

/-- A reference in which the members of all unions are kept once each. -/
def Ref.reduced : Ref → Ref
  | .name s => .name s
  | .inline t => .inline t.reduced
  | .deferred b => .deferred b

/-- A type in which the members of all unions are kept once each. -/
def Ty.reduced : Ty → Ty
  | .value tag => .value tag
  | .product items => .product (Ref.reducedAll items)
  | .union items => .union (Ref.distinct (Ref.reducedAll items))

/-- Several references reduced. -/
def Ref.reducedAll : List Ref → List Ref
  | [] => []
  | r :: rest => r.reduced :: Ref.reducedAll rest

end

/-- Several references are reduced as each of them is. -/
theorem Ref.reducedAll_eq_map (items : List Ref) :
    Ref.reducedAll items = items.map Ref.reduced := by
  induction items with
  | nil => simp [Ref.reducedAll]
  | cons r rest ih => simp [Ref.reducedAll, ih]

/-- The forms that are kept are the forms that there were. -/
theorem Ref.mem_canonical_distinct {items : List Ref} {form : String} :
    form ∈ (Ref.distinct items).map Ref.canonical ↔ form ∈ items.map Ref.canonical := by
  constructor
  · exact fun kept => ((Ref.distinct_sublist items).map Ref.canonical).subset kept
  · intro there
    obtain ⟨r, hr, rfl⟩ := List.mem_map.1 there
    exact Ref.canonical_mem_distinct hr

/-- What two unions keep has the same canonical forms in some order if the members of each have
canonical forms of members of the other, however often. -/
theorem Ref.perm_canonical_distinct_iff {items items' : List Ref} :
    ((Ref.distinct items).map Ref.canonical).Perm ((Ref.distinct items').map Ref.canonical) ↔
      (∀ r ∈ items, ∃ r' ∈ items', r.canonical = r'.canonical) ∧
        ∀ r' ∈ items', ∃ r ∈ items, r.canonical = r'.canonical := by
  rw [List.perm_ext_iff_of_nodup (Ref.nodup_canonical_distinct items)
    (Ref.nodup_canonical_distinct items')]
  constructor
  · intro same
    constructor
    · intro r hr
      have there := (same _).1 (Ref.canonical_mem_distinct hr)
      obtain ⟨r', hr', form⟩ := List.mem_map.1 (Ref.mem_canonical_distinct.1 there)
      exact ⟨r', hr', form.symm⟩
    · intro r' hr'
      have back := (same _).2 (Ref.canonical_mem_distinct hr')
      exact List.mem_map.1 (Ref.mem_canonical_distinct.1 back)
  · rintro ⟨there, back⟩ form
    rw [Ref.mem_canonical_distinct, Ref.mem_canonical_distinct]
    constructor
    · intro h
      obtain ⟨r, hr, rfl⟩ := List.mem_map.1 h
      obtain ⟨r', hr', form⟩ := there r hr
      exact List.mem_map.2 ⟨r', hr', form.symm⟩
    · intro h
      obtain ⟨r', hr', rfl⟩ := List.mem_map.1 h
      exact List.mem_map.2 (back r' hr')

/-- The canonical forms of a reduced reference and of any other one agree exactly if the references
are the same. -/
def Ref.Told (r : Ref) : Prop :=
  ∀ r' : Ref, r.reduced.canonical = r'.reduced.canonical ↔ r.Same r'

/-- Items in order are told apart if each is. -/
theorem Ref.told_items {items items' : List Ref} (each : ∀ r ∈ items, r.Told) :
    (Ref.reducedAll items).map Ref.canonical = (Ref.reducedAll items').map Ref.canonical ↔
      List.Forall₂ Ref.Same items items' := by
  rw [Ref.reducedAll_eq_map, Ref.reducedAll_eq_map]
  induction items generalizing items' with
  | nil => cases items' <;> simp
  | cons r rest ih =>
    obtain ⟨first, others⟩ := List.forall_mem_cons.1 each
    cases items' with
    | nil => simp
    | cons r' rest' =>
      simp only [List.map_cons, List.cons.injEq, List.forall₂_cons, first r', ih others]

/-- What two unions keep has the same canonical forms in some order exactly if the unions are the
same. -/
theorem Ref.told_members {items items' : List Ref} (each : ∀ r ∈ items, r.Told) :
    ((Ref.distinct (Ref.reducedAll items)).map Ref.canonical).Perm
        ((Ref.distinct (Ref.reducedAll items')).map Ref.canonical) ↔
      (∀ r ∈ items, ∃ r' ∈ items', r.Same r') ∧ ∀ r' ∈ items', ∃ r ∈ items, r.Same r' := by
  rw [Ref.perm_canonical_distinct_iff, Ref.reducedAll_eq_map, Ref.reducedAll_eq_map]
  simp only [List.mem_map, forall_exists_index, and_imp, forall_apply_eq_imp_iff₂,
    exists_exists_and_eq_and]
  refine and_congr (forall₂_congr fun r hr => exists_congr fun r' => ?_)
    (forall₂_congr fun r' _ => exists_congr fun r => ?_)
  · exact and_congr_right fun _ => each r hr r'
  · exact and_congr_right fun hr => each r hr r'

/-- A product is told apart by its items in order. -/
theorem Ref.told_product {items : List Ref} (each : ∀ r ∈ items, r.Told) :
    (Ref.inline (.product items)).Told := by
  intro r'
  rcases r' with s | (tag | items' | items') | b
  case inline.product =>
    simp [Ref.canonical_eq_iff, Ty.canonical_eq_iff, Ref.reduced, Ty.reduced, Ref.Same,
      Ty.same_product_iff, Ref.told_items each]
  all_goals
    simp [Ref.canonical_eq_iff, Ty.canonical_eq_iff, Ref.reduced, Ty.reduced, Ref.Same, Ty.Same]

/-- A union is told apart by the forms of its members, whatever their order and repetition: sorting
leaves the set of forms that occur. -/
theorem Ref.told_union {items : List Ref} (each : ∀ r ∈ items, r.Told) :
    (Ref.inline (.union items)).Told := by
  intro r'
  rcases r' with s | (tag | items' | items') | b
  case inline.union =>
    simp [Ref.canonical_eq_iff, Ty.canonical_eq_iff, Ref.reduced, Ty.reduced, Ref.Same,
      Ty.same_union_iff, Ref.told_members each]
  all_goals
    simp [Ref.canonical_eq_iff, Ty.canonical_eq_iff, Ref.reduced, Ty.reduced, Ref.Same, Ty.Same]

/-- Names, values and builders are told apart: their forms determine them, or what they come
from. -/
theorem Ref.told_leaf {r : Ref}
    (leaf : (∃ s, r = .name s) ∨ (∃ tag, r = .inline (.value tag)) ∨ ∃ b, r = .deferred b) :
    r.Told := by
  intro r'
  rcases leaf with ⟨s, rfl⟩ | ⟨tag, rfl⟩ | ⟨b, rfl⟩ <;>
    rcases r' with s' | (tag' | items' | items') | b' <;>
    simp [Ref.canonical_eq_iff, Ty.canonical_eq_iff, Ref.reduced, Ty.reduced, Ref.Same, Ty.Same,
      Builder.mark_eq_iff, eq_comm]

mutual

/-- Canonical forms tell exactly the references that are not the same. -/
theorem Ref.told : (r : Ref) → r.Told
  | .name s => Ref.told_leaf (.inl ⟨s, rfl⟩)
  | .inline (.value tag) => Ref.told_leaf (.inr (.inl ⟨tag, rfl⟩))
  | .inline (.product items) => Ref.told_product (Ref.told_all items)
  | .inline (.union items) => Ref.told_union (Ref.told_all items)
  | .deferred b => Ref.told_leaf (.inr (.inr ⟨b, rfl⟩))

/-- Every reference of a list is told apart. -/
theorem Ref.told_all : (items : List Ref) → ∀ r ∈ items, r.Told
  | [] => fun _ h => absurd h List.not_mem_nil
  | r :: rest => fun r' h => by
    rcases List.mem_cons.1 h with e | h
    · exact e ▸ Ref.told r
    · exact Ref.told_all rest r' h

end

/-! ### What is read is reduced -/

/-- A reference as a constructor stores it: a value is stored as its tag. -/
def Ref.asItem : Ref → Ref
  | .inline (.value tag) => .name tag
  | r => r

/-- To store a reference and to reduce it can be done in either order. -/
theorem Ref.asItem_reduced (r : Ref) : r.reduced.asItem = r.asItem.reduced := by
  rcases r with s | (tag | items | items) | b <;> simp [Ref.reduced, Ty.reduced, Ref.asItem]

/-- A constructor that stores a reference stores it as an item. -/
theorem store_eq_asItem {former : Former} {r r' : Ref} (h : store former (.ref r) = .ok r') :
    r' = r.asItem := by
  rcases store_cases h with ⟨tag, e, rfl⟩ | e
  · cases e
    rfl
  · cases e
    rcases r with s | (tag | items | items) | b
    case inline.value => cases h
    all_goals rfl

namespace Expr

mutual

/-- What an expression without binders says: the reference it is read as, had unions kept all their
members. -/
def written? : Expr → Option Ref
  | name s => some (.name s)
  | raw (.text s) => some (.name s)
  | raw _ => none
  | value (.text tag) => some (.inline (.value tag))
  | value _ => none
  | product items => (writtenAll? items).map fun rs => .inline (.product rs)
  | union items => (writtenAll? items).map fun rs => .inline (.union rs)
  | list _ _ => none
  | mu _ _ => none
  | var _ => none
  | closed e => e.written?

/-- What several expressions say, as items of a constructor. -/
def writtenAll? : List Expr → Option (List Ref)
  | [] => some []
  | e :: rest =>
    match e.written?, writtenAll? rest with
    | some r, some rs => some (r.asItem :: rs)
    | _, _ => none

end

mutual

/-- An expression without binders is read as what it says, reduced. -/
theorem eval_reduced {scope : List String} : (e : Expr) → {r : Ref} → e.written? = some r →
    {o : Operand} → e.eval scope = .ok o → o = .ref r.reduced
  | .name s, r, said, o, read => by
    rw [written?] at said
    rw [eval] at read
    cases said
    cases read
    rfl
  | .raw d, r, said, o, read => by
    rw [eval] at read
    cases read
    cases d with
    | text s =>
      rw [written?] at said
      cases said
      rfl
    | _ => cases said
  | .value tag, r, said, o, read => by
    rw [eval] at read
    obtain ⟨t, made, rfl⟩ := ofTy_cases read
    obtain ⟨s, rfl, -, rfl⟩ := value?_cases made
    rw [written?] at said
    cases said
    rfl
  | .product items, r, said, o, read => by
    rw [written?] at said
    obtain ⟨rs, each, rfl⟩ := Option.map_eq_some_iff.1 said
    rw [eval] at read
    split at read
    · cases read
    · next os readAll =>
      obtain ⟨t, made, rfl⟩ := ofTy_cases read
      obtain ⟨stored, storedAll, rfl⟩ := product?_cases made
      rw [Ref.reduced, Ty.reduced, storeAll_reduced items each readAll storedAll]
  | .union items, r, said, o, read => by
    rw [written?] at said
    obtain ⟨rs, each, rfl⟩ := Option.map_eq_some_iff.1 said
    rw [eval] at read
    split at read
    · cases read
    · next os readAll =>
      obtain ⟨t, made, rfl⟩ := ofTy_cases read
      obtain ⟨stored, storedAll, rfl⟩ := union?_cases made
      rw [Ref.reduced, Ty.reduced, storeAll_reduced items each readAll storedAll]
  | .closed e, r, said, o, read => by
    rw [written?] at said
    rw [eval] at read
    exact eval_reduced e said read
  | .list _ _, _, said, _, _ => by
    rw [written?] at said
    cases said
  | .mu _ _, _, said, _, _ => by
    rw [written?] at said
    cases said
  | .var _, _, said, _, _ => by
    rw [written?] at said
    cases said

/-- What a constructor stores for several expressions is what they say, reduced. -/
theorem storeAll_reduced {former : Former} {scope : List String} : (es : List Expr) →
    {rs : List Ref} → writtenAll? es = some rs → {os : List Operand} →
    evalAll scope es = .ok os → {items : List Ref} → storeAll former os = .ok items →
    items = Ref.reducedAll rs
  | [], rs, said, os, read, items, stored => by
    rw [writtenAll?] at said
    rw [evalAll] at read
    cases said
    cases read
    cases stored
    rfl
  | e :: rest, rs, said, os, read, items, stored => by
    rw [writtenAll?] at said
    split at said
    · next r rs first others =>
      cases said
      obtain ⟨o, os', one, more, rfl⟩ := evalAll_cons_cases read
      obtain ⟨item, items', kept, keptAll, rfl⟩ := storeAll_cons_cases stored
      rw [eval_reduced e first one] at kept
      rw [store_eq_asItem kept, storeAll_reduced rest others more keptAll, Ref.reducedAll,
        Ref.asItem_reduced]
    · cases said

end

end Expr

/-- A reference is made of what an expression without binders says. -/
def Ref.MadeOf (r said : Ref) : Prop :=
  ∃ (e : Expr) (scope : List String), e.written? = some said ∧ e.eval scope = .ok (.ref r)

/-- What is made of an expression is what it says, reduced. -/
theorem Ref.MadeOf.eq_reduced {r said : Ref} (h : r.MadeOf said) : r = said.reduced := by
  obtain ⟨e, scope, written, read⟩ := h
  cases Expr.eval_reduced e written read
  rfl

/-! ### What is tidy is reduced already -/

/-- Members with distinct canonical forms are all kept. -/
theorem Ref.distinct_eq_self {items : List Ref} (apart : (items.map Ref.canonical).Nodup) :
    Ref.distinct items = items := by
  have perm := (List.perm_ext_iff_of_nodup (Ref.nodup_canonical_distinct items) apart).2
    fun _ => Ref.mem_canonical_distinct
  exact (Ref.distinct_sublist items).eq_of_length (by simpa using perm.length_eq)

mutual

/-- A tidy reference is reduced already. -/
theorem Ref.reduced_eq_self : (r : Ref) → r.Tidy → r.reduced = r
  | .name s, _ => by rw [Ref.reduced]
  | .inline t, h => by rw [Ref.reduced, Ty.reduced_eq_self t h]
  | .deferred b, _ => by rw [Ref.reduced]

/-- A tidy type is reduced already. -/
theorem Ty.reduced_eq_self : (t : Ty) → t.Tidy → t.reduced = t
  | .value tag, _ => by rw [Ty.reduced]
  | .product items, h => by rw [Ty.reduced, Ref.reducedAll_eq_self items h]
  | .union items, h => by
    rw [Ty.reduced, Ref.reducedAll_eq_self items h.2, Ref.distinct_eq_self h.1]

/-- Tidy references are reduced already. -/
theorem Ref.reducedAll_eq_self : (items : List Ref) → Ref.AllTidy items →
    Ref.reducedAll items = items
  | [], _ => by rw [Ref.reducedAll]
  | r :: rest, h => by
    rw [Ref.reducedAll, Ref.reduced_eq_self r h.1, Ref.reducedAll_eq_self rest h.2]

end

/-- What is made of an expression is tidy. -/
theorem Ref.MadeOf.tidy {r said : Ref} (h : r.MadeOf said) : r.Tidy := by
  obtain ⟨e, scope, -, read⟩ := h
  exact (passedOn_tidy e.binders).eval e (fun _ binder => binder) read

/-- Tidy references have one canonical form exactly if they are the same. -/
theorem Ref.Tidy.canonical_eq_iff {r r' : Ref} (tidy : r.Tidy) (tidy' : r'.Tidy) :
    r.canonical = r'.canonical ↔ r.Same r' := by
  rw [← Ref.told r r', Ref.reduced_eq_self r tidy, Ref.reduced_eq_self r' tidy']

/-! ### Canonical forms of grammars -/

/-- The line of a name in the canonical form of a grammar. -/
def Grammar.line (p : String × Ty) : String :=
  quote p.1 ++ " := " ++ p.2.canonical

/-- A line determines its name, its type up to form, and what comes behind it. -/
theorem Grammar.line_append_inj {p p' : String × Ty} {u v : List Char}
    (h : (line p).toList ++ u = (line p').toList ++ v) :
    p.1 = p'.1 ∧ p.2.canonical = p'.2.canonical ∧ u = v := by
  simp only [line, String.toList_append, List.append_assoc] at h
  obtain ⟨names, rest⟩ := quote_append_inj h
  obtain ⟨types, rest⟩ := (Ref.inline p.2).isDelimited (.inline p'.2) u v (by
    rw [Ref.canonical_inline, Ref.canonical_inline]
    exact List.append_cancel_left rest)
  rw [Ref.canonical_inline, Ref.canonical_inline] at types
  exact ⟨names, types, rest⟩

/-- A line is not empty. -/
theorem Grammar.line_ne_nil (p : String × Ty) (u : List Char) : (line p).toList ++ u ≠ [] := by
  simp [line, toList_quote]

/-- Lines joined by breaks determine the names and the forms of the types. The induction is on the
lines, each of which determines where it ends. -/
theorem Grammar.lines_inj {types types' : List (String × Ty)}
    (h : "\n".intercalate (types.map line) = "\n".intercalate (types'.map line)) :
    List.Forall₂ (fun p p' => p.1 = p'.1 ∧ p.2.canonical = p'.2.canonical) types types' := by
  induction types generalizing types' with
  | nil =>
    cases types' with
    | nil => exact .nil
    | cons p' rest' =>
      have chars := congrArg String.toList h
      rw [List.map_cons, toList_intercalate_cons] at chars
      exact absurd chars.symm (line_ne_nil p' _)
  | cons p rest ih =>
    have chars := congrArg String.toList h
    rw [List.map_cons, toList_intercalate_cons] at chars
    cases types' with
    | nil => exact absurd chars (line_ne_nil p _)
    | cons p' rest' =>
      rw [List.map_cons, toList_intercalate_cons] at chars
      obtain ⟨names, types, others⟩ := line_append_inj chars
      refine .cons ⟨names, types⟩ ?_
      cases rest with
      | nil =>
        cases rest' with
        | nil => exact .nil
        | cons q' rest' => simp at others
      | cons q rest =>
        cases rest' with
        | nil => simp at others
        | cons q' rest' =>
          rw [if_neg (by simp), if_neg (by simp)] at others
          exact ih (String.toList_inj.1 (List.append_cancel_left others))

/-- Names with types of one form each have the same lines. -/
theorem Grammar.lines_eq {types types' : List (String × Ty)}
    (h : List.Forall₂ (fun p p' => p.1 = p'.1 ∧ p.2.canonical = p'.2.canonical) types types') :
    types.map line = types'.map line := by
  induction h with
  | nil => rfl
  | cons first _ ih => rw [List.map_cons, List.map_cons, ih, line, line, first.1, first.2]

/-- Two grammars have one canonical form exactly if they bind the same names, in order, to types
with the same canonical forms. -/
theorem Grammar.canonical_eq_iff {g g' : Grammar} :
    g.canonical = g'.canonical ↔
      List.Forall₂ (fun p p' => p.1 = p'.1 ∧ p.2.canonical = p'.2.canonical) g.types g'.types :=
  ⟨lines_inj, fun h => congrArg ("\n".intercalate ·) (lines_eq h)⟩

/-! ### What is told apart -/

/-- References have one form exactly if the expressions that they are made of say the same. -/
theorem Ref.MadeOf.canonical_eq_iff {r r' said said' : Ref} (h : r.MadeOf said)
    (h' : r'.MadeOf said') : r.canonical = r'.canonical ↔ said.Same said' := by
  rw [h.eq_reduced, h'.eq_reduced]
  exact Ref.told said said'

/-- References of two lists have one form each exactly if the expressions say the same one by
one. -/
theorem Ref.canonicals_eq_iff {items items' said said' : List Ref}
    (h : List.Forall₂ Ref.MadeOf items said) (h' : List.Forall₂ Ref.MadeOf items' said') :
    items.map Ref.canonical = items'.map Ref.canonical ↔ List.Forall₂ Ref.Same said said' := by
  induction h generalizing items' said' with
  | nil => cases h' <;> simp
  | cons first _ ih =>
    cases h' with
    | nil => simp
    | cons first' others' =>
      rw [List.map_cons, List.map_cons, List.cons.injEq, List.forall₂_cons,
        first.canonical_eq_iff first', ih others']

/-- Items have one key exactly if they have one form each. -/
theorem sequenceKey_eq_iff {items items' : List Ref} :
    sequenceKey items = sequenceKey items' ↔ items.map Ref.canonical = items'.map Ref.canonical :=
  ⟨sequenceKey_inj, fun h => by rw [sequenceKey, sequenceKey, h]⟩

/-- A constructor stores references as items. -/
theorem storeAll_eq_asItem {former : Former} {items stored : List Ref}
    (h : storeAll former (items.map .ref) = .ok stored) : stored = items.map Ref.asItem := by
  induction items generalizing stored with
  | nil =>
    cases h
    rfl
  | cons r rest ih =>
    rw [List.map_cons] at h
    obtain ⟨r', rs, first, others, rfl⟩ := storeAll_cons_cases h
    rw [List.map_cons, store_eq_asItem first, ih others]

/-- A tidy reference is a tidy item. -/
theorem Ref.Tidy.asItem {r : Ref} (h : r.Tidy) : r.asItem.Tidy := by
  rcases r with s | (tag | items | items) | b
  case inline.value => exact trivial
  all_goals exact h

/-- A union keeps the members that are not the same as an earlier one. -/
theorem Ty.union?_keeps {items : List Ref} {t : Ty} (tidy : ∀ r ∈ items, r.Tidy)
    (made : Ty.union? (items.map .ref) = .ok t) :
    ∃ kept, t = .union kept ∧ kept.Sublist (items.map Ref.asItem) ∧
      kept.Pairwise (fun r r' => ¬ r.Same r') ∧ ∀ r ∈ items, ∃ r' ∈ kept, r'.Same r.asItem := by
  obtain ⟨stored, storedAll, rfl⟩ := union?_cases made
  rw [storeAll_eq_asItem storedAll]
  have tidyItem : ∀ r ∈ items.map Ref.asItem, r.Tidy := by
    intro item there
    obtain ⟨r, hr, rfl⟩ := List.mem_map.1 there
    exact (tidy r hr).asItem
  have sub := Ref.distinct_sublist (items.map Ref.asItem)
  refine ⟨_, rfl, sub, ?_, fun r hr => ?_⟩
  · have apart := List.pairwise_map.1 (Ref.nodup_canonical_distinct (items.map Ref.asItem))
    refine apart.imp_of_mem fun hr hr' other same => other ?_
    exact ((tidyItem _ (sub.subset hr)).canonical_eq_iff (tidyItem _ (sub.subset hr'))).2 same
  · have there := List.mem_map_of_mem (f := Ref.asItem) hr
    obtain ⟨r', hr', form⟩ := List.mem_map.1 (Ref.canonical_mem_distinct there)
    exact ⟨r', hr', ((tidyItem _ (sub.subset hr')).canonical_eq_iff (tidyItem _ there)).1 form⟩

/-- The types of a grammar, each with its name, are made of what some expressions say. -/
def Grammar.MadeOf (g : Grammar) (said : List (String × Ty)) : Prop :=
  List.Forall₂ (fun p q => p.1 = q.1 ∧ (Ref.inline p.2).MadeOf (.inline q.2)) g.types said

/-- Grammars have one form exactly if they bind the same names, in order, to types that the
expressions say to be the same. -/
theorem Grammar.MadeOf.canonical_eq_iff {g g' : Grammar} {said said' : List (String × Ty)}
    (h : g.MadeOf said) (h' : g'.MadeOf said') :
    g.canonical = g'.canonical ↔
      List.Forall₂ (fun p p' => p.1 = p'.1 ∧ p.2.Same p'.2) said said' := by
  obtain ⟨types⟩ := g
  obtain ⟨types'⟩ := g'
  rw [Grammar.canonical_eq_iff]
  unfold Grammar.MadeOf at h h'
  dsimp only at h h' ⊢
  induction h generalizing types' said' with
  | nil => cases h' <;> simp
  | cons first _ ih =>
    cases h' with
    | nil => simp
    | cons first' others' =>
      have types := first.2.canonical_eq_iff first'.2
      rw [Ref.canonical_inline, Ref.canonical_inline, Ref.Same] at types
      rw [List.forall₂_cons, List.forall₂_cons, first.1, first'.1, types, ih _ others']

/-- Canonical forms tell apart exactly what is not the same up to the order and the repetition of
the members of unions, at every level. References made of what expressions without binders say have
one canonical form, and are equal, exactly if the expressions say the same; so have types one key,
and sequences of items one key, which is no type's. A union keeps one member of those that are the
same, and no two. Two grammars have one canonical form exactly if they bind the same names, in
order, to types that are the same. -/
theorem canonical_iff_same {r r' said said' : Ref} (made : r.MadeOf said)
    (made' : r'.MadeOf said') {items items' saidAll saidAll' : List Ref}
    (each : List.Forall₂ Ref.MadeOf items saidAll)
    (each' : List.Forall₂ Ref.MadeOf items' saidAll') {g g' : Grammar}
    {types types' : List (String × Ty)} (binds : g.MadeOf types) (binds' : g'.MadeOf types') :
    (r.canonical = r'.canonical ↔ said.Same said') ∧
    ((Operand.ref r).equals (.ref r') = true ↔ said.Same said') ∧
    (∀ t t', r = .inline t → r' = .inline t' →
      ((Rule.ofTy t).key = (Rule.ofTy t').key ↔ said.Same said')) ∧
    (sequenceKey items = sequenceKey items' ↔ List.Forall₂ Ref.Same saidAll saidAll') ∧
    (∀ t, sequenceKey items ≠ (Rule.ofTy t).key) ∧
    (∀ t, Ty.union? (items.map .ref) = .ok t →
      ∃ kept, t = .union kept ∧ kept.Sublist (items.map Ref.asItem) ∧
        kept.Pairwise (fun r r' => ¬ r.Same r') ∧ ∀ r ∈ items, ∃ r' ∈ kept, r'.Same r.asItem) ∧
    (g.canonical = g'.canonical ↔
      List.Forall₂ (fun p p' => p.1 = p'.1 ∧ p.2.Same p'.2) types types') := by
  have told := made.canonical_eq_iff made'
  refine ⟨told, ?_, ?_, ?_, fun t => sequenceKey_ne_canonical items t, fun t union => ?_,
    binds.canonical_eq_iff binds'⟩
  · rw [← told, Operand.equals, beq_iff_eq]
  · rintro t t' rfl rfl
    exact told
  · rw [sequenceKey_eq_iff, Ref.canonicals_eq_iff each each']
  · refine Ty.union?_keeps (fun r hr => ?_) union
    obtain ⟨said, -, made⟩ := exists_of_forall₂_left each r hr
    exact made.tidy

/-- A tag in front of a name and behind it. -/
def sandwiched : Ty :=
  .union [.name "v_a", .name "b", .name "v_a"]

/-- What is kept of it. -/
def opened : Ty :=
  .union [.name "v_a", .name "b"]

/-- The union with a repetition is read, and the repetition is dropped. -/
theorem opened_madeOf : (Ref.inline opened).MadeOf (.inline sandwiched) :=
  ⟨.union [.value (.text "v_a"), .name "b", .name "v_a"], [], by cbv, by cbv⟩

/-- The union in the other order is read as it is written. -/
theorem swapped_madeOf :
    (Ref.inline (.union [.name "b", .name "v_a"])).MadeOf
      (.inline (.union [.name "b", .name "v_a"])) :=
  ⟨.union [.name "b", .value (.text "v_a")], [], by cbv, by cbv⟩

/-- A union written with a repetition, and the same union in another order. -/
theorem canonical_iff_same_opened :
    (Ref.inline opened).canonical = (Ref.inline (.union [.name "b", .name "v_a"])).canonical ∧
      sequenceKey [.inline opened] ≠ sequenceKey [] ∧
      (Grammar.mk [("x", opened)]).canonical =
        (Grammar.mk [("x", .union [.name "b", .name "v_a"])]).canonical := by
  have same : sandwiched.Same (.union [.name "b", .name "v_a"]) :=
    Ty.same_union_iff.2 (by simp [Ref.Same])
  have binds : (Grammar.mk [("x", opened)]).MadeOf [("x", sandwiched)] :=
    .cons ⟨rfl, opened_madeOf⟩ .nil
  have binds' : (Grammar.mk [("x", .union [.name "b", .name "v_a"])]).MadeOf
      [("x", .union [.name "b", .name "v_a"])] := .cons ⟨rfl, swapped_madeOf⟩ .nil
  obtain ⟨forms, -, -, keys, -, -, grammars⟩ := canonical_iff_same opened_madeOf swapped_madeOf
    (.cons opened_madeOf .nil) .nil binds binds'
  refine ⟨forms.2 (by rwa [Ref.Same]), fun h => ?_, grammars.2 (.cons ⟨rfl, same⟩ .nil)⟩
  cases keys.1 h

end TreeGrammar
