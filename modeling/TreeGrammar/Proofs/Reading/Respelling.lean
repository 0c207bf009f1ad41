import Mathlib
import TreeGrammar.Bindings.Extraction
import TreeGrammar.Proofs.Canonical.Delimited
import TreeGrammar.Proofs.Reading.Written

/-!
# Reading in another spelling

Expressions that differ in the spelling of names only are read alike: both are refused, or what they
are read as differs in the spelling of names only. The spelling of names decides which canonical
form comes first, but not which forms are the same, so a union keeps corresponding members.

* `Expr.respell`: an expression in another spelling.
* `Matching`: which text of one spelling is which of the other.
* `Ref.Alike`, `Ty.Alike`, `Builder.Alike`: what differs in spelling only.
* `Ref.Alike.canonical_eq_iff`: canonical forms are the same in both spellings or in none.
* `Agree`: two outcomes are both results, which are related, or both complaints.
* `Expr.eval_agree`, `Expr.bindTo_agree`, `Builder.typeNamed_agree`: expressions and builders are
  read alike.
-/

namespace TreeGrammar

/-! ### Spellings -/

/-- A text in another spelling. A tag stays as it is. -/
def respellText (f : String → String) (s : String) : String :=
  if isTag s then s else f s

namespace Expr

mutual

/-- An expression in another spelling. -/
def respell (f : String → String) : Expr → Expr
  | name s => name (respellText f s)
  | raw (.text s) => raw (.text (respellText f s))
  | raw d => raw d
  | value tag => value tag
  | product items => product (respellAll f items)
  | union items => union (respellAll f items)
  | list label elem => list label (elem.respell f)
  | mu label body => mu label (body.respell f)
  | var index => var index
  | closed e => closed (e.respell f)

/-- Several expressions in another spelling. -/
def respellAll (f : String → String) : List Expr → List Expr
  | [] => []
  | e :: rest => e.respell f :: respellAll f rest

end

mutual

/-- To spell an expression as it is changes nothing. -/
theorem respell_id : (e : Expr) → e.respell id = e
  | name s => by simp [respell, respellText]
  | raw d => by cases d <;> simp [respell, respellText]
  | value tag => by rw [respell]
  | product items => by rw [respell, respellAll_id items]
  | union items => by rw [respell, respellAll_id items]
  | list label elem => by rw [respell, respell_id elem]
  | mu label body => by rw [respell, respell_id body]
  | var index => by rw [respell]
  | closed e => by rw [respell, respell_id e]

/-- To spell several expressions as they are changes nothing. -/
theorem respellAll_id : (es : List Expr) → respellAll id es = es
  | [] => by rw [respellAll]
  | e :: rest => by rw [respellAll, respell_id e, respellAll_id rest]

end

end Expr

/-- Which text of one spelling is which of the other: no two are the same one, and a tag is itself
in both. The empty text is nothing but itself. -/
structure Matching (R : String → String → Prop) : Prop where
  one : ∀ {s s' t t'}, R s s' → R t t' → (s = t ↔ s' = t')
  tag : ∀ {s}, isTag s = true → R s s
  empty : ∀ {s s'}, R s s' → (s = "" ↔ s' = "")

/-- Every text matches itself. -/
theorem Matching.eq : Matching (· = ·) := by
  refine ⟨?_, fun _ => rfl, ?_⟩
  · rintro s _ t _ rfl rfl
    exact Iff.rfl
  · rintro s _ rfl
    exact Iff.rfl

/-- No two texts match one, on either side. -/
theorem Matching.biUnique {R : String → String → Prop} (m : Matching R) : Relator.BiUnique R :=
  ⟨fun _ _ _ h h' => (m.one h h').2 rfl, fun _ _ _ h h' => (m.one h h').1 rfl⟩

section Alike

variable (R : String → String → Prop) (f : String → String)

mutual

/-- References that differ in spelling only. -/
inductive Ref.Alike : Ref → Ref → Prop
  | name {s s' : String} (same : R s s') : Ref.Alike (.name s) (.name s')
  | inline {t t' : Ty} (same : Ty.Alike t t') : Ref.Alike (.inline t) (.inline t')
  | deferred {b b' : Builder} (same : Builder.Alike b b') : Ref.Alike (.deferred b) (.deferred b')

/-- Types that differ in spelling only. A union has members. -/
inductive Ty.Alike : Ty → Ty → Prop
  | value {tag : String} (tagged : isTag tag = true) : Ty.Alike (.value tag) (.value tag)
  | product {items items' : List Ref} (same : Ref.AllAlike items items') :
      Ty.Alike (.product items) (.product items')
  | union {items items' : List Ref} (nonempty : items ≠ []) (same : Ref.AllAlike items items') :
      Ty.Alike (.union items) (.union items')

/-- Builders that differ in spelling only: they come from one binder. -/
inductive Builder.Alike : Builder → Builder → Prop
  | written {label : Nat} {scope scope' : List String} {body : Expr}
      (scopes : List.Forall₂ R scope scope')
      (literals : ∀ s ∈ body.literals, R s (respellText f s)) :
      Builder.Alike (.written label scope body) (.written label scope' (body.respell f))
  | list {label : Nat} {scope scope' : List String} {elem elem' : Ref}
      (scopes : List.Forall₂ R scope scope') (same : Ref.Alike elem elem') :
      Builder.Alike (.list label scope elem) (.list label scope' elem')

/-- References that differ in spelling only, one by one. -/
inductive Ref.AllAlike : List Ref → List Ref → Prop
  | nil : Ref.AllAlike [] []
  | cons {r r' : Ref} {rest rest' : List Ref} (first : Ref.Alike r r')
      (others : Ref.AllAlike rest rest') : Ref.AllAlike (r :: rest) (r' :: rest')

end

/-- Operands that differ in spelling only. -/
inductive Operand.Alike : Operand → Operand → Prop
  | ref {r r' : Ref} (same : r.Alike R f r') : Operand.Alike (.ref r) (.ref r')
  | other (d : Datum) : Operand.Alike (.other d) (.other d)

end Alike

variable {R S : String → String → Prop} {f : String → String}

/-- References are alike in two lists exactly if they are alike one by one. -/
theorem Ref.allAlike_iff {items items' : List Ref} :
    Ref.AllAlike R f items items' ↔ List.Forall₂ (Ref.Alike R f) items items' := by
  constructor
  · intro h
    induction items generalizing items' with
    | nil =>
      cases h
      exact .nil
    | cons r rest ih =>
      cases h with
      | cons first others => exact .cons first (ih others)
  · intro h
    induction h with
    | nil => exact .nil
    | cons first _ ih => exact .cons first ih

mutual

/-- References that are alike are so if more texts match. -/
theorem Ref.Alike.mono (le : ∀ s s', R s s' → S s s') {r r' : Ref} :
    r.Alike R f r' → r.Alike S f r'
  | .name same => .name (le _ _ same)
  | .inline same => .inline (same.mono le)
  | .deferred same => .deferred (same.mono le)

/-- Types that are alike are so if more texts match. -/
theorem Ty.Alike.mono (le : ∀ s s', R s s' → S s s') {t t' : Ty} : t.Alike R f t' → t.Alike S f t'
  | .value tagged => .value tagged
  | .product same => .product (same.mono le)
  | .union nonempty same => .union nonempty (same.mono le)

/-- Builders that are alike are so if more texts match. -/
theorem Builder.Alike.mono (le : ∀ s s', R s s' → S s s') {b b' : Builder} :
    b.Alike R f b' → b.Alike S f b'
  | .written scopes literals => .written (scopes.imp le) fun s hs => le _ _ (literals s hs)
  | .list scopes same => .list (scopes.imp le) (same.mono le)

/-- References of two lists that are alike are so if more texts match. -/
theorem Ref.AllAlike.mono (le : ∀ s s', R s s' → S s s') {items items' : List Ref} :
    Ref.AllAlike R f items items' → Ref.AllAlike S f items items'
  | .nil => .nil
  | .cons first others => .cons (first.mono le) (others.mono le)

end

/-- The items of types that are alike are alike. -/
theorem Ty.Alike.items {t t' : Ty} (h : t.Alike R f t') : Ref.AllAlike R f t.items t'.items := by
  cases h with
  | value => exact .nil
  | product same => exact same
  | union _ same => exact same

/-! ### Canonical forms in both spellings -/

/-- The canonical forms of references up to some size, in both spellings. -/
def FormsAlike (R : String → String → Prop) (f : String → String) (n : Nat) (w w' : String) :
    Prop :=
  ∃ r r' : Ref, sizeOf r < n ∧ r.Alike R f r' ∧ r.canonical = w ∧ r'.canonical = w'

/-- Lists of references have their canonical forms in both spellings. -/
theorem formsAlike_map {n : Nat} {items items' : List Ref} (small : sizeOf items ≤ n)
    (same : Ref.AllAlike R f items items') :
    List.Forall₂ (FormsAlike R f n) (items.map Ref.canonical) (items'.map Ref.canonical) := by
  induction items generalizing items' with
  | nil =>
    cases same
    exact .nil
  | cons r rest ih =>
    rw [List.cons.sizeOf_spec] at small
    cases same with
    | cons first others =>
      exact .cons ⟨r, _, by omega, first, rfl, rfl⟩ (ih (by omega) others)

/-- Builders that are alike come from one binder. -/
theorem Builder.Alike.label_eq {b b' : Builder} (h : b.Alike R f b') : b.label = b'.label := by
  cases h <;> rfl

/-- The names around builders that are alike match. -/
theorem Builder.Alike.scopes {b b' : Builder} (h : b.Alike R f b') :
    List.Forall₂ R b.scope b'.scope := by
  cases h <;> assumption

/-- Builders have one mark in both spellings or in none. -/
theorem Builder.Alike.mark_eq_iff {b b' c c' : Builder} (m : Matching R) (hb : b.Alike R f b')
    (hc : c.Alike R f c') : b.mark = c.mark ↔ b'.mark = c'.mark := by
  have scopes : b.scope = c.scope ↔ b'.scope = c'.scope :=
    Relator.rel_eq m.biUnique.forall₂ hb.scopes hc.scopes
  rw [Builder.mark_eq_iff, Builder.mark_eq_iff, hb.label_eq, hc.label_eq, scopes]

/-- Types have one canonical form in both spellings or in none, if that is so for smaller
references. -/
theorem Ty.Alike.canonical_eq_iff {n : Nat} {t t' u u' : Ty}
    (unique : Relator.BiUnique (FormsAlike R f n)) (ht : t.Alike R f t') (hu : u.Alike R f u')
    (small : sizeOf t ≤ n) (small' : sizeOf u ≤ n) :
    t.canonical = u.canonical ↔ t'.canonical = u'.canonical := by
  rw [Ty.canonical_eq_iff, Ty.canonical_eq_iff]
  cases ht with
  | value tagged =>
    cases hu with
    | value tagged' => simp
    | product => simp
    | union => simp
  | product first =>
    cases hu with
    | value => simp
    | product second =>
      simp only [Ty.product.sizeOf_spec] at small small'
      have same := Relator.rel_eq unique.forall₂ (formsAlike_map (by omega) first)
        (formsAlike_map (by omega) second)
      simpa using same
    | union => simp
  | union _ first =>
    cases hu with
    | value => simp
    | product => simp
    | union _ second =>
      simp only [Ty.union.sizeOf_spec] at small small'
      have same := List.rel_perm unique (formsAlike_map (by omega) first)
        (formsAlike_map (by omega) second)
      simpa using same

/-- No two forms are alike to one, on either side, up to any size. The induction is on the size: the
forms of items are smaller than that of the whole. -/
theorem formsAlike_biUnique (m : Matching R) (n : Nat) : Relator.BiUnique (FormsAlike R f n) := by
  induction n with
  | zero =>
    refine ⟨?_, ?_⟩
    · rintro _ _ _ ⟨r, _, small, -⟩
      exact absurd small (Nat.not_lt_zero _)
    · rintro _ _ _ ⟨r, _, small, -⟩
      exact absurd small (Nat.not_lt_zero _)
  | succ n ih =>
    have both : ∀ {r r' q q' : Ref}, sizeOf r < n + 1 → sizeOf q < n + 1 → r.Alike R f r' →
        q.Alike R f q' → (r.canonical = q.canonical ↔ r'.canonical = q'.canonical) := by
      intro r r' q q' small small' hr hq
      rw [Ref.canonical_eq_iff, Ref.canonical_eq_iff]
      cases hr with
      | name first =>
        cases hq with
        | name second => simpa [eq_comm] using m.one first second
        | inline => simp
        | deferred => simp
      | inline first =>
        cases hq with
        | name => simp
        | inline second =>
          simp only [Ref.inline.sizeOf_spec] at small small'
          have same := first.canonical_eq_iff ih second (by omega) (by omega)
          simpa using same
        | deferred => simp
      | deferred first =>
        cases hq with
        | name => simp
        | inline => simp
        | deferred second => simpa using first.mark_eq_iff m second
    refine ⟨?_, ?_⟩
    · rintro w v w' ⟨r, r', small, first, rfl, rfl⟩ ⟨q, q', small', second, rfl, same⟩
      exact (both small small' first second).2 same.symm
    · rintro w w' v' ⟨r, r', small, first, rfl, rfl⟩ ⟨q, q', small', second, same, rfl⟩
      exact (both small small' first second).1 same.symm

/-- References have one canonical form in both spellings or in none. -/
theorem Ref.Alike.canonical_eq_iff {r r' q q' : Ref} (m : Matching R) (hr : r.Alike R f r')
    (hq : q.Alike R f q') : r.canonical = q.canonical ↔ r'.canonical = q'.canonical := by
  have unique := formsAlike_biUnique (f := f) m (sizeOf r + sizeOf q + 1)
  exact Relator.rel_eq unique ⟨r, r', by omega, hr, rfl, rfl⟩ ⟨q, q', by omega, hq, rfl, rfl⟩

/-- Lists whose items correspond keep corresponding items when repetitions are dropped. -/
theorem forall₂_eraseDupsBy {α β : Type} {P : α → β → Prop} {p : α → α → Bool} {q : β → β → Bool}
    (same : ∀ a b a' b', P a b → P a' b' → p a a' = q b b') {l : List α} {k : List β}
    (h : List.Forall₂ P l k) : List.Forall₂ P (l.eraseDupsBy p) (k.eraseDupsBy q) := by
  induction l using filter_induction generalizing k with
  | nil =>
    cases h
    exact .nil
  | cons a rest ih =>
    obtain ⟨b, rest', first, others, rfl⟩ := List.forall₂_cons_left_iff.1 h
    rw [List.eraseDupsBy_cons, List.eraseDupsBy_cons]
    refine .cons first (ih _ (List.rel_filter ?_ others))
    intro c d second
    dsimp only
    rw [same c d a b second first]

/-- A union keeps corresponding members. -/
theorem Ref.AllAlike.distinct {items items' : List Ref} (m : Matching R)
    (h : Ref.AllAlike R f items items') :
    Ref.AllAlike R f (Ref.distinct items) (Ref.distinct items') := by
  rw [Ref.allAlike_iff] at h ⊢
  have keyed : List.Forall₂ (fun p p' : String × Ref => p.1 = p.2.canonical ∧
      p'.1 = p'.2.canonical ∧ p.2.Alike R f p'.2)
      (items.map fun r => (r.canonical, r)) (items'.map fun r => (r.canonical, r)) :=
    List.forall₂_map_left_iff.2 (List.forall₂_map_right_iff.2
      (h.imp fun _ _ same => ⟨rfl, rfl, same⟩))
  have kept := forall₂_eraseDupsBy (p := (·.1 == ·.1)) (q := (·.1 == ·.1)) ?_ keyed
  · exact List.forall₂_map_left_iff.2 (List.forall₂_map_right_iff.2
      (kept.imp fun _ _ same => same.2.2))
  · rintro p p' q q' ⟨hp, hp', first⟩ ⟨hq, hq', second⟩
    rw [Bool.eq_iff_iff, beq_iff_eq, beq_iff_eq, hp, hp', hq, hq', first.canonical_eq_iff m second]

/-- Where there are references one is kept. -/
theorem Ref.distinct_ne_nil {items : List Ref} (h : items ≠ []) : Ref.distinct items ≠ [] := by
  cases items with
  | nil => exact absurd rfl h
  | cons r rest => simp [Ref.distinct, List.eraseDupsBy_cons]

/-! ### Reading in both spellings -/

/-- What is wrong is an argument of a constructor. -/
def Failure.IsComplaint (e : Failure) : Prop :=
  ∃ why, e = .construction why

/-- Two outcomes agree: both are results, which are related, or both are complaints. -/
def Agree {α β : Type} (P : α → β → Prop) (x : Except Failure α) (y : Except Failure β) : Prop :=
  (∃ a b, x = .ok a ∧ y = .ok b ∧ P a b) ∨
    ∃ e e', x = .error e ∧ y = .error e' ∧ e.IsComplaint ∧ e'.IsComplaint

namespace Agree

variable {α β : Type} {P : α → β → Prop} {x : Except Failure α} {y : Except Failure β}

/-- Two results that are related agree. -/
theorem ok {a : α} {b : β} (h : P a b) : Agree P (.ok a) (.ok b) :=
  Or.inl ⟨a, b, rfl, rfl, h⟩

/-- Two complaints agree, whatever is wrong. -/
theorem errors {e e' : Failure} (h : e.IsComplaint ∧ e'.IsComplaint) :
    Agree P (.error e) (.error e') :=
  Or.inr ⟨e, e', rfl, rfl, h⟩

/-- Two complaints of a constructor agree. -/
theorem complaints (why why' : Complaint) :
    Agree P (.error (.construction why)) (.error (.construction why')) :=
  errors ⟨⟨why, rfl⟩, why', rfl⟩

/-- Where the first outcome is a result the second is one. -/
theorem exists_ok (h : Agree P x y) {a : α} (result : x = .ok a) : ∃ b, y = .ok b ∧ P a b := by
  obtain ⟨a', b, rfl, rfl, related⟩ | ⟨e, e', rfl, rfl, -⟩ := h
  · cases result
    exact ⟨b, rfl, related⟩
  · cases result

end Agree

/-- Types that agree do so as operands. -/
theorem ofTy_agree {t t' : Except Failure Ty} (h : Agree (Ty.Alike R f) t t') :
    Agree (Operand.Alike R f) (Operand.ofTy t) (Operand.ofTy t') := by
  obtain ⟨t, t', rfl, rfl, same⟩ | ⟨_, _, rfl, rfl, wrong⟩ := h
  · exact .ok (.ref (.inline same))
  · exact .errors wrong

/-- A value is the same in both spellings, or refused in both. -/
theorem value?_agree (tag : Datum) : Agree (Ty.Alike R f) (Ty.value? tag) (Ty.value? tag) := by
  cases tag with
  | text s =>
    rw [Ty.value?]
    split
    · next tagged => exact .ok (.value tagged)
    · exact .complaints _ _
  | _ => exact .complaints _ _

/-- For an operand that is stored there is a reference. -/
theorem storeAll_ne_nil {former : Former} {o : Operand} {os : List Operand} {items : List Ref}
    (h : storeAll former (o :: os) = .ok items) : items ≠ [] := by
  obtain ⟨r, rs, -, -, rfl⟩ := storeAll_cons_cases h
  exact List.cons_ne_nil r rs

/-- Corresponding places of two lists hold corresponding texts. -/
theorem matching_getElem? {scope scope' : List String} (h : List.Forall₂ R scope scope')
    (i : Nat) : scope[i]? = none ∧ scope'[i]? = none ∨
      ∃ s s', scope[i]? = some s ∧ scope'[i]? = some s' ∧ R s s' := by
  induction h generalizing i with
  | nil => exact Or.inl ⟨List.getElem?_nil, List.getElem?_nil⟩
  | cons same _ ih =>
    cases i with
    | zero => exact Or.inr ⟨_, _, rfl, rfl, same⟩
    | succ i => simpa using ih i

section

variable (m : Matching R)
include m

/-- A constructor stores references that are alike, or refuses both operands: the empty text is
empty in both spellings. -/
theorem store_agree (former : Former) {o o' : Operand} (h : o.Alike R f o') :
    Agree (Ref.Alike R f) (store former o) (store former o') := by
  cases h with
  | ref same =>
    cases same with
    | @name s s' same =>
      rw [store, store]
      by_cases empty : s = ""
      · rw [if_pos empty, if_pos ((m.empty same).1 empty)]
        exact .complaints _ _
      · rw [if_neg empty, if_neg fun e => empty ((m.empty same).2 e)]
        exact .ok (.name same)
    | inline same =>
      cases same with
      | value tagged => exact .ok (.name (m.tag tagged))
      | product same => exact .ok (.inline (.product same))
      | union nonempty same => exact .ok (.inline (.union nonempty same))
    | deferred same => exact .ok (.deferred same)
  | other d => exact .complaints _ _

/-- A constructor stores references that are alike one by one, or complains in both spellings. -/
theorem storeAll_agree (former : Former) {os os' : List Operand}
    (h : List.Forall₂ (Operand.Alike R f) os os') :
    Agree (Ref.AllAlike R f) (storeAll former os) (storeAll former os') := by
  induction h with
  | nil => exact .ok .nil
  | cons first _ ih =>
    rw [storeAll, storeAll]
    obtain ⟨r, r', e, e', one⟩ | ⟨_, _, e, e', wrong⟩ := store_agree m former first
    · obtain ⟨rs, rs', es, es', others⟩ | ⟨_, _, es, es', wrong⟩ := ih
      · simp only [e, e', es, es']
        exact .ok (.cons one others)
      · simp only [e, e', es, es']
        exact .errors wrong
    · simp only [e, e']
      exact .errors wrong

/-- Products of operands that are alike are alike, or refused in both spellings. -/
theorem product?_agree {os os' : List Operand} (h : List.Forall₂ (Operand.Alike R f) os os') :
    Agree (Ty.Alike R f) (Ty.product? os) (Ty.product? os') := by
  rw [Ty.product?, Ty.product?]
  obtain ⟨items, items', e, e', same⟩ | ⟨_, _, e, e', wrong⟩ := storeAll_agree m .product h
  · simp only [e, e']
    exact .ok (.product same)
  · simp only [e, e']
    exact .errors wrong

/-- Unions of operands that are alike are alike, or refused in both spellings: they drop members in
the same places. -/
theorem union?_agree {os os' : List Operand} (h : List.Forall₂ (Operand.Alike R f) os os') :
    Agree (Ty.Alike R f) (Ty.union? os) (Ty.union? os') := by
  rw [Ty.union?, Ty.union?]
  cases h with
  | nil => exact .complaints _ _
  | cons first others =>
    rw [List.isEmpty_cons, List.isEmpty_cons, if_neg Bool.false_ne_true, if_neg Bool.false_ne_true]
    obtain ⟨items, items', e, e', same⟩ | ⟨_, _, e, e', wrong⟩ :=
      storeAll_agree m .union (.cons first others)
    · simp only [e, e']
      exact .ok (.union (Ref.distinct_ne_nil (storeAll_ne_nil e)) (same.distinct m))
    · simp only [e, e']
      exact .errors wrong

/-- Lists of element types that are alike are alike, under names that match. -/
theorem listOf_agree {elem elem' : Ref} {name name' : String} (h : elem.Alike R f elem')
    (names : R name name') :
    Agree (Ty.Alike R f) (Ty.listOf elem name) (Ty.listOf elem' name') := by
  rw [Ty.listOf, Ty.listOf]
  obtain ⟨cell, cell', e, e', same⟩ | ⟨_, _, e, e', wrong⟩ :=
    product?_agree m (.cons (.ref h) (.cons (.ref (.name names)) .nil))
  · simp only [e, e']
    exact union?_agree m
      (.cons (.ref (.name (m.tag isTag_emptyList))) (.cons (.ref (.inline same)) .nil))
  · simp only [e, e']
    exact .errors wrong

end

mutual

/-- An expression is read alike in both spellings. -/
theorem Expr.eval_agree (m : Matching R) {scope scope' : List String} : (e : Expr) →
    List.Forall₂ R scope scope' → (∀ s ∈ e.literals, R s (respellText f s)) →
    Agree (Operand.Alike R f) (e.eval scope) ((e.respell f).eval scope')
  | .name s, _, literals => by
    rw [Expr.respell, Expr.eval, Expr.eval]
    exact .ok (.ref (.name (literals s (by simp [Expr.literals]))))
  | .raw d, _, literals => by
    cases d with
    | text s =>
      rw [Expr.respell, Expr.eval, Expr.eval]
      exact .ok (.ref (.name (literals s (by simp [Expr.literals]))))
    | _ => exact .ok (.other _)
  | .value tag, _, _ => by
    rw [Expr.respell, Expr.eval, Expr.eval]
    exact ofTy_agree (value?_agree tag)
  | .product items, scopes, literals => by
    rw [Expr.literals] at literals
    rw [Expr.respell, Expr.eval, Expr.eval]
    obtain ⟨os, os', e, e', same⟩ | ⟨_, _, e, e', wrong⟩ :=
      Expr.evalAll_agree m items scopes literals
    · simp only [e, e']
      exact ofTy_agree (product?_agree m same)
    · simp only [e, e']
      exact .errors wrong
  | .union items, scopes, literals => by
    rw [Expr.literals] at literals
    rw [Expr.respell, Expr.eval, Expr.eval]
    obtain ⟨os, os', e, e', same⟩ | ⟨_, _, e, e', wrong⟩ :=
      Expr.evalAll_agree m items scopes literals
    · simp only [e, e']
      exact ofTy_agree (union?_agree m same)
    · simp only [e, e']
      exact .errors wrong
  | .list label elem, scopes, literals => by
    rw [Expr.literals] at literals
    rw [Expr.respell, Expr.eval, Expr.eval]
    obtain ⟨o, o', e, e', same⟩ | ⟨_, _, e, e', wrong⟩ := Expr.eval_agree m elem scopes literals
    · obtain ⟨r, r', es, es', same⟩ | ⟨_, _, es, es', wrong⟩ := store_agree m .list same
      · simp only [e, e', es, es']
        exact .ok (.ref (.deferred (.list scopes same)))
      · simp only [e, e', es, es']
        exact .errors wrong
    · simp only [e, e']
      exact .errors wrong
  | .mu label body, scopes, literals => by
    rw [Expr.literals] at literals
    rw [Expr.respell, Expr.eval, Expr.eval]
    exact .ok (.ref (.deferred (.written scopes literals)))
  | .var index, scopes, _ => by
    rw [Expr.respell, Expr.eval, Expr.eval]
    rcases matching_getElem? scopes index with ⟨e, e'⟩ | ⟨s, s', e, e', same⟩
    · simp only [e, e']
      exact .ok (.other _)
    · simp only [e, e']
      exact .ok (.ref (.name same))
  | .closed e, _, literals => by
    rw [Expr.literals] at literals
    rw [Expr.respell, Expr.eval, Expr.eval]
    exact Expr.eval_agree m e .nil literals

/-- Several expressions are read alike in both spellings. -/
theorem Expr.evalAll_agree (m : Matching R) {scope scope' : List String} : (es : List Expr) →
    List.Forall₂ R scope scope' → (∀ s ∈ Expr.literalsAll es, R s (respellText f s)) →
    Agree (List.Forall₂ (Operand.Alike R f)) (Expr.evalAll scope es)
      (Expr.evalAll scope' (Expr.respellAll f es))
  | [], _, _ => by
    rw [Expr.respellAll, Expr.evalAll, Expr.evalAll]
    exact .ok .nil
  | e :: rest, scopes, literals => by
    rw [Expr.literalsAll] at literals
    rw [Expr.respellAll, Expr.evalAll, Expr.evalAll]
    obtain ⟨o, o', e, e', first⟩ | ⟨_, _, e, e', wrong⟩ :=
      Expr.eval_agree m e scopes fun s hs => literals s (List.mem_append_left _ hs)
    · obtain ⟨os, os', es, es', others⟩ | ⟨_, _, es, es', wrong⟩ :=
        Expr.evalAll_agree m rest scopes fun s hs => literals s (List.mem_append_right _ hs)
      · simp only [e, e', es, es']
        exact .ok (.cons first others)
      · simp only [e, e', es, es']
        exact .errors wrong
    · simp only [e, e']
      exact .errors wrong

end

section

variable (m : Matching R)
include m

/-- An expression is read alike in both spellings for a name. -/
theorem Expr.bindTo_agree {name name' : String} (names : R name name') : (e : Expr) →
    {scope scope' : List String} → List.Forall₂ R scope scope' →
    (∀ s ∈ e.literals, R s (respellText f s)) →
    Agree (Operand.Alike R f) (e.bindTo name scope) ((e.respell f).bindTo name' scope')
  | .mu _ body, _, _, scopes, literals => by
    rw [Expr.literals] at literals
    rw [Expr.respell, Expr.bindTo, Expr.bindTo]
    exact Expr.bindTo_agree names body (.cons names scopes) literals
  | .closed e, _, _, _, literals => by
    rw [Expr.literals] at literals
    rw [Expr.respell, Expr.bindTo, Expr.bindTo]
    exact Expr.bindTo_agree names e .nil literals
  | .list label elem, scope, scope', scopes, literals => by
    rw [Expr.literals] at literals
    rw [Expr.respell, Expr.bindTo, Expr.bindTo]
    obtain ⟨o, o', e, e', same⟩ | ⟨_, _, e, e', wrong⟩ := Expr.eval_agree m elem scopes literals
    · obtain ⟨r, r', es, es', same⟩ | ⟨_, _, es, es', wrong⟩ := store_agree m .list same
      · simp only [e, e', es, es']
        exact ofTy_agree (listOf_agree m same names)
      · simp only [e, e', es, es']
        exact .errors wrong
    · simp only [e, e']
      exact .errors wrong
  | .name s, _, _, scopes, literals => by
    have read := Expr.eval_agree m (.name s) scopes literals
    rw [Expr.respell] at read ⊢
    exact read
  | .raw d, _, _, scopes, literals => by
    have read := Expr.eval_agree m (.raw d) scopes literals
    cases d <;> exact read
  | .value tag, _, _, scopes, literals => by
    have read := Expr.eval_agree m (.value tag) scopes literals
    rw [Expr.respell] at read ⊢
    exact read
  | .product items, _, _, scopes, literals => by
    have read := Expr.eval_agree m (.product items) scopes literals
    rw [Expr.respell] at read ⊢
    exact read
  | .union items, _, _, scopes, literals => by
    have read := Expr.eval_agree m (.union items) scopes literals
    rw [Expr.respell] at read ⊢
    exact read
  | .var index, _, _, scopes, literals => by
    have read := Expr.eval_agree m (.var index) scopes literals
    rw [Expr.respell] at read ⊢
    exact read

/-- A builder stands for the same type in both spellings, or for none in both. -/
theorem Builder.typeNamed_agree {b b' : Builder} {name name' : String} (h : b.Alike R f b')
    (names : R name name') : Agree (Ty.Alike R f) (b.typeNamed name) (b'.typeNamed name') := by
  have bound : Agree (Operand.Alike R f) (b.bindTo name) (b'.bindTo name') := by
    cases h with
    | written scopes literals => exact Expr.bindTo_agree m names _ (.cons names scopes) literals
    | list scopes same => exact ofTy_agree (listOf_agree m same names)
  rw [Builder.typeNamed, Builder.typeNamed]
  obtain ⟨o, o', e, e', same⟩ | ⟨_, _, e, e', wrong⟩ := bound
  · simp only [e, e']
    cases same with
    | ref same =>
      cases same with
      | name => exact .complaints _ _
      | inline same => exact .ok same
      | deferred => exact .complaints _ _
    | other => exact .complaints _ _
  · simp only [e, e']
    exact .errors wrong

end

end TreeGrammar
