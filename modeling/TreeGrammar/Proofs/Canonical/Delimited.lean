import Mathlib.Data.List.Sort
import Mathlib.Data.String.Basic
import TreeGrammar.Counting.Recurrence
import TreeGrammar.Proofs.Canonical.Quotation

/-!
# Canonical forms delimit themselves

The canonical forms of references are a prefix code: a text that begins with one of them tells where
it ends (`Ref.isDelimited`). So a list of canonical forms can be read off the text that joins them,
and the canonical form of a type tells what the type is made of:

* `Ty.canonical_cases`: two types with one canonical form are the same value, two products whose
  items have the same canonical forms in the same order, or two unions whose members have the same
  canonical forms in some order;
* `Ty.eq_product_of_canonical`, `Ty.eq_union_of_canonical`: the same read from one of the two;
* `Ref.eq_name_of_canonical`: a name has its canonical form for itself;
* `Ref.canonical_eq_iff`, `Ty.canonical_eq_iff`: when references and types have one canonical form;
* `sequenceKey_inj`, `sequenceKey_ne_canonical`: the key of a sequence of items determines their
  canonical forms, and is no type's canonical form.
-/

namespace TreeGrammar

open Text

/-- A reference is delimited if a text that begins with its canonical form and with the canonical
form of any reference begins with the same form twice. -/
def Ref.IsDelimited (r : Ref) : Prop :=
  ∀ (r' : Ref) (u v : List Char), r.canonical.toList ++ u = r'.canonical.toList ++ v →
    r.canonical = r'.canonical ∧ u = v

/-! ### Joined texts -/

/-- The first of several joined texts stands in front of what joins it to the others. -/
theorem toList_intercalate_cons (sep w : String) (ws : List String) :
    (sep.intercalate (w :: ws)).toList =
      w.toList ++ (if ws = [] then [] else sep.toList ++ (sep.intercalate ws).toList) := by
  cases ws with
  | nil => simp
  | cons w' ws => simp

/-- No canonical form begins with a closing parenthesis. -/
theorem canonical_append_ne_paren (r : Ref) (u v : List Char) :
    r.canonical.toList ++ u ≠ ')' :: v := by
  rcases r with s | t | b
  · simp [Ref.canonical, toList_quote]
  · cases t <;> simp [Ref.canonical, Ty.canonical]
  · simp [Ref.canonical, Builder.mark]

/-- Joined canonical forms of delimited references can be told apart in front of a closing
parenthesis. -/
theorem intercalate_append_paren_inj {ws xs : List String}
    (hw : ∀ w ∈ ws, ∃ r : Ref, r.IsDelimited ∧ r.canonical = w)
    (hx : ∀ x ∈ xs, ∃ r : Ref, r.canonical = x) {u v : List Char}
    (h : (", ".intercalate ws).toList ++ ')' :: u = (", ".intercalate xs).toList ++ ')' :: v) :
    ws = xs ∧ u = v := by
  induction ws generalizing xs with
  | nil =>
    cases xs with
    | nil => simpa using h
    | cons x xs =>
      obtain ⟨r, rfl⟩ := hx x List.mem_cons_self
      rw [toList_intercalate_cons, List.append_assoc] at h
      exact absurd h.symm (canonical_append_ne_paren r _ _)
  | cons w ws ih =>
    obtain ⟨r, delimited, rfl⟩ := hw w List.mem_cons_self
    cases xs with
    | nil =>
      rw [toList_intercalate_cons, List.append_assoc] at h
      exact absurd h (canonical_append_ne_paren r _ _)
    | cons x xs =>
      obtain ⟨r', rfl⟩ := hx x List.mem_cons_self
      rw [toList_intercalate_cons, toList_intercalate_cons, List.append_assoc,
        List.append_assoc] at h
      obtain ⟨same, rest⟩ := delimited r' _ _ h
      by_cases hws : ws = []
      · by_cases hxs : xs = []
        · simpa [hws, hxs, same] using rest
        · simp [hws, hxs] at rest
      · by_cases hxs : xs = []
        · simp [hws, hxs] at rest
        · simp only [if_neg hws, if_neg hxs, List.append_assoc, List.append_cancel_left_eq] at rest
          obtain ⟨rfl, rfl⟩ := ih (fun w hw' => hw w (List.mem_cons_of_mem _ hw'))
            (fun x hx' => hx x (List.mem_cons_of_mem _ hx')) rest
          exact ⟨by rw [same], rfl⟩

/-- Sorting loses no text and brings none. -/
theorem mem_sortTexts {texts : List String} {w : String} : w ∈ sortTexts texts ↔ w ∈ texts :=
  (List.mergeSort_perm texts _).mem_iff

/-- Each of several canonical forms is that of one of the references. -/
theorem canonical_of_mem_canonicals {items : List Ref} {w : String}
    (h : w ∈ Ref.canonicals items) : ∃ r ∈ items, r.canonical = w := by
  rw [Ref.canonicals_eq_map] at h
  exact List.mem_map.1 h

/-! ### The canonical forms of references -/

/-- A text that goes on to the first closing parenthesis is determined by what stands before it. -/
theorem append_paren_inj {s t u v : List Char} (hs : ')' ∉ s) (ht : ')' ∉ t)
    (h : s ++ ')' :: u = t ++ ')' :: v) : s = t ∧ u = v := by
  rcases List.append_eq_append_iff.1 h with ⟨c, rfl, hc⟩ | ⟨c, rfl, hc⟩
  · cases c with
    | nil => simpa using hc
    | cons d c => simp_all
  · cases c with
    | nil => simpa using hc.symm
    | cons d c => simp_all

/-- The digits of a mark hold no bracket, so the bracket behind them ends it. -/
theorem paren_notMem_mark (b : Builder) :
    ')' ∉ b.identity.toList.flatMap fun c => hexDigits 6 c.toNat := by
  intro h
  obtain ⟨c, -, hc⟩ := List.mem_flatMap.1 h
  exact paren_notMem_hexDigits _ _ hc

/-- A name ends with its closing quote. -/
theorem Ref.isDelimited_name (s : String) : (Ref.name s).IsDelimited := by
  intro r' u v h
  rcases r' with s' | t | b
  · obtain ⟨rfl, rfl⟩ := quote_append_inj h
    exact ⟨rfl, rfl⟩
  · cases t <;> simp [Ref.canonical, Ty.canonical, toList_quote] at h
  · simp [Ref.canonical, Builder.mark, toList_quote] at h

/-- A mark ends with its bracket, which is no digit. -/
theorem Ref.isDelimited_deferred (b : Builder) : (Ref.deferred b).IsDelimited := by
  intro r' u v h
  rcases r' with s' | t | b'
  · simp [Ref.canonical, Builder.mark, toList_quote] at h
  · cases t <;> simp [Ref.canonical, Ty.canonical, Builder.mark] at h
  · simp only [Ref.canonical, Builder.mark, String.toList_append, String.toList_ofList,
      List.append_assoc] at h
    have digits := List.append_cancel_left h
    obtain ⟨same, rest⟩ := append_paren_inj (paren_notMem_mark b) (paren_notMem_mark b') digits
    exact ⟨by simp only [Ref.canonical, Builder.mark, same], rest⟩

/-- Only a type written in place has a canonical form that begins as one does. -/
theorem Ref.eq_inline_of_append {t : Ty} {r : Ref} {u v : List Char}
    (h : (Ref.inline t).canonical.toList ++ u = r.canonical.toList ++ v) :
    ∃ t', r = .inline t' := by
  rcases r with s | t' | b
  · cases t <;> simp [Ref.canonical, Ty.canonical, toList_quote] at h
  · exact ⟨t', rfl⟩
  · cases t <;> simp [Ref.canonical, Ty.canonical, Builder.mark] at h

/-- A value ends with the bracket behind its tag, and the tag with its closing quote. -/
theorem Ref.isDelimited_value (tag : String) : (Ref.inline (.value tag)).IsDelimited := by
  intro r' u v h
  obtain ⟨t, rfl⟩ := Ref.eq_inline_of_append h
  cases t with
  | value tag' =>
    simp only [Ref.canonical, Ty.canonical, String.toList_append, List.append_assoc] at h
    obtain ⟨rfl, rest⟩ := quote_append_inj (List.append_cancel_left h)
    exact ⟨rfl, List.append_cancel_left rest⟩
  | product items => simp [Ref.canonical, Ty.canonical] at h
  | union items => simp [Ref.canonical, Ty.canonical] at h

/-- The canonical forms of items can be told apart in whatever order they are joined. -/
theorem canonicals_append_paren_inj {items items' : List Ref} (ih : ∀ r ∈ items, r.IsDelimited)
    {ws xs : List String} (hw : ws ⊆ Ref.canonicals items) (hx : xs ⊆ Ref.canonicals items')
    {u v : List Char}
    (h : (", ".intercalate ws).toList ++ ')' :: u = (", ".intercalate xs).toList ++ ')' :: v) :
    ws = xs ∧ u = v :=
  intercalate_append_paren_inj
    (fun _ there => (canonical_of_mem_canonicals (hw there)).imp fun r hr => ⟨ih r hr.1, hr.2⟩)
    (fun _ there => (canonical_of_mem_canonicals (hx there)).imp fun _ hr => hr.2) h

/-- A product ends with the bracket behind its items, if each of these is delimited. -/
theorem Ref.isDelimited_product {items : List Ref} (ih : ∀ r ∈ items, r.IsDelimited) :
    (Ref.inline (.product items)).IsDelimited := by
  intro r' u v h
  obtain ⟨t, rfl⟩ := Ref.eq_inline_of_append h
  cases t with
  | value tag => simp [Ref.canonical, Ty.canonical] at h
  | product items' =>
    simp only [Ref.canonical, Ty.canonical, String.toList_append, List.append_assoc] at h
    obtain ⟨same, rest⟩ := canonicals_append_paren_inj ih (List.Subset.refl _)
      (List.Subset.refl _) (List.append_cancel_left h)
    exact ⟨by simp only [Ref.canonical, Ty.canonical, same], rest⟩
  | union items' => simp [Ref.canonical, Ty.canonical] at h

/-- A union ends with the bracket behind its sorted members, if each of these is delimited. -/
theorem Ref.isDelimited_union {items : List Ref} (ih : ∀ r ∈ items, r.IsDelimited) :
    (Ref.inline (.union items)).IsDelimited := by
  intro r' u v h
  obtain ⟨t, rfl⟩ := Ref.eq_inline_of_append h
  cases t with
  | value tag => simp [Ref.canonical, Ty.canonical] at h
  | product items' => simp [Ref.canonical, Ty.canonical] at h
  | union items' =>
    simp only [Ref.canonical, Ty.canonical, String.toList_append, List.append_assoc] at h
    obtain ⟨same, rest⟩ := canonicals_append_paren_inj ih (fun _ => mem_sortTexts.1)
      (fun _ => mem_sortTexts.1) (List.append_cancel_left h)
    exact ⟨by simp only [Ref.canonical, Ty.canonical, same], rest⟩

mutual

/-- The canonical forms of references are a prefix code. -/
theorem Ref.isDelimited : (r : Ref) → r.IsDelimited
  | .name s => Ref.isDelimited_name s
  | .inline (.value tag) => Ref.isDelimited_value tag
  | .inline (.product items) => Ref.isDelimited_product (Ref.isDelimited_all items)
  | .inline (.union items) => Ref.isDelimited_union (Ref.isDelimited_all items)
  | .deferred b => Ref.isDelimited_deferred b

/-- Every reference of a list is delimited. -/
theorem Ref.isDelimited_all : (items : List Ref) → ∀ r ∈ items, r.IsDelimited
  | [] => fun _ h => absurd h List.not_mem_nil
  | r :: rest => fun r' h => by
    rcases List.mem_cons.1 h with e | h
    · exact e ▸ Ref.isDelimited r
    · exact Ref.isDelimited_all rest r' h

end

/-! ### What a canonical form tells -/

/-- A list of canonical forms with separators between them, up to its bracket, determines the
forms. -/
theorem intercalate_canonical_inj {ws xs : List String} (hw : ∀ w ∈ ws, ∃ r : Ref, r.canonical = w)
    (hx : ∀ x ∈ xs, ∃ r : Ref, r.canonical = x)
    (h : ", ".intercalate ws ++ ")" = ", ".intercalate xs ++ ")") : ws = xs := by
  have h' := congrArg String.toList h
  rw [String.toList_append, String.toList_append] at h'
  exact (intercalate_append_paren_inj
    (fun w hw' => (hw w hw').imp fun r e => ⟨r.isDelimited, e⟩) hx h').1

/-- A name has its canonical form for itself. -/
theorem Ref.eq_name_of_canonical {r : Ref} {s : String} (h : r.canonical = (Ref.name s).canonical) :
    r = .name s := by
  rcases r with s' | t | b
  · exact congrArg Ref.name (quote_injective h)
  · have h' := congrArg String.toList h
    cases t <;> simp [Ref.canonical, Ty.canonical, toList_quote] at h'
  · have h' := congrArg String.toList h
    simp [Ref.canonical, Builder.mark, toList_quote] at h'

/-- Two types with one canonical form are the same value, products whose items have the same
canonical forms in order, or unions whose members have the same canonical forms in some order. -/
theorem Ty.canonical_cases {t t' : Ty} (h : t.canonical = t'.canonical) :
    (∃ tag, t = .value tag ∧ t' = .value tag) ∨
    (∃ items items', t = .product items ∧ t' = .product items' ∧
      items.map Ref.canonical = items'.map Ref.canonical) ∨
    (∃ items items', t = .union items ∧ t' = .union items' ∧
      (items.map Ref.canonical).Perm (items'.map Ref.canonical)) := by
  have forms : ∀ items : List Ref, ∀ w ∈ Ref.canonicals items, ∃ r : Ref, r.canonical = w :=
    fun items w hw => (canonical_of_mem_canonicals hw).imp fun r hr => hr.2
  have chars := congrArg String.toList h
  cases t with
  | value tag =>
    cases t' with
    | value tag' =>
      simp only [Ty.canonical, String.toList_append, List.append_assoc] at chars
      obtain ⟨rfl, -⟩ := quote_append_inj (List.append_cancel_left chars)
      exact Or.inl ⟨tag, rfl, rfl⟩
    | product items' => simp [Ty.canonical] at chars
    | union items' => simp [Ty.canonical] at chars
  | product items =>
    cases t' with
    | value tag' => simp [Ty.canonical] at chars
    | product items' =>
      simp only [Ty.canonical, String.append_assoc] at h
      have same := intercalate_canonical_inj (forms items) (forms items')
        (String.append_right_inj _ |>.1 h)
      rw [Ref.canonicals_eq_map, Ref.canonicals_eq_map] at same
      exact Or.inr (Or.inl ⟨items, items', rfl, rfl, same⟩)
    | union items' => simp [Ty.canonical] at chars
  | union items =>
    cases t' with
    | value tag' => simp [Ty.canonical] at chars
    | product items' => simp [Ty.canonical] at chars
    | union items' =>
      simp only [Ty.canonical, String.append_assoc] at h
      have same := intercalate_canonical_inj (fun w hw => forms items w (mem_sortTexts.1 hw))
        (fun w hw => forms items' w (mem_sortTexts.1 hw)) (String.append_right_inj _ |>.1 h)
      have perm := ((List.mergeSort_perm (Ref.canonicals items) _).symm.trans
        (List.Perm.of_eq same)).trans (List.mergeSort_perm (Ref.canonicals items') _)
      rw [Ref.canonicals_eq_map, Ref.canonicals_eq_map] at perm
      exact Or.inr (Or.inr ⟨items, items', rfl, rfl, perm⟩)

/-- Only a value has the canonical form of a value, and only with the same tag. -/
theorem Ty.eq_value_of_canonical {t : Ty} {tag : String}
    (h : t.canonical = (Ty.value tag).canonical) : t = .value tag := by
  obtain ⟨_, rfl, e⟩ | ⟨_, _, _, e, _⟩ | ⟨_, _, _, e, _⟩ := Ty.canonical_cases h
  · exact e.symm
  · cases e
  · cases e

/-- Products have the canonical forms of products only. -/
theorem Ty.eq_product_of_canonical {t : Ty} {items : List Ref}
    (h : t.canonical = (Ty.product items).canonical) :
    ∃ items', t = .product items' ∧ items'.map Ref.canonical = items.map Ref.canonical := by
  obtain ⟨_, _, e⟩ | ⟨items', _, rfl, e, same⟩ | ⟨_, _, _, e, _⟩ := Ty.canonical_cases h
  · cases e
  · cases e
    exact ⟨items', rfl, same⟩
  · cases e

/-- Unions have the canonical forms of unions only. -/
theorem Ty.eq_union_of_canonical {t : Ty} {items : List Ref}
    (h : t.canonical = (Ty.union items).canonical) :
    ∃ items', t = .union items' ∧
      (items'.map Ref.canonical).Perm (items.map Ref.canonical) := by
  obtain ⟨_, _, e⟩ | ⟨_, _, _, e, _⟩ | ⟨items', _, rfl, e, perm⟩ := Ty.canonical_cases h
  · cases e
  · cases e
  · cases e
    exact ⟨items', rfl, perm⟩

/-- A type written in place has the canonical form of such types only. -/
theorem Ref.eq_inline_of_canonical {r : Ref} {t : Ty}
    (h : r.canonical = (Ref.inline t).canonical) :
    ∃ t', r = .inline t' ∧ t'.canonical = t.canonical := by
  cases r with
  | name s =>
    have e := Ref.eq_name_of_canonical h.symm
    cases e
  | inline t' =>
    rw [Ref.canonical_inline, Ref.canonical_inline] at h
    exact ⟨t', rfl, h⟩
  | deferred b =>
    have chars := congrArg String.toList h
    cases t <;> simp [Ref.canonical, Ty.canonical, Builder.mark] at chars

/-- A builder has a mark of builders only. -/
theorem Ref.eq_deferred_of_canonical {r : Ref} {b : Builder}
    (h : r.canonical = (Ref.deferred b).canonical) : ∃ b', r = .deferred b' ∧ b'.mark = b.mark := by
  cases r with
  | name s =>
    have e := Ref.eq_name_of_canonical h.symm
    cases e
  | inline t =>
    obtain ⟨t', e, -⟩ := Ref.eq_inline_of_canonical h.symm
    cases e
  | deferred b' => exact ⟨b', rfl, h⟩

/-- When two references have one canonical form. -/
theorem Ref.canonical_eq_iff {r r' : Ref} : r.canonical = r'.canonical ↔
    (∃ s, r = .name s ∧ r' = .name s) ∨
    (∃ t t', r = .inline t ∧ r' = .inline t' ∧ t.canonical = t'.canonical) ∨
    (∃ b b', r = .deferred b ∧ r' = .deferred b' ∧ b.mark = b'.mark) := by
  constructor
  · intro h
    cases r with
    | name s => exact Or.inl ⟨s, rfl, Ref.eq_name_of_canonical h.symm⟩
    | inline t =>
      obtain ⟨t', rfl, same⟩ := Ref.eq_inline_of_canonical h.symm
      exact Or.inr (Or.inl ⟨t, t', rfl, rfl, same.symm⟩)
    | deferred b =>
      obtain ⟨b', rfl, same⟩ := Ref.eq_deferred_of_canonical h.symm
      exact Or.inr (Or.inr ⟨b, b', rfl, rfl, same.symm⟩)
  · rintro (⟨s, rfl, rfl⟩ | ⟨t, t', rfl, rfl, same⟩ | ⟨b, b', rfl, rfl, same⟩)
    · rfl
    · exact same
    · exact same

/-- Sorting tells apart exactly what is no permutation. -/
theorem sortTexts_eq_iff {texts texts' : List String} :
    sortTexts texts = sortTexts texts' ↔ texts.Perm texts' := by
  have sorted := fun texts : List String => List.mergeSort_perm texts fun s t => decide (s ≤ t)
  constructor
  · intro h
    exact ((sorted texts).symm.trans (List.Perm.of_eq h)).trans (sorted texts')
  · intro h
    refine List.Perm.eq_of_pairwise' (List.pairwise_mergeSort' (· ≤ ·) texts)
      (List.pairwise_mergeSort' (· ≤ ·) texts') ?_
    exact ((sorted texts).trans h).trans (sorted texts').symm

/-- When two types have one canonical form. -/
theorem Ty.canonical_eq_iff {t t' : Ty} : t.canonical = t'.canonical ↔
    (∃ tag, t = .value tag ∧ t' = .value tag) ∨
    (∃ items items', t = .product items ∧ t' = .product items' ∧
      items.map Ref.canonical = items'.map Ref.canonical) ∨
    (∃ items items', t = .union items ∧ t' = .union items' ∧
      (items.map Ref.canonical).Perm (items'.map Ref.canonical)) := by
  refine ⟨Ty.canonical_cases, ?_⟩
  rintro (⟨tag, rfl, rfl⟩ | ⟨items, items', rfl, rfl, same⟩ | ⟨items, items', rfl, rfl, perm⟩)
  · rfl
  · rw [Ty.canonical_product, Ty.canonical_product, same]
  · rw [Ty.canonical_union, Ty.canonical_union, sortTexts_eq_iff.2 perm]

/-- The key of a sequence of items determines their canonical forms. -/
theorem sequenceKey_inj {items items' : List Ref} (h : sequenceKey items = sequenceKey items') :
    items.map Ref.canonical = items'.map Ref.canonical := by
  simp only [sequenceKey, String.append_assoc] at h
  exact intercalate_canonical_inj (fun w hw => (List.mem_map.1 hw).imp fun r hr => hr.2)
    (fun w hw => (List.mem_map.1 hw).imp fun r hr => hr.2) (String.append_right_inj _ |>.1 h)

/-- The key of a sequence of items is no type's canonical form. -/
theorem sequenceKey_ne_canonical (items : List Ref) (t : Ty) : sequenceKey items ≠ t.canonical := by
  intro h
  have chars := congrArg String.toList h
  cases t <;> simp [sequenceKey, Ty.canonical] at chars

end TreeGrammar
