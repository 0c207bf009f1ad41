import Mathlib
import TreeGrammar.Proofs.Sampling.Sources
import TreeGrammar.Proofs.Reading.Faithful
import TreeGrammar.Proofs.Reading.Respelling
import TreeGrammar.Trials.RandomGrammar

/-!
# What random grammars consist of

Whatever is drawn, a random grammar is made: each definition is a product of tags and names, or a
union of tags, earlier names and such products. Where only one item stands in a product, it is a tag
or an earlier name, too.

* `Draw.Succeeds`: whatever is drawn, a computation succeeds, and its result has a property.
* `Expr.StoredAs`: the reference that every constructor stores for an expression.
* `RandomGrammar.Tame`: the types of random grammars.
* `RandomGrammar.succeeds_definitions`: whatever is drawn, the definitions have such types.
-/

namespace TreeGrammar

/-! ### Computations that draw and succeed -/

namespace Draw

variable {α β : Type} {P : α → Prop} {Q : β → Prop}

/-- Whatever is drawn, a computation succeeds, and its result has a property. -/
def Succeeds (P : α → Prop) (x : ExceptT Failure Draw α) : Prop :=
  x.run.Always fun r => ∃ a, r = .ok a ∧ P a

/-- A result alone succeeds without a draw. -/
theorem Succeeds.pure {a : α} (h : P a) : Succeeds P (pure a : ExceptT Failure Draw α) :=
  ⟨a, rfl, h⟩

/-- Where a computation succeeds and so does what follows any of its results, both together
succeed. -/
theorem Succeeds.bind {x : ExceptT Failure Draw α} {f : α → ExceptT Failure Draw β}
    (h : Succeeds P x) (hf : ∀ a, P a → Succeeds Q (f a)) : Succeeds Q (x >>= f) := by
  rw [Succeeds, ExceptT.run_bind]
  refine Always.bind h ?_
  rintro _ ⟨a, rfl, ha⟩
  exact hf a ha

/-- What follows from the property of the results is one of them too. -/
theorem Succeeds.mono {P' : α → Prop} {x : ExceptT Failure Draw α} (h : Succeeds P x)
    (le : ∀ a, P a → P' a) : Succeeds P' x :=
  Always.mono h fun _ ⟨a, e, ha⟩ => ⟨a, e, le a ha⟩

/-- A toss succeeds, whatever it shows. -/
theorem succeeds_heads : Succeeds (fun _ => True) heads :=
  ⟨by decide, fun _ _ _ => ⟨_, rfl, trivial⟩⟩

/-- Drawing a word succeeds. -/
theorem succeeds_word : Succeeds (fun _ => True) word :=
  ⟨by decide, fun _ _ _ => ⟨_, rfl, trivial⟩⟩

/-- A place that is drawn among some is one of them. -/
theorem succeeds_index {n : Nat} (pos : 0 < n) : Succeeds (· < n) (RandomGrammar.index n) := by
  have below : Succeeds (fun r : Int => 0 ≤ r ∧ r < n) (numberBelow n) :=
    ⟨Int.natCast_pos.2 pos, fun r nonneg below => ⟨r, rfl, nonneg, below⟩⟩
  exact below.bind fun r ⟨nonneg, below⟩ => .pure (by omega)

end Draw

/-! ### What constructors store -/

/-- Every constructor stores one and the same reference for an expression that stands under no
binder, and the reference has a property. -/
def Expr.StoredAs (Q : Ref → Prop) (e : Expr) : Prop :=
  ∃ o r, e.eval [] = .ok o ∧ (∀ former, store former o = .ok r) ∧ Q r

namespace Expr

variable {Q : Ref → Prop} {es : List Expr}

/-- What follows from the property of the reference is one of it too. -/
theorem StoredAs.mono {Q' : Ref → Prop} {e : Expr} (h : e.StoredAs Q) (le : ∀ r, Q r → Q' r) :
    e.StoredAs Q' := by
  obtain ⟨o, r, read, stored, held⟩ := h
  exact ⟨o, r, read, stored, le r held⟩

/-- A name that is not empty is stored as it is. -/
theorem storedAs_name {s : String} (nonempty : s ≠ "") (held : Q (.name s)) :
    (Expr.name s).StoredAs Q :=
  ⟨.ref (.name s), .name s, by rw [eval], fun _ => if_neg nonempty, held⟩

/-- A value is stored as its tag. -/
theorem storedAs_value {tag : String} (h : isTag tag = true) (held : Q (.name tag)) :
    (Expr.value (.text tag)).StoredAs Q := by
  refine ⟨.ref (.inline (.value tag)), .name tag, ?_, fun _ => rfl, held⟩
  rw [eval, Ty.value?, if_pos h]
  rfl

/-- The items that are stored for several expressions. -/
theorem exists_storeAll (each : ∀ e ∈ es, e.StoredAs Q) :
    ∃ os items, evalAll [] es = .ok os ∧ (∀ former, storeAll former os = .ok items) ∧
      os.length = es.length ∧ items.length = es.length ∧ ∀ r ∈ items, Q r := by
  induction es with
  | nil =>
    exact ⟨[], [], by rw [evalAll], fun _ => rfl, rfl, rfl, fun r hr => absurd hr List.not_mem_nil⟩
  | cons e rest ih =>
    obtain ⟨⟨o, r, read, stored, held⟩, others⟩ := List.forall_mem_cons.1 each
    obtain ⟨os, items, read', stored', length, length', all⟩ := ih others
    refine ⟨o :: os, r :: items, ?_, fun former => ?_, congrArg Nat.succ length,
      congrArg Nat.succ length', List.forall_mem_cons.2 ⟨held, all⟩⟩
    · rw [evalAll, read]
      simp only [read']
    · rw [storeAll, stored former]
      simp only [stored' former]

/-- A product of expressions that are stored has the references stored for them. -/
theorem exists_eval_product (each : ∀ e ∈ es, e.StoredAs Q) :
    ∃ items, (Expr.product es).eval [] = .ok (.ref (.inline (.product items))) ∧
      items.length = es.length ∧ ∀ r ∈ items, Q r := by
  obtain ⟨os, items, read, stored, -, length, all⟩ := exists_storeAll each
  refine ⟨items, ?_, length, all⟩
  rw [eval, read]
  simp only [Ty.product?, stored, Operand.ofTy]

/-- A union has at least one of the items, and no others. -/
theorem exists_eval_union (nonempty : es ≠ []) (each : ∀ e ∈ es, e.StoredAs Q) :
    ∃ items, (Expr.union es).eval [] = .ok (.ref (.inline (.union items))) ∧
      items ≠ [] ∧ ∀ r ∈ items, Q r := by
  obtain ⟨os, items, read, stored, length, length', all⟩ := exists_storeAll each
  have some : es.length ≠ 0 := fun none => nonempty (List.length_eq_zero_iff.1 none)
  have empty : ¬os.isEmpty = true := by
    rw [List.isEmpty_iff_length_eq_zero, length]
    exact some
  refine ⟨Ref.distinct items, ?_, Ref.distinct_ne_nil fun none => some ?_, fun r hr =>
    all r ((Ref.distinct_sublist items).subset hr)⟩
  · rw [eval, read]
    simp only [Ty.union?, if_neg empty, stored, Operand.ofTy]
  · rw [← length', none]
    rfl

end Expr

namespace RandomGrammar

open Draw

/-! ### The types of random grammars -/

/-- Names of definitions begin like those handed out, but no digit follows. -/
theorem isDefinable_nameOf (i : Nat) : IsDefinable (nameOf i) := by
  refine ⟨fun empty => by simpa [nameOf] using congrArg String.toList empty, ?_⟩
  rw [← Bool.not_eq_true]
  intro tag
  obtain ⟨cs, e⟩ := isTag_iff.1 tag
  simp [nameOf] at e

/-- Two numbers make two names. -/
theorem nameOf_injective : Function.Injective nameOf := by
  intro i j same
  exact Nat.repr_inj.1 ((String.append_right_inj _).1 same)

/-- A tag or one of the first `i` names. -/
def Before (i : Nat) (r : Ref) : Prop :=
  ∃ s, r = .name s ∧ (isTag s = true ∨ ∃ k < i, s = nameOf k)

/-- What comes before a definition comes before later ones. -/
theorem Before.mono {i j : Nat} {r : Ref} (h : Before i r) (le : i ≤ j) : Before j r := by
  obtain ⟨s, e, known⟩ := h
  exact ⟨s, e, known.imp_right fun ⟨k, lt, same⟩ => ⟨k, lt.trans_le le, same⟩⟩

/-- A product of tags and names that is no alias. -/
inductive Compound (n : Nat) : Ty → Prop
  | intro {items : List Ref} (each : ∀ r ∈ items, Before n r) (length : items.length ≠ 1) :
      Compound n (.product items)

/-- What may be a member of a union in definition number `i` of `n`. -/
def Member (n i : Nat) (r : Ref) : Prop :=
  Before i r ∨ ∃ t, r = .inline t ∧ Compound n t

/-- The types that definition number `i` of `n` may have, and those nested in it. -/
inductive Tame (n i : Nat) : Ty → Prop
  | product {items : List Ref} (each : ∀ r ∈ items, Before n r)
      (single : items.length = 1 → ∀ r ∈ items, Before i r) : Tame n i (.product items)
  | union {items : List Ref} (nonempty : items ≠ []) (each : ∀ r ∈ items, Member n i r) :
      Tame n i (.union items)

/-- A product that is no alias may stand in any definition. -/
theorem Compound.tame {n : Nat} {t : Ty} (h : Compound n t) (i : Nat) : Tame n i t := by
  obtain ⟨each, length⟩ := h
  exact .product each fun one => absurd one length

/-- An expression is read as a type of definition number `i`. -/
def ReadAs (n i : Nat) (e : Expr) : Prop :=
  ∃ t, e.bindTo (nameOf i) [] = .ok (.ref (.inline t)) ∧ Tame n i t

/-! ### Whatever is drawn -/

/-- A value that is drawn is stored as a tag, which may stand anywhere. -/
theorem succeeds_value : Succeeds (fun e => ∀ i, e.StoredAs (Before i)) value := by
  refine (succeeds_index (by decide : 0 < 3)).bind fun k lt => .pure fun i => ?_
  have tag : isTag (["v_a", "v_b", "v_c"].getD k "v_a") = true := by
    interval_cases k <;> decide
  exact Expr.storedAs_value tag ⟨_, rfl, Or.inl tag⟩

/-- The name of an earlier definition is stored as it is. -/
theorem storedAs_nameOf {i k : Nat} (lt : k < i) : (Expr.name (nameOf k)).StoredAs (Before i) :=
  Expr.storedAs_name (isDefinable_nameOf k).1 ⟨_, rfl, Or.inr ⟨k, lt, rfl⟩⟩

/-- A leaf that is drawn is a tag or the name of an earlier definition. -/
theorem succeeds_leaf (i : Nat) : Succeeds (Expr.StoredAs (Before i)) (leaf i) := by
  have chosen : Succeeds (Expr.StoredAs (Before i)) value := succeeds_value.mono fun e h => h i
  rw [leaf]
  split
  · exact chosen
  · next some =>
    refine succeeds_heads.bind fun heads _ => ?_
    split
    · exact (succeeds_index (Nat.pos_of_ne_zero some)).bind fun k lt => .pure (storedAs_nameOf lt)
    · exact chosen

section

variable {n i : Nat} (inside : i < n)
include inside

/-- A reference that is drawn is a tag or one of the names. -/
theorem succeeds_anyRef : Succeeds (Expr.StoredAs (Before n)) (anyRef n i) := by
  refine succeeds_heads.bind fun heads _ => ?_
  split
  · refine (succeeds_index (Nat.zero_lt_of_lt inside)).bind fun k lt => .pure (storedAs_nameOf lt)
  · exact (succeeds_leaf i).mono fun e h => h.mono fun r before => before.mono inside.le

/-- As many references are drawn as are asked for, each a tag or one of the names. -/
theorem succeeds_anyRefs (count : Nat) :
    Succeeds (fun es => es.length = count ∧ ∀ e ∈ es, e.StoredAs (Before n))
      (anyRefs n i count) := by
  induction count with
  | zero => exact .pure ⟨rfl, fun e he => absurd he List.not_mem_nil⟩
  | succ count ih =>
    refine (succeeds_anyRef inside).bind fun e first => ih.bind fun es ⟨length, others⟩ => ?_
    exact .pure ⟨congrArg Nat.succ length, List.forall_mem_cons.2 ⟨first, others⟩⟩

/-- An alternative that is drawn may be a member of a union in the definition. -/
theorem succeeds_alternative : Succeeds (Expr.StoredAs (Member n i)) (alternative n i) := by
  refine succeeds_heads.bind fun heads _ => ?_
  split
  · refine (succeeds_anyRef inside).bind fun a first => ?_
    refine (succeeds_anyRef inside).bind fun b second => .pure ?_
    have both : ∀ e ∈ [a, b], e.StoredAs (Before n) :=
      List.forall_mem_cons.2 ⟨first, List.forall_mem_singleton.2 second⟩
    obtain ⟨items, read, length, each⟩ := Expr.exists_eval_product both
    refine ⟨_, _, read, fun _ => rfl, Or.inr ⟨_, rfl, each, ?_⟩⟩
    rw [length]
    exact Nat.succ_ne_self 1
  · exact (succeeds_leaf i).mono fun e h => h.mono fun r before => Or.inl before

/-- The alternatives that are drawn may be members of a union in the definition. -/
theorem succeeds_alternatives (count : Nat) :
    Succeeds (fun es => ∀ e ∈ es, e.StoredAs (Member n i)) (alternatives n i count) := by
  induction count with
  | zero => exact .pure fun e he => absurd he List.not_mem_nil
  | succ count ih =>
    refine (succeeds_alternative inside).bind fun e first => ih.bind fun es others => ?_
    exact .pure (List.forall_mem_cons.2 ⟨first, others⟩)

omit inside in
/-- A product of tags and names that is no alias is read as a type of any definition. -/
theorem readAs_product {es : List Expr} (each : ∀ e ∈ es, e.StoredAs (Before n))
    (length : es.length ≠ 1) : ReadAs n i (.product es) := by
  obtain ⟨items, read, same, all⟩ := Expr.exists_eval_product each
  exact ⟨_, read, .product all fun one => absurd (same.symm.trans one) length⟩

/-- An alias for a tag or for an earlier definition is read as a type of the definition. -/
theorem readAs_alias {e : Expr} (h : e.StoredAs (Before i)) : ReadAs n i (.product [e]) := by
  obtain ⟨items, read, -, all⟩ := Expr.exists_eval_product (List.forall_mem_singleton.2 h)
  exact ⟨_, read, .product (fun r hr => (all r hr).mono inside.le) fun _ => all⟩

omit inside in
/-- A union of what may be its members is read as a type of the definition. -/
theorem readAs_union {es : List Expr} (nonempty : es ≠ [])
    (each : ∀ e ∈ es, e.StoredAs (Member n i)) : ReadAs n i (.union es) := by
  obtain ⟨items, read, some, all⟩ := Expr.exists_eval_union nonempty each
  exact ⟨_, read, .union some all⟩

omit inside in
/-- The empty product may be a member of a union. -/
theorem storedAs_unit : Expr.unit.StoredAs (Member n i) := by
  have none : ∀ e ∈ ([] : List Expr), e.StoredAs (Before n) := fun e he =>
    absurd he List.not_mem_nil
  obtain ⟨items, read, length, -⟩ := Expr.exists_eval_product none
  obtain rfl := List.length_eq_zero_iff.1 length
  exact ⟨_, _, read, fun _ => rfl, Or.inr ⟨_, rfl, fun r hr => absurd hr List.not_mem_nil,
    Nat.zero_ne_one⟩⟩

/-- A list is the empty list or a cell, in which its own name stands. -/
theorem readAs_list {e : Expr} (label : Nat) (h : e.StoredAs (Before i)) :
    ReadAs n i (.list label e) := by
  obtain ⟨o, r, read, stored, before⟩ := h
  have cell : Ty.product? [.ref r, .ref (.name (nameOf i))] =
      .ok (.product [r, .name (nameOf i)]) := by
    obtain ⟨s, rfl, known⟩ := before
    have nonempty : s ≠ "" := by
      rintro rfl
      obtain tag | ⟨k, -, same⟩ := known
      · exact absurd tag (by decide)
      · exact (isDefinable_nameOf k).1 same.symm
    simp only [Ty.product?, storeAll, store, if_neg nonempty, if_neg (isDefinable_nameOf i).1]
  have whole : Ty.union? [.ref (.name emptyList),
      .ref (.inline (.product [r, .name (nameOf i)]))] =
      .ok (.union (Ref.distinct [.name emptyList, .inline (.product [r, .name (nameOf i)])])) := rfl
  have bound : (Expr.list label e).bindTo (nameOf i) [] = .ok (.ref (.inline (.union
      (Ref.distinct [.name emptyList, .inline (.product [r, .name (nameOf i)])])))) := by
    rw [Expr.bindTo, read]
    simp only [stored, Ty.listOf, cell, whole]
    rfl
  refine ⟨_, bound, .union (Ref.distinct_ne_nil (List.cons_ne_nil _ _)) fun r' hr' => ?_⟩
  obtain rfl | hr' := List.mem_cons.1 ((Ref.distinct_sublist _).subset hr')
  · exact Or.inl ⟨_, rfl, Or.inl isTag_emptyList⟩
  · obtain rfl := List.mem_singleton.1 hr'
    refine Or.inr ⟨_, rfl, List.forall_mem_cons.2 ⟨before.mono inside.le,
      List.forall_mem_singleton.2 ⟨_, rfl, Or.inr ⟨i, inside, rfl⟩⟩⟩, Nat.succ_ne_self 1⟩

/-- A body that is drawn is read as a type of its definition, in whichever way it is put together.
-/
theorem succeeds_body : Succeeds (ReadAs n i) (body n i) := by
  refine (succeeds_index (by decide : 0 < 6)).bind fun kind _ => ?_
  split
  · refine (succeeds_index Nat.two_pos).bind fun more _ => ?_
    refine (succeeds_anyRefs inside (2 + more)).bind fun es ⟨length, each⟩ => .pure ?_
    exact readAs_product each (by omega)
  · exact (succeeds_leaf i).bind fun e before => .pure (readAs_alias inside before)
  · refine (succeeds_leaf i).bind fun e before => .pure ?_
    refine readAs_union (List.cons_ne_nil _ _) (List.forall_mem_cons.2 ⟨storedAs_unit, ?_⟩)
    exact List.forall_mem_singleton.2 (before.mono fun r => Or.inl)
  · exact (succeeds_leaf i).bind fun e before => .pure (readAs_list inside i before)
  · refine (succeeds_leaf i).bind fun first before => ?_
    refine (succeeds_index (by decide : 0 < 3)).bind fun more _ => ?_
    refine (succeeds_alternatives inside more).bind fun others each => .pure ?_
    exact readAs_union (List.cons_ne_nil _ _)
      (List.forall_mem_cons.2 ⟨before.mono fun r => Or.inl, each⟩)

end

variable {n : Nat}

/-- Each of the definitions from a number on has a type as it may have. -/
theorem succeeds_expressionsFrom {left : Nat} (fits : left ≤ n) :
    Succeeds (fun es => List.Forall₂ (fun p i => p.1 = nameOf i ∧ ReadAs n i p.2) es
      (List.range' (n - left) left)) (expressionsFrom n left) := by
  induction left with
  | zero => exact .pure .nil
  | succ left ih =>
    refine (succeeds_body (by omega)).bind fun e read => (ih (by omega)).bind fun es others => ?_
    refine .pure ?_
    rw [List.range'_succ, show n - (left + 1) + 1 = n - left by omega]
    exact .cons ⟨rfl, read⟩ others

/-- Definitions with the names of a random grammar, in order, and types as these may have. -/
def TameAll (n : Nat) (ds : List Definition) : Prop :=
  List.Forall₂ (fun d i => d.name = nameOf i ∧ Tame n i d.type) ds (List.range n)

/-- Definitions are made of expressions that are read as types. -/
theorem exists_makeAll {es : List (String × Expr)} {numbers : List Nat}
    (each : List.Forall₂ (fun p i => p.1 = nameOf i ∧ ReadAs n i p.2) es numbers) :
    ∃ ds, Definition.makeAll es = .ok ds ∧
      List.Forall₂ (fun d i => d.name = nameOf i ∧ Tame n i d.type) ds numbers := by
  induction each with
  | nil => exact ⟨[], rfl, .nil⟩
  | @cons p i es numbers first _ ih =>
    obtain ⟨ds, made, tame⟩ := ih
    obtain ⟨name, e⟩ := p
    obtain ⟨rfl, t, read, first⟩ := first
    rw [Expr.bindTo_eq] at read
    rcases eval : e.eval [] with err | o
    · rw [eval] at read
      cases read
    · rw [eval] at read
      refine ⟨⟨nameOf i, t, isDefinable_nameOf i⟩ :: ds, ?_, .cons ⟨rfl, first⟩ tame⟩
      rw [Definition.makeAll, eval]
      simp only [make_of_bindTo (isDefinable_nameOf i) read, made]

/-- Whatever is drawn, a random grammar has its definitions. -/
theorem succeeds_definitions (n : Nat) : Succeeds (TameAll n) (definitions n) := by
  refine (succeeds_expressionsFrom (le_refl n)).bind fun es each => ?_
  rw [Nat.sub_self] at each
  obtain ⟨ds, made, tame⟩ := exists_makeAll each
  rw [made]
  refine .pure ?_
  rw [TameAll, List.range_eq_range']
  exact tame

end RandomGrammar

end TreeGrammar
