import TreeGrammar.Reading

/-!
# Reading brings no types that were not written

The weight of what an expression is read as is at most the weight of the expression, and what a
builder stands for under a name weighs at most as much as the builder: a constructor counts one,
stores its items without repetitions, and turns values into tags. This is why the naming of nested
types ends.

* `Expr.weight_eval`, `Expr.weight_bindTo`: the weight of what an expression is read as.
* `Builder.weight_bindTo`: the weight of what a builder stands for under a name.
-/

namespace TreeGrammar

/-- The weights of several operands together. -/
def Operand.weights : List Operand → Nat
  | [] => 0
  | o :: rest => o.weight + weights rest

/-- What a constructor stores for an operand weighs no more than the operand. -/
theorem weight_store {former : Former} {o : Operand} {r : Ref} (h : store former o = .ok r) :
    r.weight ≤ o.weight := by
  unfold store at h
  split at h
  · cases h; simp [Ref.weight]
  · split at h
    · cases h
    · cases h; simp [Ref.weight]
  · cases h; exact Nat.le_refl _
  · cases h

/-- Operands are stored one after the other: the first, and then the rest. -/
theorem storeAll_cons_cases {former : Former} {o : Operand} {rest : List Operand}
    {items : List Ref} (h : storeAll former (o :: rest) = .ok items) :
    ∃ r rs, store former o = .ok r ∧ storeAll former rest = .ok rs ∧ items = r :: rs := by
  rw [storeAll] at h
  split at h
  · cases h
  · next r first =>
    split at h
    · cases h
    · next rs others =>
      cases h
      exact ⟨r, rs, first, others, rfl⟩

/-- The references that a constructor stores weigh no more than its operands. -/
theorem weights_storeAll {former : Former} {operands : List Operand} {items : List Ref}
    (h : storeAll former operands = .ok items) :
    Ref.weights items ≤ Operand.weights operands := by
  induction operands generalizing items with
  | nil => cases h; exact Nat.le_refl _
  | cons o rest ih =>
    obtain ⟨r, rs, first, others, rfl⟩ := storeAll_cons_cases h
    have h1 := weight_store first
    have h2 := ih others
    simp only [Ref.weights, Operand.weights]
    omega

/-- References that were left out weigh nothing. -/
theorem Ref.weights_le_of_sublist {l₁ l₂ : List Ref} (h : l₁.Sublist l₂) :
    Ref.weights l₁ ≤ Ref.weights l₂ := by
  induction h with
  | slnil => exact Nat.le_refl _
  | cons r _ ih => simp only [Ref.weights]; omega
  | cons_cons r _ ih => simp only [Ref.weights]; omega

/-- Induction over a list whose rest is filtered before it goes on, as it is when the repetitions of
the first item are dropped. -/
@[elab_as_elim]
theorem filter_induction {α : Type} {motive : List α → Prop} (nil : motive [])
    (cons : ∀ a rest, (∀ p : α → Bool, motive (rest.filter p)) → motive (a :: rest))
    (l : List α) : motive l := by
  match l with
  | [] => exact nil
  | a :: rest => exact cons a rest fun p => filter_induction nil cons (rest.filter p)
termination_by l.length
decreasing_by
  have := List.length_filter_le p rest
  simp only [List.length_cons]
  omega

/-- Erasing repetitions leaves a sublist. -/
theorem eraseDupsBy_sublist {α : Type} (r : α → α → Bool) (l : List α) :
    (l.eraseDupsBy r).Sublist l := by
  induction l using filter_induction with
  | nil => simp
  | cons a rest ih =>
    rw [List.eraseDupsBy_cons]
    exact ((ih _).trans List.filter_sublist).cons_cons a

/-- Without the repetitions the references stand in their order. -/
theorem Ref.distinct_sublist (items : List Ref) : (Ref.distinct items).Sublist items := by
  have h := (eraseDupsBy_sublist (fun p q : String × Ref => p.1 == q.1)
    (items.map fun r => (r.canonical, r))).map Prod.snd
  simpa [Ref.distinct, Function.comp_def] using h

/-- A product weighs at most one more than its operands. -/
theorem weight_product? {operands : List Operand} {t : Ty} (h : Ty.product? operands = .ok t) :
    t.weight ≤ 1 + Operand.weights operands := by
  unfold Ty.product? at h
  split at h
  · cases h
  · next items hi =>
    cases h
    have := weights_storeAll hi
    simp only [Ty.weight]
    omega

/-- A union weighs at most one more than its operands: what it drops weighs nothing. -/
theorem weight_union? {operands : List Operand} {t : Ty} (h : Ty.union? operands = .ok t) :
    t.weight ≤ 1 + Operand.weights operands := by
  unfold Ty.union? at h
  split at h
  · cases h
  · split at h
    · cases h
    · next items hi =>
      cases h
      have h1 := weights_storeAll hi
      have h2 := Ref.weights_le_of_sublist (Ref.distinct_sublist items)
      simp only [Ty.weight]
      omega

/-- A leaf weighs at most one. -/
theorem weight_value? {tag : Datum} {t : Ty} (h : Ty.value? tag = .ok t) : t.weight ≤ 1 := by
  unfold Ty.value? at h
  split at h
  · split at h
    · cases h; simp [Ty.weight]
    · cases h
  · cases h

/-- The lists of an element type bring at most two types more, the union and the cell. -/
theorem weight_listOf {elem : Ref} {name : String} {t : Ty} (h : Ty.listOf elem name = .ok t) :
    t.weight ≤ elem.weight + 2 := by
  unfold Ty.listOf at h
  split at h
  · cases h
  · next cell hc =>
    have h1 := weight_product? hc
    have h2 := weight_union? h
    simp only [Operand.weights, Operand.weight, Ref.weight] at h1 h2
    omega

/-- A bound for the type that is made is one for the operand. -/
theorem weight_ofTy {t : Except Failure Ty} {o : Operand} {n : Nat} (h : Operand.ofTy t = .ok o)
    (bound : ∀ t', t = .ok t' → t'.weight ≤ n) : o.weight ≤ n := by
  unfold Operand.ofTy at h
  split at h
  · cases h
  · next t' => cases h; exact bound t' rfl

/-- Expressions are read one after the other: the first, and then the rest. -/
theorem Expr.evalAll_cons_cases {scope : List String} {e : Expr} {rest : List Expr}
    {os : List Operand} (h : Expr.evalAll scope (e :: rest) = .ok os) :
    ∃ o os', e.eval scope = .ok o ∧ Expr.evalAll scope rest = .ok os' ∧ os = o :: os' := by
  rw [Expr.evalAll] at h
  split at h
  · cases h
  · next o first =>
    split at h
    · cases h
    · next os' others =>
      cases h
      exact ⟨o, os', first, others, rfl⟩

mutual

/-- Reading brings no more types than are written. The cases are those of the expression. -/
theorem Expr.weight_eval {scope : List String} : (e : Expr) → {o : Operand} →
    e.eval scope = .ok o → o.weight ≤ e.weight
  | .name s, o, h => by rw [Expr.eval] at h; cases h; simp [Operand.weight, Ref.weight]
  | .raw d, o, h => by
    rw [Expr.eval] at h
    cases h
    cases d <;> simp [Operand.ofDatum, Operand.weight, Ref.weight]
  | .value tag, o, h => by
    rw [Expr.eval] at h
    exact weight_ofTy h fun t ht => weight_value? ht
  | .product items, o, h => by
    rw [Expr.eval] at h
    split at h
    · cases h
    · next operands hi =>
      have := Expr.weights_evalAll items hi
      refine weight_ofTy h fun t ht => ?_
      have := weight_product? ht
      simp only [Expr.weight]
      omega
  | .union items, o, h => by
    rw [Expr.eval] at h
    split at h
    · cases h
    · next operands hi =>
      have := Expr.weights_evalAll items hi
      refine weight_ofTy h fun t ht => ?_
      have := weight_union? ht
      simp only [Expr.weight]
      omega
  | .list label elem, o, h => by
    rw [Expr.eval] at h
    split at h
    · cases h
    · next o' ho =>
      split at h
      · cases h
      · next r hr =>
        cases h
        have h1 := Expr.weight_eval elem ho
        have h2 := weight_store hr
        simp only [Operand.weight, Ref.weight, Builder.weight, Expr.weight]
        omega
  | .mu label body, o, h => by
    rw [Expr.eval] at h
    cases h
    simp [Operand.weight, Ref.weight, Builder.weight, Expr.weight]
  | .var index, o, h => by
    rw [Expr.eval] at h
    split at h <;> cases h <;> simp [Operand.weight, Ref.weight]
  | .closed e, o, h => by
    rw [Expr.eval] at h
    have := Expr.weight_eval e h
    simpa only [Expr.weight] using this

/-- Reading several expressions brings no more types than are written in them. -/
theorem Expr.weights_evalAll {scope : List String} : (es : List Expr) → {os : List Operand} →
    Expr.evalAll scope es = .ok os → Operand.weights os ≤ Expr.weights es
  | [], os, h => by rw [Expr.evalAll] at h; cases h; simp [Operand.weights]
  | e :: rest, os, h => by
    obtain ⟨o, os', first, others, rfl⟩ := Expr.evalAll_cons_cases h
    have h1 := Expr.weight_eval e first
    have h2 := Expr.weights_evalAll rest others
    simp only [Operand.weights, Expr.weights]
    omega

end

/-- An expression that is given a name brings no more types than are written in it. -/
theorem Expr.weight_bindTo {name : String} : (e : Expr) → {scope : List String} → {o : Operand} →
    e.bindTo name scope = .ok o → o.weight ≤ e.weight
  | .mu _ body, scope, o, h => by
    rw [Expr.bindTo] at h
    simpa only [Expr.weight] using Expr.weight_bindTo body h
  | .closed e, scope, o, h => by
    rw [Expr.bindTo] at h
    simpa only [Expr.weight] using Expr.weight_bindTo e h
  | .list label elem, scope, o, h => by
    rw [Expr.bindTo] at h
    split at h
    · cases h
    · next o' ho =>
      split at h
      · cases h
      · next r hr =>
        refine weight_ofTy h fun t ht => ?_
        have h1 := Expr.weight_eval elem ho
        have h2 := weight_store hr
        have h3 := weight_listOf ht
        simp only [Expr.weight]
        omega
  | .name s, scope, o, h => Expr.weight_eval (.name s) h
  | .raw d, scope, o, h => Expr.weight_eval (.raw d) h
  | .value tag, scope, o, h => Expr.weight_eval (.value tag) h
  | .product items, scope, o, h => Expr.weight_eval (.product items) h
  | .union items, scope, o, h => Expr.weight_eval (.union items) h
  | .var index, scope, o, h => Expr.weight_eval (.var index) h

/-- What a builder stands for under a name brings no more types than the builder. -/
theorem Builder.weight_bindTo {b : Builder} {name : String} {o : Operand}
    (h : b.bindTo name = .ok o) : o.weight ≤ b.weight := by
  cases b with
  | written label scope body => exact Expr.weight_bindTo body h
  | list label scope elem => exact weight_ofTy h fun t ht => weight_listOf ht

end TreeGrammar
