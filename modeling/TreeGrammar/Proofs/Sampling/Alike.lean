import TreeGrammar.Proofs.Counting.Memory
import TreeGrammar.Proofs.Sampling.Draws
import TreeGrammar.Proofs.Sampling.Tracing

/-!
# Computations that run alike

Two computations are run side by side, each on a table of its own. They run alike if they draw the
same, have the same result, and keep a relation between the two tables. Growing takes nothing from a
table but counts, so where two recurrences count alike they grow alike.

* `Draw.Rel`: the same is asked for, and whatever is answered, the results are related.
* `CountM.Alike`, `Grow.Alike`: computations that run alike on related tables.
* `Recurrence.CountsAlike`: recurrences that count alike.
* `Recurrence.CountsAlike.grow`: they grow alike.
-/

namespace TreeGrammar

/-! ### Drawing side by side -/

namespace Draw

variable {α β γ δ : Type}

/-- Two computations ask for the same, and whatever is answered, their results are related. -/
inductive Rel (R : α → β → Prop) : Draw α → Draw β → Prop
  | done {a : α} {b : β} (related : R a b) : Rel R (.done a) (.done b)
  | ask {r : Request} {next : Except Failure Int → Draw α} {next' : Except Failure Int → Draw β}
      (rest : ∀ answer, Rel R (next answer) (next' answer)) : Rel R (.ask r next) (.ask r next')

namespace Rel

variable {R : α → β → Prop} {x : Draw α} {y : Draw β}

/-- A computation asks for what it asks for. -/
theorem refl {R : α → α → Prop} (related : ∀ a, R a a) (x : Draw α) : Rel R x x := by
  induction x with
  | done a => exact .done (related a)
  | ask r next ih => exact .ask ih

/-- Results that are related are so in any wider sense. -/
theorem mono {S : α → β → Prop} (h : Rel R x y) (le : ∀ a b, R a b → S a b) : Rel S x y := by
  induction h with
  | done related => exact .done (le _ _ related)
  | ask _ ih => exact .ask ih

/-- Where computations ask for the same and so do those that go on with related results, both
together do. -/
theorem bind {S : γ → δ → Prop} {f : α → Draw γ} {f' : β → Draw δ} (h : Rel R x y)
    (hf : ∀ a b, R a b → Rel S (f a) (f' b)) : Rel S (x >>= f) (y >>= f') := by
  induction h with
  | done related => exact hf _ _ related
  | ask _ ih => exact .ask ih

/-- Where the same is made of related results, the computations are the same. -/
theorem map_eq {f : α → γ} {f' : β → γ} (h : Rel (fun a b => f a = f' b) x y) :
    f <$> x = f' <$> y := by
  induction h with
  | done related => exact congrArg Draw.done related
  | ask _ ih => exact congrArg (Draw.ask _) (funext ih)

end Rel

end Draw

/-! ### Counting side by side -/

section

variable {I : Table → Table → Prop} {α β : Type}

/-- Two computations over related tables have the same outcome, leave related tables, and succeed
only with results as said. -/
def CountM.Alike (I : Table → Table → Prop) (Q : α → Prop) (x y : CountM α) : Prop :=
  ∀ t t', I t t' → (x.on t).1 = (y.on t').1 ∧ I (x.on t).2 (y.on t').2 ∧
    ∀ a, (x.on t).1 = .ok a → Q a

namespace CountM.Alike

variable {P Q : α → Prop}

/-- A result alone has the same outcome over any tables. -/
theorem pure {a : α} (h : Q a) : Alike I Q (pure a) (pure a) := by
  refine fun t t' related => ⟨rfl, related, fun b hb => ?_⟩
  cases hb
  exact h

/-- A failure has the same outcome over any tables. -/
theorem throw (e : Failure) : Alike I Q (throw e) (throw e) :=
  fun _ _ related => ⟨rfl, related, nofun⟩

/-- What is said of the results may be said less exactly. -/
theorem mono {x y : CountM α} (h : Alike I P x y) (le : ∀ a, P a → Q a) : Alike I Q x y :=
  fun t t' related => ⟨(h t t' related).1, (h t t' related).2.1,
    fun a ha => le a ((h t t' related).2.2 a ha)⟩

/-- Where computations are alike and so is what follows any of their results, both together are
alike. -/
theorem bind {S : β → Prop} {x y : CountM α} {f f' : α → CountM β} (h : Alike I P x y)
    (hf : ∀ a, P a → Alike I S (f a) (f' a)) : Alike I S (x >>= f) (y >>= f') := by
  intro t t' related
  obtain ⟨same, related', result⟩ := h t t' related
  rcases hx : x.on t with ⟨o, u⟩
  rcases hy : y.on t' with ⟨o', u'⟩
  rw [hx, hy] at same related'
  rw [hx] at result
  obtain rfl : o = o' := same
  rcases o with e | a
  · rw [CountM.on_bind_error hx, CountM.on_bind_error hy]
    exact ⟨rfl, related', nofun⟩
  · rw [CountM.on_bind_ok hx, CountM.on_bind_ok hy]
    exact hf a (result a rfl) u u' related'

end CountM.Alike

/-! ### Growing side by side -/

/-- Two computations that draw ask for the same over related tables, and whatever is answered, they
have the same outcome and leave related tables. -/
def Grow.Alike (I : Table → Table → Prop) (x y : Grow α) : Prop :=
  ∀ t t', I t t' →
    Draw.Rel (fun out out' => out.1 = out'.1 ∧ I out.2 out'.2) (x.on t) (y.on t')

namespace Grow.Alike

/-- A result alone draws nothing over any tables. -/
theorem pure (a : α) : Alike I (pure a) (pure a) :=
  fun _ _ related => .done ⟨rfl, related⟩

/-- A failure draws nothing over any tables. -/
theorem throw (e : Failure) : Alike I (throw e : Grow α) (throw e) :=
  fun _ _ related => .done ⟨rfl, related⟩

/-- Counts that are alike are so on the way of growing. -/
theorem ofCount {Q : α → Prop} {x y : CountM α} (h : CountM.Alike I Q x y) :
    Alike I (Grow.ofCount x) (Grow.ofCount y) :=
  fun t t' related => .done ⟨(h t t' related).1, (h t t' related).2.1⟩

/-- Drawing does not look at the table. -/
theorem ofDraw (x : ExceptT Failure Draw α) : Alike I (Grow.ofDraw x) (Grow.ofDraw x) := by
  intro t t' related
  rw [Grow.on_ofDraw, Grow.on_ofDraw, ← bind_pure_comp, ← bind_pure_comp]
  refine Draw.Rel.bind (Draw.Rel.refl (R := Eq) (fun _ => rfl) _) ?_
  rintro a _ rfl
  exact .done ⟨rfl, related⟩

/-- Where computations that draw are alike and so is what follows, both together are alike. -/
theorem bind {x y : Grow α} {f f' : α → Grow β} (h : Alike I x y)
    (hf : ∀ a, Alike I (f a) (f' a)) : Alike I (x >>= f) (y >>= f') := by
  intro t t' related
  rw [Grow.on_bind, Grow.on_bind]
  refine (h t t' related).bind ?_
  rintro ⟨o, u⟩ ⟨o', u'⟩ ⟨same, related'⟩
  obtain rfl : o = o' := same
  rcases o with e | a
  · exact .done ⟨rfl, related'⟩
  · exact hf a u u' related'

/-- What is made of the results of computations that are alike is made alike. -/
theorem map {x y : Grow α} (h : Alike I x y) (f : α → β) : Alike I (f <$> x) (f <$> y) := by
  rw [← bind_pure_comp, ← bind_pure_comp]
  exact h.bind fun a => pure (f a)

end Grow.Alike

/-- Two recurrences over the same rules count alike. -/
structure Recurrence.CountsAlike (I : Table → Table → Prop) (c c' : Recurrence CountM) : Prop where
  rules : c'.rules = c.rules
  mode : c'.mode = c.mode
  ref : ∀ r n, CountM.Alike I (fun _ => True) (c.countRef [] r n) (c'.countRef [] r n)
  sequences : ∀ items n,
    CountM.Alike I (fun _ => True) (c.countSequences [] items n) (c'.countSequences [] items n)
  rule : ∀ rule n, CountM.Alike I (fun _ => True) (c.countRule rule n) (c'.countRule rule n)

namespace Recurrence.CountsAlike

variable {c c' : Recurrence CountM} (alike : CountsAlike I c c')
include alike

/-- Recurrences that count alike find the same weights for the members of a union. -/
theorem memberWeights (n : Nat) (items : List Ref) :
    CountM.Alike I (fun _ => True) (c.memberWeights n items) (c'.memberWeights n items) := by
  induction items with
  | nil =>
    rw [Recurrence.memberWeights, Recurrence.memberWeights]
    exact .pure trivial
  | cons r rest ih =>
    rw [Recurrence.memberWeights, Recurrence.memberWeights]
    exact (alike.ref r n).bind fun w _ => ih.bind fun ws _ => .pure trivial

/-- Recurrences that count alike find the same weights for the sizes of a first item. -/
theorem splitWeights (head second : Ref) (rest : List Ref) (n i : Nat) :
    CountM.Alike I (fun _ => True) (c.splitWeights head second rest n i)
      (c'.splitWeights head second rest n i) := by
  -- the sizes that are left for the first tree become fewer
  induction left : n - i generalizing i with
  | zero =>
    have stop : ¬i + 1 + (rest.length + 1) ≤ n := by omega
    rw [Recurrence.splitWeights, dif_neg stop, Recurrence.splitWeights, dif_neg stop]
    exact .pure trivial
  | succ left ih =>
    by_cases fits : i + 1 + (rest.length + 1) ≤ n
    · rw [Recurrence.splitWeights.eq_def c, Recurrence.splitWeights.eq_def c', dif_pos fits,
        dif_pos fits]
      refine (alike.ref head (i + 1)).bind fun a _ => ?_
      refine (alike.sequences (second :: rest) (n - (i + 1))).bind fun b _ => ?_
      exact (ih (i + 1) (by omega)).bind fun ws _ => .pure trivial
    · rw [Recurrence.splitWeights, dif_neg fits, Recurrence.splitWeights, dif_neg fits]
      exact .pure trivial

/-- A tree for a name that is bound is grown alike, if the trees of its items are. -/
theorem growBound {absent : α} {leaf : String → α} {node : List α → α}
    {sequence sequence' : Trail → List Ref → Nat → Grow (List α)}
    {member member' : Trail → List Ref → Grow α} {trail : Trail} {rule : Rule} {n : Nat}
    (smaller : ∀ items, n ≠ 0 →
      Grow.Alike I (sequence trail.afresh items (n - 1)) (sequence' trail.afresh items (n - 1)))
    (same : ∀ trail' items, trail.enter rule.key = some trail' →
      Grow.Alike I (sequence trail' items n) (sequence' trail' items n))
    (members : ∀ trail' items, trail.enter rule.key = some trail' →
      Grow.Alike I (member trail' items) (member' trail' items)) :
    Grow.Alike I (c.growBound absent leaf node sequence member trail rule n)
      (c'.growBound absent leaf node sequence' member' trail rule n) := by
  rw [Recurrence.growBound, Recurrence.growBound, alike.mode]
  refine (Grow.Alike.ofCount (alike.rule rule n)).bind fun count => ?_
  by_cases zero : count = 0
  · rw [if_pos zero, if_pos zero]
    exact .pure absent
  · rw [if_neg zero, if_neg zero]
    rcases rule.type with t | items | items
    · exact .pure _
    · rcases items with _ | ⟨first, rest⟩
      · exact .pure _
      · rcases c.mode with _ | _
        · dsimp only
          by_cases hn : n = 0
          · rw [if_pos hn, if_pos hn]
            exact .pure absent
          · rw [if_neg hn, if_neg hn]
            exact (smaller _ hn).bind fun children => .pure (node children)
        · dsimp only
          rcases entered : trail.enter rule.key with _ | trail'
          · exact .throw _
          · exact (same trail' _ entered).bind fun children => .pure (node children)
    · dsimp only
      rcases entered : trail.enter rule.key with _ | trail'
      · exact .throw _
      · exact members trail' items entered

/-- Recurrences that count alike grow alike. The induction is over the growing. -/
theorem grow :
    (∀ trail r n, Grow.Alike I (c.growRef trail r n) (c'.growRef trail r n)) ∧
    (∀ trail items n,
      Grow.Alike I (c.growSequence trail items n) (c'.growSequence trail items n)) := by
  apply growing_induction c
  case nameless =>
    intro trail r n nameless
    rw [growRef_nameless c nameless, growRef_nameless c' nameless]
    exact .throw _
  case tag =>
    intro trail s n tag
    rw [growRef_tag c tag, growRef_tag c' tag]
    exact .pure _
  case unbound =>
    intro trail s n tag found
    rw [growRef_unbound c tag found, growRef_unbound c' tag (alike.rules ▸ found)]
    exact .throw _
  case bound =>
    intro trail s n rule tag found smaller same members
    rw [growRef_bound c tag found, growRef_bound c' tag (alike.rules ▸ found)]
    refine alike.growBound smaller same fun trail' items entered => ?_
    refine (Grow.Alike.ofCount (alike.memberWeights n items)).bind fun weights => ?_
    refine (Grow.Alike.ofDraw _).bind fun drawn => ?_
    rcases drawn with _ | item
    · exact .throw _
    · exact members trail' item entered
  case empty =>
    intro trail n
    rw [growSequence, growSequence]
    exact .pure _
  case single =>
    intro trail r n ih
    rw [growSequence, growSequence]
    exact ih.bind fun t => .pure _
  case several =>
    intro trail head second rest n ih₁ ih₂
    rw [growSequence, growSequence]
    refine (Grow.Alike.ofCount (alike.splitWeights head second rest n 0)).bind fun weights => ?_
    refine (Grow.Alike.ofDraw _).bind fun drawn => ?_
    rcases drawn with _ | split
    · exact .throw _
    · exact (ih₁ _ split.2).bind fun first => (ih₂ _ split.2).bind fun others => .pure _

end Recurrence.CountsAlike

end

end TreeGrammar
