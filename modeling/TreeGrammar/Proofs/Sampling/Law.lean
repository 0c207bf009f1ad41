import TreeGrammar.Proofs.Counting.Memory
import TreeGrammar.Proofs.Sampling.Tracing

/-!
# The law of a computation that draws

Over a sound table a computation that grows has results in a set, each with its probability, and
leaves a sound table. Such laws compose: counts that are found on the way draw nothing, and where
one computation goes on after another the probabilities multiply, so long as the result tells which
way led to it.

* `Law`: the results of a computation over a sound table, and their probabilities.
* `Law.bind`, `Law.map`, `Law.both`, `Law.count`, `Law.draw`: how laws compose.
* `Law.choose`: after a weighted choice the weights cancel.
-/

namespace TreeGrammar

variable {g : Grammar} {mode : Accounting} {α β : Type}

/-- Over every sound table a computation draws from no empty range, has its results in `S` whatever
is drawn, and leaves a sound table; and each `a` in `S` is its result with probability `p a`. -/
structure Law (g : Grammar) (mode : Accounting) (x : Grow α) (S : Set α) (p : α → ℚ) : Prop where
  always : ∀ table, table.Sound g mode →
    (x.on table).Always fun out => ∃ a ∈ S, out.1 = .ok a ∧ out.2.Sound g mode
  often : ∀ table, table.Sound g mode → ∀ a ∈ S,
    (x.on table).probability (fun out => out.1 = .ok a) = p a

/-! ### Names without trees -/

section without

variable {absent : α} {leaf : String → α} {node : List α → α}
  {sequence : Trail → List Ref → Nat → Grow (List α)} {member : Trail → List Ref → Grow α}
  {trail : Trail} {rule : Rule} {n : Nat} {table : Table}

/-- A count that fails is the end, and nothing is drawn. -/
theorem on_growBound_of_error {e : Failure}
    (counted : Answers g mode ((g.tabled mode).countRule rule n) (.error e))
    (sound : table.Sound g mode) :
    ∃ table', table'.Sound g mode ∧
      ((g.tabled mode).growBound absent leaf node sequence member trail rule n).on table =
        .done (.error e, table') := by
  obtain ⟨table', hon, sound'⟩ := counted table sound
  refine ⟨table', sound', ?_⟩
  rw [Recurrence.growBound, Grow.on_ofCount_bind,
    show ((g.tabled mode).countRule rule n).run.run table = (.error e, table') from hon]

/-- A count of zero is the end as well. -/
theorem on_growBound_of_zero (counted : Answers g mode ((g.tabled mode).countRule rule n) (.ok 0))
    (sound : table.Sound g mode) :
    ∃ table', table'.Sound g mode ∧
      ((g.tabled mode).growBound absent leaf node sequence member trail rule n).on table =
        .done (.ok absent, table') := by
  obtain ⟨table', hon, sound'⟩ := counted table sound
  refine ⟨table', sound', ?_⟩
  rw [Recurrence.growBound, Grow.on_ofCount_bind,
    show ((g.tabled mode).countRule rule n).run.run table = (.ok 0, table') from hon]
  dsimp only
  rw [if_pos rfl, Grow.on_pure]

end without

/-! ### How laws compose -/

namespace Law

/-- A result alone is certain. -/
theorem pure (a : α) : Law g mode (pure a) {a} fun _ => 1 := by
  refine ⟨fun table sound => ?_, fun table sound b hb => ?_⟩
  · exact ⟨a, rfl, rfl, sound⟩
  · obtain rfl : b = a := hb
    exact Draw.probability_done_of rfl

/-- Where a computation goes on after another the probabilities multiply. Every result is to have
come in a single way. -/
theorem bind {x : Grow α} {S : Set α} {p : α → ℚ} {f : α → Grow β} {T : α → Set β} {q : α → β → ℚ}
    {U : Set β} {r : β → ℚ} (hx : Law g mode x S p) (hf : ∀ a ∈ S, Law g mode (f a) (T a) (q a))
    (within : ∀ a ∈ S, T a ⊆ U)
    (cover : ∀ b ∈ U, ∃ a ∈ S, b ∈ T a ∧ (∀ a' ∈ S, b ∈ T a' → a' = a) ∧ r b = p a * q a b) :
    Law g mode (x >>= f) U r := by
  refine ⟨fun table sound => ?_, fun table sound b hb => ?_⟩
  · rw [Grow.on_bind]
    refine (hx.always table sound).bind ?_
    rintro ⟨result, table'⟩ ⟨a, ha, rfl, sound'⟩
    refine ((hf a ha).always table' sound').mono ?_
    rintro out ⟨b, hb, e, sound''⟩
    exact ⟨b, within a ha hb, e, sound''⟩
  · obtain ⟨a, ha, hb, single, e⟩ := cover b hb
    rw [Grow.on_bind, e, ← hx.often table sound a ha, mul_comm]
    refine Draw.probability_bind_of (hx.always table sound) ?_ ?_
    · rintro ⟨_, table'⟩ ⟨a', _, rfl, sound'⟩ same
      obtain rfl := Except.ok.inj same
      exact (hf a' ha).often table' sound' b hb
    · rintro ⟨_, table'⟩ ⟨a', ha', rfl, sound'⟩ other
      refine Draw.probability_eq_zero ((hf a' ha').always table' sound') ?_
      rintro out ⟨b', hb', e', -⟩ e''
      rw [e'] at e''
      obtain rfl := Except.ok.inj e''
      exact other (congrArg Except.ok (single a' ha' hb'))

/-- What is made of a result has its probability. -/
theorem map {x : Grow α} {S : Set α} {p : ℚ} {f : α → β} (hx : Law g mode x S fun _ => p)
    (injective : Function.Injective f) :
    Law g mode (x >>= fun a => Pure.pure (f a)) (f '' S) fun _ => p := by
  refine hx.bind (fun a _ => Law.pure (f a)) ?_ ?_
  · rintro a ha _ rfl
    exact ⟨a, ha, rfl⟩
  · rintro _ ⟨a, ha, rfl⟩
    refine ⟨a, ha, rfl, fun a' _ e => injective e.symm, ?_⟩
    rw [mul_one]

/-- Of two computations, neither of which depends on the other, both results are recorded. -/
theorem both {γ : Type} {x : Grow α} {y : Grow β} {S : Set α} {T : Set β} {p q : ℚ} {h : α → β → γ}
    (hx : Law g mode x S fun _ => p) (hy : Law g mode y T fun _ => q)
    (injective : Function.Injective2 h) :
    Law g mode (x >>= fun a => y >>= fun b => Pure.pure (h a b)) (Set.image2 h S T)
      fun _ => p * q := by
  refine hx.bind (T := fun a => h a '' T) (q := fun _ _ => q)
    (fun a _ => hy.map (injective.right a)) ?_ ?_
  · rintro a ha _ ⟨b, hb, rfl⟩
    exact ⟨a, ha, b, hb, rfl⟩
  · rintro _ ⟨a, ha, b, hb, rfl⟩
    refine ⟨a, ha, ⟨b, hb, rfl⟩, ?_, rfl⟩
    rintro a' _ ⟨b', _, e⟩
    exact (injective e).1

/-- Counting on the way draws nothing. -/
theorem count {x : CountM α} {a : α} {f : α → Grow β} {S : Set β} {p : β → ℚ}
    (hx : Answers g mode x (.ok a)) (hf : Law g mode (f a) S p) :
    Law g mode (Grow.ofCount x >>= f) S p := by
  have run : ∀ table, table.Sound g mode → ∃ table', table'.Sound g mode ∧
      (Grow.ofCount x >>= f).on table = (f a).on table' := by
    intro table sound
    obtain ⟨table', hon, sound'⟩ := hx table sound
    refine ⟨table', sound', ?_⟩
    rw [Grow.on_ofCount_bind, show x.run.run table = (.ok a, table') from hon]
  refine ⟨fun table sound => ?_, fun table sound => ?_⟩
  · obtain ⟨table', sound', e⟩ := run table sound
    rw [e]
    exact hf.always table' sound'
  · obtain ⟨table', sound', e⟩ := run table sound
    rw [e]
    exact hf.often table' sound'

/-- Each value with a positive weight is drawn in proportion to it. -/
theorem draw {choices : List (α × Int)} (nonneg : Choice.Nonneg choices)
    (positive : Choice.total choices ≠ 0) :
    Law g mode (Grow.ofDraw (Choice.draw choices)) {o | ∃ c ∈ choices, 0 < c.2 ∧ o = some c.1}
      (Choice.share choices) := by
  refine ⟨fun table sound => ?_, fun table sound o ho => ?_⟩
  · rw [Grow.on_ofDraw, ← bind_pure_comp]
    refine (Choice.always_draw nonneg positive).bind ?_
    rintro _ ⟨c, member, weight, rfl⟩
    exact ⟨some c.1, ⟨c, member, weight, rfl⟩, rfl, sound⟩
  · obtain ⟨c, member, weight, rfl⟩ := ho
    rw [Grow.on_ofDraw, ← bind_pure_comp]
    refine (Draw.probability_bind_of (Choice.always_draw nonneg positive) ?_ ?_).trans (one_mul _)
    · rintro _ ⟨c', -, -, rfl⟩ same
      exact Draw.probability_done_of same
    · rintro _ ⟨c', -, -, rfl⟩ other
      exact Draw.probability_done_of_not other

/-- A value is drawn in proportion to its weight, and what follows is as much rarer as the weight is
larger: the weights cancel, and everything is equally likely. -/
theorem choose {choices : List (α × Int)} {f : Option α → Grow β} {T : α → Set β} {U : Set β}
    (nonneg : Choice.Nonneg choices) (distinct : (choices.map (·.1)).Nodup)
    (positive : Choice.total choices ≠ 0)
    (follow : ∀ c ∈ choices, 0 < c.2 →
      Law g mode (f (some c.1)) (T c.1) fun _ => 1 / (c.2 : ℚ))
    (within : ∀ c ∈ choices, 0 < c.2 → T c.1 ⊆ U)
    (cover : ∀ b ∈ U, ∃ c ∈ choices, 0 < c.2 ∧ b ∈ T c.1 ∧
      ∀ c' ∈ choices, b ∈ T c'.1 → c'.1 = c.1) :
    Law g mode (Grow.ofDraw (Choice.draw choices) >>= f) U
      fun _ => 1 / (Choice.total choices : ℚ) := by
  have total : (Choice.total choices : ℚ) ≠ 0 := by exact_mod_cast positive
  have cancel : ∀ c ∈ choices, Choice.total choices * Choice.share choices (some c.1) = c.2 := by
    intro c member
    rw [Choice.share_of_mem nonneg distinct positive member, mul_div_cancel₀ _ total]
  refine (Law.draw nonneg positive).bind (T := fun o => o.elim ∅ T)
    (q := fun o _ => 1 / (Choice.total choices * Choice.share choices o)) ?_ ?_ ?_
  · rintro _ ⟨c, member, weight, rfl⟩
    rw [cancel c member]
    exact follow c member weight
  · rintro _ ⟨c, member, weight, rfl⟩
    exact within c member weight
  · intro b hb
    obtain ⟨c, member, weight, hb', single⟩ := cover b hb
    refine ⟨some c.1, ⟨c, member, weight, rfl⟩, hb', ?_, ?_⟩
    · rintro _ ⟨c', member', -, rfl⟩ hc'
      rw [single c' member' hc']
    · have weight' : (c.2 : ℚ) ≠ 0 := by exact_mod_cast weight.ne'
      rw [cancel c member, Choice.share_of_mem nonneg distinct positive member]
      field_simp

end Law

end TreeGrammar
