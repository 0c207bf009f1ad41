import TreeGrammar.Proofs.Sampling.Draws
import TreeGrammar.Random.Source

/-!
# Sources that keep to the limits

What holds whatever is drawn holds of a run on a source whose answers lie below the limits asked
for. All sources do that but a script whose answers are taken as they stand.

* `Source.Fair`: the sources that keep to the limits.
* `Draw.Always.run`: a run on such a source has what holds whatever is drawn.
* `Draw.exists_plays_run`: a run on such a source follows a sequence of draws.
-/

namespace TreeGrammar

/-- A source whose answers lie below the limits asked for. -/
def Source.Fair : Source → Prop
  | congruential _ => True
  | script _ _ asTheyStand => asTheyStand = false
  | twister _ => True

namespace Source

variable {s : Source}

/-- What is left of a division by a positive number is less than that number and not negative. -/
theorem fmod_below (x : Int) {total : Int} (positive : 0 < total) :
    0 ≤ Int.fmod x total ∧ Int.fmod x total < total :=
  ⟨Int.fmod_nonneg_of_pos x positive, Int.fmod_lt_of_pos x positive⟩

/-- A number below a positive total is answered, and the source stays fair. -/
theorem Fair.below (fair : s.Fair) {total : Int} (positive : 0 < total) :
    ∃ i, (s.below total).1 = .ok i ∧ 0 ≤ i ∧ i < total ∧ (s.below total).2.Fair := by
  rcases s with state | ⟨answers, position, asTheyStand⟩ | t
  · rcases words : congruentialWords (Twister.bitLength total.natAbs / 32 + 2) state 0
      with ⟨x, state'⟩
    obtain ⟨nonneg, lt⟩ := fmod_below x positive
    simp only [Source.below, words]
    exact ⟨_, rfl, nonneg, lt, trivial⟩
  · obtain rfl : asTheyStand = false := fair
    obtain ⟨nonneg, lt⟩ := fmod_below (answers.getD (position % answers.length) 0) positive
    exact ⟨_, rfl, nonneg, lt, rfl⟩
  · rcases drawn : t.below total.toNat with ⟨i, t'⟩
    have lt : (t.below total.toNat).1 < total.toNat := Twister.below_lt t (by omega)
    rw [drawn] at lt
    simp only [Source.below, if_neg (show ¬total ≤ 0 by omega), drawn]
    exact ⟨_, rfl, Int.natCast_nonneg i, by omega, trivial⟩

/-- A request with a positive limit is answered, and the source stays fair. -/
theorem Fair.answer (fair : s.Fair) (r : Request) (positive : 0 < r.limit) :
    ∃ i, (s.answer r).1 = .ok i ∧ 0 ≤ i ∧ i < r.limit ∧ (s.answer r).2.Fair := by
  rcases r with total | _ | _
  · exact fair.below positive
  · rcases s with state | ⟨answers, position, asTheyStand⟩ | t
    · exact fair.below positive
    · exact fair.below positive
    · rcases first : t.word with ⟨w, t'⟩
      rcases second : t'.word with ⟨w', t''⟩
      simp only [Source.answer, first, second]
      refine ⟨_, rfl, ?_, ?_, trivial⟩
      · split <;> omega
      · rw [Request.limit]
        split <;> omega
  · rcases s with state | ⟨answers, position, asTheyStand⟩ | t
    · exact fair.below positive
    · exact fair.below positive
    · rcases first : t.word with ⟨w, t'⟩
      have lt := w.toNat_lt
      simp only [Source.answer, first]
      refine ⟨_, rfl, Int.natCast_nonneg _, ?_, trivial⟩
      rw [Request.limit]
      omega

end Source

/-- Equation lemma: a request is answered by the source, and what follows runs on the source after
it. -/
theorem Draw.run_ask {α : Type} (r : Request) (next : Except Failure Int → Draw α) (s : Source) :
    ((ask r next).run s).1 = ((next (s.answer r).1).run (s.answer r).2).1 ∧
      ((ask r next).run s).2.1 = ((next (s.answer r).1).run (s.answer r).2).2.1 := by
  rw [Draw.run]
  exact ⟨rfl, rfl⟩

/-- A run is a run of the same draws, whatever is made of the result. -/
theorem Draw.run_map {α β : Type} (f : α → β) (x : Draw α) (source : Source) :
    (f <$> x).run source = (f (x.run source).1, (x.run source).2) := by
  induction x generalizing source with
  | done a => rfl
  | ask r next ih =>
    change (Draw.ask r fun answer => f <$> next answer).run source = _
    rw [Draw.run, Draw.run]
    rcases source.answer r with ⟨answer, source'⟩
    dsimp only
    rw [ih]

/-- A run on a fair source has what holds whatever is drawn, and leaves the source fair. -/
theorem Draw.Always.run {α : Type} {P : α → Prop} {x : Draw α} (h : x.Always P) {s : Source}
    (fair : s.Fair) : P (x.run s).1 ∧ (x.run s).2.1.Fair := by
  induction x generalizing s with
  | done a => exact ⟨h, fair⟩
  | ask r next ih =>
    obtain ⟨i, answered, nonneg, below, fair'⟩ := fair.answer r h.1
    obtain ⟨result, source⟩ := run_ask r next s
    rw [result, source, answered]
    exact ih (.ok i) (h.2 i nonneg below) fair'

/-- A run on a fair source follows a sequence of draws below their limits. -/
theorem Draw.exists_plays_run {α : Type} {P : α → Prop} {x : Draw α} (h : x.Always P) {s : Source}
    (fair : s.Fair) : ∃ draws, x.Plays draws (x.run s).1 := by
  induction x generalizing s with
  | done a => exact ⟨[], .done a⟩
  | ask r next ih =>
    obtain ⟨i, answered, nonneg, below, fair'⟩ := fair.answer r h.1
    obtain ⟨draws, plays⟩ := ih (.ok i) (h.2 i nonneg below) fair'
    refine ⟨(r.limit, i) :: draws, .ask nonneg below ?_⟩
    rw [(run_ask r next s).1, answered]
    exact plays

end TreeGrammar
