import Mathlib
import TreeGrammar.Proofs.Sampling.Choice

/-!
# Weighted choice, whatever is answered

A weighted choice asks for nothing where the weights add up to zero, and elsewhere for one number
below their sum. What becomes of the answer depends on the stretch that it falls into. A number
below the sum falls into the stretch of one place, and as many of them fall into that of a place as
its weight says; a number that does not keep to the limit falls into none, and is a failure.

* `Choice.card_place?`: each place is selected as often as its weight says.
* `Choice.draw_inverts`: what is asked, and what becomes of each answer.
-/

namespace TreeGrammar

namespace Choice

variable {α : Type} {choices : List (α × Int)}

/-- As many draws below the total select a place as the weight of its value says. -/
theorem card_place? (h : Nonneg choices) {i : Nat} {c : α × Int} (entry : choices[i]? = some c) :
    (((Finset.Ico 0 (total choices)).filter fun r => place? choices r = some i).card : Int) =
      c.2 := by
  have stretch : ((Finset.Ico 0 (total choices)).filter fun r => place? choices r = some i) =
      Finset.Ico (before choices i) (before choices (i + 1)) := by
    ext r
    rw [Finset.mem_filter, Finset.mem_Ico, Finset.mem_Ico]
    constructor
    · rintro ⟨⟨nonneg, -⟩, placed⟩
      exact (place?_eq_some_iff h nonneg).1 placed
    · intro covers
      have nonneg : 0 ≤ r := (before_nonneg h i).trans covers.1
      exact ⟨⟨nonneg, covers.2.trans_le (before_le_total h (i + 1))⟩,
        (place?_eq_some_iff h nonneg).2 covers⟩
  have weight : 0 ≤ c.2 := h c (List.mem_of_getElem? entry)
  rw [stretch, Int.card_Ico, before_succ entry, add_sub_cancel_left, Int.toNat_of_nonneg weight]

/-- Where no place is picked the result is a failure. -/
theorem result_of_place?_eq_none {r : Int} (past : place? choices r = none) :
    result choices r = .error (.inconsistent .pastTotal) := by
  rw [result, pick_eq_bind_place?, past, Option.bind_none]

/-- Weights, none negative, are inverted by the choice. Where they add up to zero there is no value,
and nothing is drawn. Otherwise one number below their sum is asked for. A number that keeps to the
limit picks the value of the one place whose stretch it falls into, from the sum of the weights
before that place up to that sum with its own, and this weight is positive; so as many numbers
select a place as its weight says, and none selects a place without weight. Any number beyond the
limit runs past all of them. -/
theorem draw_inverts (h : Nonneg choices) :
    (total choices = 0 → (draw choices).run = .done (.ok none)) ∧
    (total choices ≠ 0 → ∃ outcome : Int → Except Failure (Option α),
      (draw choices).run =
        .ask (.below (total choices)) (fun answer => .done (answer.bind outcome)) ∧
      (∀ r, 0 ≤ r → r < total choices → ∃ i c, choices[i]? = some c ∧ 0 < c.2 ∧
        (∀ j, Covers choices j r ↔ j = i) ∧ place? choices r = some i ∧
        outcome r = .ok (some c.1)) ∧
      (∀ i c, choices[i]? = some c →
        (((Finset.Ico 0 (total choices)).filter fun r => place? choices r = some i).card : Int) =
          c.2) ∧
      (∀ r, total choices ≤ r → outcome r = .error (.inconsistent .pastTotal))) := by
  refine ⟨draw_of_total_eq_zero, fun drawn => ?_⟩
  refine ⟨result choices, draw_of_total_ne_zero drawn, ?_, ?_, ?_⟩
  · intro r nonneg below
    obtain ⟨i, c, entry, positive, placed, picked⟩ := exists_place h nonneg below
    refine ⟨i, c, entry, positive, fun j => ?_, placed, result_of_pick picked⟩
    rw [← place?_eq_some_iff h nonneg, placed, Option.some_inj, eq_comm]
  · exact fun i c entry => card_place? h entry
  · intro r beyond
    have nonneg : 0 ≤ r := (total_nonneg h).trans beyond
    exact result_of_place?_eq_none ((place?_eq_none_iff h nonneg).2 beyond)

/-- Three values, of which the second has no weight and no stretch between the others. -/
def gapped : List (String × Int) :=
  [("a", 1), ("b", 0), ("c", 3)]

/-- Of the four numbers below the total one falls to the first value and three to the third, the
number one being the first of these. None falls to the second, and four is past the end. -/
theorem draw_inverts_gapped :
    Nonneg gapped ∧ ∃ outcome : Int → Except Failure (Option String),
      (draw gapped).run = .ask (.below 4) (fun answer => .done (answer.bind outcome)) ∧
      outcome 1 = .ok (some "c") ∧
      (((Finset.Ico 0 4).filter fun r => place? gapped r = some 1).card : Int) = 0 ∧
      (((Finset.Ico 0 4).filter fun r => place? gapped r = some 2).card : Int) = 3 ∧
      outcome 4 = .error (.inconsistent .pastTotal) := by
  have nonneg : Nonneg gapped := by unfold Nonneg; decide
  obtain ⟨outcome, asked, inside, shares, beyond⟩ := (draw_inverts nonneg).2 (by decide)
  obtain ⟨i, c, entry, -, stretch, -, answered⟩ := inside 1 (by decide) (by decide)
  obtain rfl : 2 = i := (stretch 2).1 (by decide)
  cases entry
  exact ⟨nonneg, outcome, asked, answered, shares 1 ("b", 0) rfl, shares 2 ("c", 3) rfl,
    beyond 4 (by decide)⟩

end Choice

end TreeGrammar
