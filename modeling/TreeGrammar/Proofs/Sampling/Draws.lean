import Mathlib.Algebra.BigOperators.Finprod
import Mathlib.Algebra.BigOperators.Field
import Mathlib.Algebra.BigOperators.Intervals
import Mathlib.Data.Rat.Defs
import Mathlib.Tactic.FieldSimp
import Mathlib.Tactic.Ring
import TreeGrammar.Random.Choice

/-!
# What draws may lead to, and how often

A source of randomness is ideal when it answers a request for a number below a limit with each such
number equally often, whatever it has answered before. What a computation that draws comes to is
then a matter of counting: a sequence of draws has the product of the reciprocals of its limits as
weight.

* `Draw.Plays`: a sequence of draws, each below its limit, leads to a result.
* `Draw.Always`: every limit asked for is positive, and whatever is drawn, the result is as said.
* `Draw.mean`, `Draw.probability`: the average over all draws, and how often a result has a property.
* `Draw.probability_eq_sum`: ways that exclude each other add up.
* `Draw.probability_eq_finsum`: the probability as the sum of the weights of the draws.
-/

namespace TreeGrammar

/-- The numbers that may be drawn lie below the limit. -/
def Request.limit : Request → Int
  | below total => total
  | coin => 2
  | word => 0x100000000

namespace Draw

variable {α β : Type}

/-- A sequence of draws leads to a result. Each draw comes with the limit that was asked for. -/
inductive Plays : Draw α → List (Int × Int) → α → Prop where
  | done (a : α) : Plays (.done a) [] a
  | ask {r : Request} {next : Except Failure Int → Draw α} {i : Int} {draws : List (Int × Int)}
      {a : α} (nonneg : 0 ≤ i) (below : i < r.limit) (rest : (next (.ok i)).Plays draws a) :
      Plays (.ask r next) ((r.limit, i) :: draws) a

/-- No request leaves nothing to draw, and whatever is drawn, the result has a property. -/
def Always (P : α → Prop) : Draw α → Prop
  | .done a => P a
  | .ask r next => 0 < r.limit ∧ ∀ i, 0 ≤ i → i < r.limit → (next (.ok i)).Always P

/-- The average over all draws. -/
def mean (f : α → ℚ) : Draw α → ℚ
  | .done a => f a
  | .ask r next => (∑ i ∈ Finset.range r.limit.toNat, (next (.ok (i : Int))).mean f) / r.limit

/-- The probability of a sequence of draws. -/
def weight (draws : List (Int × Int)) : ℚ :=
  (draws.map fun draw => 1 / (draw.1 : ℚ)).prod

/-! ### Whatever is drawn -/

/-- What always holds does so after any sequence of draws. -/
theorem Always.of_plays {P : α → Prop} {x : Draw α} {draws : List (Int × Int)} {a : α}
    (h : x.Always P) (plays : x.Plays draws a) : P a := by
  induction plays with
  | done a => exact h
  | ask nonneg below rest ih => exact ih (h.2 _ nonneg below)

/-- What follows from a property that always holds always holds. -/
theorem Always.mono {P Q : α → Prop} {x : Draw α} (h : x.Always P) (le : ∀ a, P a → Q a) :
    x.Always Q := by
  induction x with
  | done a => exact le a h
  | ask r next ih => exact ⟨h.1, fun i nonneg below => ih _ (h.2 i nonneg below)⟩

/-- Where a property always holds and from it another does of what follows, the other one always
holds of both together. -/
theorem Always.bind {P : α → Prop} {Q : β → Prop} {x : Draw α} {f : α → Draw β} (h : x.Always P)
    (hf : ∀ a, P a → (f a).Always Q) : (x >>= f).Always Q := by
  induction x with
  | done a => exact hf a h
  | ask r next ih => exact ⟨h.1, fun i nonneg below => ih _ (h.2 i nonneg below)⟩

/-- Something is drawn. -/
theorem Always.exists_plays {P : α → Prop} {x : Draw α} (h : x.Always P) :
    ∃ draws a, x.Plays draws a ∧ P a := by
  induction x with
  | done a => exact ⟨[], a, .done a, h⟩
  | ask r next ih =>
    obtain ⟨draws, a, plays, ha⟩ := ih _ (h.2 0 le_rfl h.1)
    exact ⟨_, a, .ask le_rfl h.1 plays, ha⟩

/-- A sequence of draws that leads to a result leads to what is made of it. -/
theorem Plays.map {x : Draw α} {draws : List (Int × Int)} {a : α} (h : x.Plays draws a)
    (f : α → β) :
    (f <$> x).Plays draws (f a) := by
  induction h with
  | done a => exact .done (f a)
  | ask nonneg below _ ih => exact .ask nonneg below ih

/-! ### Averages -/

/-- The average over both is the average over the first of the averages over what follows. -/
theorem mean_bind (x : Draw α) (g : α → Draw β) (f : β → ℚ) :
    (x >>= g).mean f = x.mean fun a => (g a).mean f := by
  induction x with
  | done a => rfl
  | ask r next ih =>
    rw [ask_bind, mean, mean]
    simp only [ih]

/-- The average of what is made of the results is that of the values it has. -/
theorem mean_map (x : Draw α) (g : α → β) (f : β → ℚ) :
    (g <$> x).mean f = x.mean fun a => f (g a) := by
  rw [← bind_pure_comp, mean_bind]
  rfl

/-- A factor may be taken out of an average. -/
theorem mean_mul (x : Draw α) (c : ℚ) (f : α → ℚ) : (x.mean fun a => c * f a) = c * x.mean f := by
  induction x with
  | done a => rfl
  | ask r next ih =>
    rw [mean, mean]
    simp only [ih]
    rw [← Finset.mul_sum, mul_div_assoc]

/-- The average of nothing is nothing. -/
theorem mean_zero (x : Draw α) : (x.mean fun _ => 0) = 0 := by
  have none := mean_mul x 0 fun _ => 0
  simpa using none

/-- An average is taken over what may come out. -/
theorem mean_congr {P : α → Prop} {x : Draw α} (h : x.Always P) {f f' : α → ℚ}
    (agree : ∀ a, P a → f a = f' a) : x.mean f = x.mean f' := by
  induction x with
  | done a => exact agree a h
  | ask r next ih =>
    rw [mean, mean]
    congr 1
    refine Finset.sum_congr rfl fun i hi => ih _ (h.2 i (Int.natCast_nonneg i) ?_)
    have := Finset.mem_range.1 hi
    omega

open Classical in
/-- How often a result has a property. -/
noncomputable def probability (x : Draw α) (P : α → Prop) : ℚ :=
  x.mean fun a => if P a then 1 else 0

/-- A result alone has its properties with certainty. -/
theorem probability_done_of {P : α → Prop} {a : α} (h : P a) : (done a).probability P = 1 :=
  if_pos h

/-- What a result alone has not is impossible. -/
theorem probability_done_of_not {P : α → Prop} {a : α} (h : ¬P a) : (done a).probability P = 0 :=
  if_neg h

/-- The probability over both is the average over the first of the probabilities over what
follows. -/
theorem probability_bind (x : Draw α) (f : α → Draw β) (P : β → Prop) :
    (x >>= f).probability P = x.mean fun a => (f a).probability P :=
  mean_bind x f _

/-- What never happens has probability zero. -/
theorem probability_eq_zero {P Q : α → Prop} {x : Draw α} (h : x.Always P)
    (never : ∀ a, P a → ¬Q a) : x.probability Q = 0 := by
  have none : x.probability Q = x.mean fun _ => 0 := mean_congr h fun a ha => if_neg (never a ha)
  rw [none, mean_zero]

/-- Where only some results of a first computation can lead on to what is asked for, and those all
equally often, the probabilities multiply. -/
theorem probability_bind_of {P A : α → Prop} {Q : β → Prop} {x : Draw α} {f : α → Draw β} {q : ℚ}
    (h : x.Always P) (hit : ∀ a, P a → A a → (f a).probability Q = q)
    (miss : ∀ a, P a → ¬A a → (f a).probability Q = 0) :
    (x >>= f).probability Q = q * x.probability A := by
  rw [probability_bind, probability, ← mean_mul]
  refine mean_congr h fun a ha => ?_
  by_cases hA : A a
  · rw [if_pos hA, mul_one, hit a ha hA]
  · rw [if_neg hA, mul_zero, miss a ha hA]

/-- The average of a sum is the sum of the averages. -/
theorem mean_add (x : Draw α) (f f' : α → ℚ) :
    (x.mean fun a => f a + f' a) = x.mean f + x.mean f' := by
  induction x with
  | done a => rfl
  | ask r next ih =>
    rw [mean, mean, mean]
    simp only [ih]
    rw [Finset.sum_add_distrib, add_div]

/-- The average of a sum over finitely many is the sum of their averages. -/
theorem mean_sum {ι : Type} (x : Draw α) (F : Finset ι) (f : ι → α → ℚ) :
    (x.mean fun a => ∑ i ∈ F, f i a) = ∑ i ∈ F, x.mean (f i) := by
  classical
  induction F using Finset.induction_on with
  | empty => simpa using mean_zero x
  | insert i F new ih =>
    simp only [Finset.sum_insert new]
    rw [mean_add, ih]

/-- The probabilities of ways that exclude each other add up. -/
theorem probability_eq_sum {ι : Type} {P Q : α → Prop} {A : ι → α → Prop} {x : Draw α}
    (h : x.Always P) (F : Finset ι)
    (apart : ∀ a, P a → ∀ i ∈ F, ∀ j ∈ F, A i a → A j a → i = j)
    (cover : ∀ a, P a → (Q a ↔ ∃ i ∈ F, A i a)) :
    x.probability Q = ∑ i ∈ F, x.probability (A i) := by
  simp only [probability]
  rw [← mean_sum]
  refine mean_congr h fun a ha => ?_
  by_cases hQ : Q a
  · obtain ⟨i, hi, hA⟩ := (cover a ha).1 hQ
    rw [if_pos hQ, Finset.sum_eq_single i, if_pos hA]
    · intro j hj other
      exact if_neg fun hA' => other (apart a ha j hj i hi hA' hA)
    · exact fun out => absurd hi out
  · rw [if_neg hQ, Finset.sum_eq_zero]
    intro i hi
    exact if_neg fun hA => hQ ((cover a ha).2 ⟨i, hi, hA⟩)

/-- The sequences of draws after which a result has a property. -/
def playsTo (x : Draw α) (P : α → Prop) : Set (List (Int × Int)) :=
  {draws | ∃ a, x.Plays draws a ∧ P a}

/-- Without any draw a result alone has what it has. -/
theorem playsTo_done_of {P : α → Prop} {a : α} (h : P a) : (done a).playsTo P = {[]} := by
  ext draws
  constructor
  · rintro ⟨a', plays, -⟩
    cases plays
    rfl
  · rintro rfl
    exact ⟨a, .done a, h⟩

/-- No sequence of draws gives a result alone what it has not. -/
theorem playsTo_done_of_not {P : α → Prop} {a : α} (h : ¬P a) : (done a).playsTo P = ∅ := by
  ext draws
  constructor
  · rintro ⟨a', plays, ha⟩
    cases plays
    exact absurd ha h
  · exact fun none => none.elim

/-- The sequences of draws after a request begin with a number below its limit and go on with what
follows that number. -/
theorem playsTo_ask (r : Request) (next : Except Failure Int → Draw α) (P : α → Prop) :
    (ask r next).playsTo P =
      ⋃ i ∈ (Finset.range r.limit.toNat : Set ℕ),
        List.cons (r.limit, (i : Int)) '' (next (.ok (i : Int))).playsTo P := by
  ext draws
  simp only [Set.mem_iUnion, Set.mem_image, Finset.mem_coe, Finset.mem_range]
  constructor
  · rintro ⟨a, plays, ha⟩
    cases plays with
    | @ask _ _ i draws _ nonneg below rest =>
      obtain ⟨k, rfl⟩ := Int.eq_ofNat_of_zero_le nonneg
      exact ⟨k, by omega, draws, ⟨a, rest, ha⟩, rfl⟩
  · rintro ⟨i, hi, draws, ⟨a, plays, ha⟩, rfl⟩
    exact ⟨a, .ask (Int.natCast_nonneg i) (by omega) plays, ha⟩

/-- Only finitely many sequences of draws are possible at all. -/
theorem playsTo_finite (x : Draw α) (P : α → Prop) : (x.playsTo P).Finite := by
  induction x with
  | done a =>
    by_cases h : P a
    · rw [playsTo_done_of h]
      exact Set.finite_singleton _
    · rw [playsTo_done_of_not h]
      exact Set.finite_empty
  | ask r next ih =>
    rw [playsTo_ask]
    exact (Finset.finite_toSet _).biUnion fun i _ => (ih _).image _

/-- The probability is the sum, over all sequences of draws that lead there, of the products of the
weights of their draws. -/
theorem probability_eq_finsum (x : Draw α) (P : α → Prop) :
    x.probability P = ∑ᶠ draws ∈ x.playsTo P, weight draws := by
  induction x with
  | done a =>
    by_cases h : P a
    · rw [playsTo_done_of h, finsum_mem_singleton, probability, mean, if_pos h, weight]
      rfl
    · rw [playsTo_done_of_not h, finsum_mem_empty, probability, mean, if_neg h]
  | ask r next ih =>
    have apart : (Finset.range r.limit.toNat : Set ℕ).PairwiseDisjoint fun i =>
        List.cons (r.limit, (i : Int)) '' (next (.ok (i : Int))).playsTo P := by
      intro i _ j _ other
      refine Set.disjoint_left.2 ?_
      rintro _ ⟨draws, _, rfl⟩ ⟨draws', _, e⟩
      have same : (j : Int) = i := congrArg (fun draw => draw.2) (List.cons.inj e).1
      exact other (by omega)
    have below : ∀ i : ℕ,
        ∑ᶠ draws ∈ List.cons (r.limit, (i : Int)) '' (next (.ok (i : Int))).playsTo P,
        weight draws = 1 / (r.limit : ℚ) * (next (.ok (i : Int))).probability P := by
      intro i
      rw [finsum_mem_image List.cons_injective.injOn, ih, mul_finsum_mem]
      refine finsum_mem_congr rfl fun draws _ => ?_
      rw [weight, List.map_cons, List.prod_cons, weight]
    rw [playsTo_ask, finsum_mem_biUnion apart (Finset.finite_toSet _)
      fun i _ => (playsTo_finite _ P).image _, finsum_mem_coe_finset, probability, mean,
      Finset.sum_div]
    refine Finset.sum_congr rfl fun i _ => ?_
    rw [below i, probability, one_div, mul_comm, div_eq_mul_inv]

end Draw

end TreeGrammar
