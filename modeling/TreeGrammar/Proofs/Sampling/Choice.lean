import TreeGrammar.Proofs.Sampling.Draws

/-!
# Weighted choice

The values lie side by side with their weights as lengths, so a number below the total falls into
the stretch of exactly one value, and into the stretch of each as often as its weight says. All of
this needs the weights not to be negative, which counts never are.

* `Choice.Covers`: a number falls into the stretch of a place.
* `Choice.place?_eq_some_iff`, `Choice.place?_eq_none_iff`: a number selects the place whose stretch
  it falls into, and none beyond the total.
* `Choice.exists_pick`: a draw picks a value with a positive weight.
* `Choice.sum_pick`: over all draws, each value is picked as often as its weight says.
* `Choice.always_draw`, `Choice.share_of_mem`: the same of a weighted choice.
* `Choice.draw_map`: what the values are has no influence on the draw.
-/

namespace TreeGrammar

namespace Choice

variable {α β : Type} {choices : List (α × Int)}

/-- No weight is negative. -/
def Nonneg (choices : List (α × Int)) : Prop :=
  ∀ c ∈ choices, 0 ≤ c.2

/-- No weight of the rest is negative. -/
theorem Nonneg.tail {c : α × Int} {rest : List (α × Int)} (h : Nonneg (c :: rest)) : Nonneg rest :=
  fun c' hc => h c' (List.mem_cons_of_mem c hc)

/-- Equation lemma: there is no weight where there is no choice. -/
@[simp] theorem total_nil : total ([] : List (α × Int)) = 0 := rfl

/-- Equation lemma: the first weight comes on top of the rest. -/
@[simp] theorem total_cons (c : α × Int) (rest : List (α × Int)) :
    total (c :: rest) = c.2 + total rest := rfl

/-- The total is the sum of the weights. -/
theorem total_eq_sum (choices : List (α × Int)) : total choices = (choices.map (·.2)).sum := by
  induction choices with
  | nil => rfl
  | cons c rest ih => rw [total_cons, List.map_cons, List.sum_cons, ih]

/-- Weights that are not negative have a total that is not. -/
theorem total_nonneg (h : Nonneg choices) : 0 ≤ total choices := by
  rw [total_eq_sum]
  exact List.sum_nonneg (List.forall_mem_map.2 h)

/-- Other values with the same weights have the same total. -/
theorem total_map (choices : List (α × Int)) (f : α → β) :
    total (choices.map fun c => (f c.1, c.2)) = total choices := by
  induction choices with
  | nil => rfl
  | cons c rest ih => rw [List.map_cons, total_cons, total_cons, ih]

/-- From other values with the same weights a number picks the one in the same place. -/
theorem pick_map (choices : List (α × Int)) (f : α → β) (r : Int) :
    pick (choices.map fun c => (f c.1, c.2)) r = (pick choices r).map f := by
  induction choices generalizing r with
  | nil => rfl
  | cons c rest ih =>
    rw [List.map_cons, pick, pick]
    by_cases here : r < c.2
    · rw [if_pos here, if_pos here, Option.map_some]
    · rw [if_neg here, if_neg here, ih]

/-! ### Stretches -/

/-- The sum of the weights before a place, at which the stretch of that place begins. -/
def before (choices : List (α × Int)) (i : Nat) : Int :=
  ((choices.map (·.2)).take i).sum

/-- A number falls into the stretch of a place. -/
def Covers (choices : List (α × Int)) (i : Nat) (r : Int) : Prop :=
  before choices i ≤ r ∧ r < before choices (i + 1)

instance (choices : List (α × Int)) (i : Nat) : DecidablePred (Covers choices i) := fun _ =>
  inferInstanceAs (Decidable (_ ∧ _))

/-- Equation lemma: behind the first choice a stretch begins later by the first weight. -/
theorem before_cons_succ (c : α × Int) (rest : List (α × Int)) (i : Nat) :
    before (c :: rest) (i + 1) = c.2 + before rest i := by
  rw [before, List.map_cons, List.take_succ_cons, List.sum_cons, before]

/-- A stretch ends after its weight, where the next one begins. -/
theorem before_succ {i : Nat} {c : α × Int} (entry : choices[i]? = some c) :
    before choices (i + 1) = before choices i + c.2 := by
  obtain ⟨inside, rfl⟩ := List.getElem?_eq_some_iff.1 entry
  have inside' : i < (choices.map (·.2)).length := by rwa [List.length_map]
  rw [before, List.sum_take_succ _ _ inside', List.getElem_map, before]

/-- Behind all choices the weights are all before. -/
theorem before_of_length_le {i : Nat} (outside : choices.length ≤ i) :
    before choices i = total choices := by
  rw [before, List.take_of_length_le (by rwa [List.length_map]), total_eq_sum]

/-- No stretch begins below zero. -/
theorem before_nonneg (h : Nonneg choices) (i : Nat) : 0 ≤ before choices i :=
  List.sum_nonneg fun w hw => List.forall_mem_map.2 h w (List.mem_of_mem_take hw)

/-- No stretch begins above the total. -/
theorem before_le_total (h : Nonneg choices) (i : Nat) : before choices i ≤ total choices := by
  have later : 0 ≤ ((choices.map (·.2)).drop i).sum :=
    List.sum_nonneg fun w hw => List.forall_mem_map.2 h w (List.mem_of_mem_drop hw)
  rw [total_eq_sum, ← List.sum_take_add_sum_drop _ i]
  exact le_add_of_nonneg_right later

/-- Equation lemma: the first stretch goes from zero to the first weight. -/
theorem covers_cons_zero {c : α × Int} {rest : List (α × Int)} {r : Int} :
    Covers (c :: rest) 0 r ↔ 0 ≤ r ∧ r < c.2 := by
  rw [Covers, before_cons_succ, before, before, List.take_zero, List.take_zero, List.sum_nil,
    add_zero]

/-- Equation lemma: a number falls into a later stretch as it falls, less the first weight, into
that of the rest. -/
theorem covers_cons_succ {c : α × Int} {rest : List (α × Int)} {i : Nat} {r : Int} :
    Covers (c :: rest) (i + 1) r ↔ Covers rest i (r - c.2) := by
  rw [Covers, Covers, before_cons_succ, before_cons_succ, le_sub_iff_add_le', sub_lt_iff_lt_add']

/-- Only a place that holds a value with a positive weight has a stretch. -/
theorem Covers.exists_entry {i : Nat} {r : Int} (covers : Covers choices i r) :
    ∃ c, choices[i]? = some c ∧ 0 < c.2 := by
  obtain ⟨above, below⟩ := covers
  rcases entry : choices[i]? with _ | c
  · have outside : choices.length ≤ i := List.getElem?_eq_none_iff.1 entry
    rw [before_of_length_le outside] at above
    rw [before_of_length_le (outside.trans i.le_succ)] at below
    omega
  · rw [before_succ entry] at below
    exact ⟨c, rfl, by omega⟩

/-- Each place with the weight of its value. -/
def places (choices : List (α × Int)) : List (Nat × Int) :=
  choices.mapIdx fun i c => (i, c.2)

/-- The place that is picked, if places stand for the values. -/
def place? (choices : List (α × Int)) (r : Int) : Option Nat :=
  pick (places choices) r

/-- Equation lemma: a number below the first weight picks the first place, and any other picks among
the rest. -/
theorem place?_cons (c : α × Int) (rest : List (α × Int)) (r : Int) :
    place? (c :: rest) r =
      if r < c.2 then some 0 else (place? rest (r - c.2)).map (· + 1) := by
  have shifted : (rest.mapIdx fun i c => (i + 1, c.2)) =
      (places rest).map fun p => (p.1 + 1, p.2) :=
    List.mapIdx_eq_iff.2 fun i => by
      rw [places, List.getElem?_map, List.getElem?_mapIdx, Option.map_map]
      rfl
  rw [place?, places, List.mapIdx_cons, shifted, pick, pick_map _ (· + 1), place?]

/-- The value that is picked is that of the place. -/
theorem pick_eq_bind_place? (choices : List (α × Int)) (r : Int) :
    pick choices r = (place? choices r).bind fun i => choices[i]?.map (·.1) := by
  induction choices generalizing r with
  | nil => rfl
  | cons c rest ih =>
    rw [pick, place?_cons]
    by_cases here : r < c.2
    · rw [if_pos here, if_pos here]
      rfl
    · rw [if_neg here, if_neg here, ih, Option.bind_map]
      rfl

/-- A number selects the place whose stretch it falls into. -/
theorem place?_eq_some_iff (h : Nonneg choices) {r : Int} (nonneg : 0 ≤ r) {i : Nat} :
    place? choices r = some i ↔ Covers choices i r := by
  induction choices generalizing r i with
  | nil =>
    refine ⟨nofun, fun covers => ?_⟩
    obtain ⟨c, entry, -⟩ := covers.exists_entry
    cases entry
  | cons c rest ih =>
    rw [place?_cons]
    by_cases here : r < c.2
    · rw [if_pos here]
      cases i with
      | zero => simp [covers_cons_zero, nonneg, here]
      | succ i =>
        -- no stretch of a later place begins so early
        refine ⟨nofun, fun covers => ?_⟩
        have := (covers_cons_succ.1 covers).1
        have := before_nonneg h.tail i
        omega
    · rw [if_neg here]
      cases i with
      | zero => simp [covers_cons_zero, here]
      | succ i =>
        rw [covers_cons_succ, ← ih h.tail (by omega)]
        simp

/-- A number selects no place exactly if it lies beyond all stretches. -/
theorem place?_eq_none_iff (h : Nonneg choices) {r : Int} (nonneg : 0 ≤ r) :
    place? choices r = none ↔ total choices ≤ r := by
  induction choices generalizing r with
  | nil => exact iff_of_true rfl nonneg
  | cons c rest ih =>
    rw [place?_cons, total_cons]
    by_cases here : r < c.2
    · rw [if_pos here]
      have := total_nonneg h.tail
      exact iff_of_false nofun (by omega)
    · rw [if_neg here, Option.map_eq_none_iff, ih h.tail (by omega)]
      omega

/-- A draw below the total selects a place, and picks its value. -/
theorem exists_place (h : Nonneg choices) {r : Int} (nonneg : 0 ≤ r) (below : r < total choices) :
    ∃ i c, choices[i]? = some c ∧ 0 < c.2 ∧ place? choices r = some i ∧
      pick choices r = some c.1 := by
  have selects : place? choices r ≠ none := fun e =>
    absurd ((place?_eq_none_iff h nonneg).1 e) (by omega)
  obtain ⟨i, placed⟩ := Option.ne_none_iff_exists'.1 selects
  obtain ⟨c, entry, positive⟩ := ((place?_eq_some_iff h nonneg).1 placed).exists_entry
  refine ⟨i, c, entry, positive, placed, ?_⟩
  rw [pick_eq_bind_place?, placed, Option.bind_some, entry, Option.map_some]

/-- A draw below the total picks a value with a positive weight. -/
theorem exists_pick (h : Nonneg choices) {r : Int} (nonneg : 0 ≤ r) (below : r < total choices) :
    ∃ c ∈ choices, 0 < c.2 ∧ pick choices r = some c.1 := by
  obtain ⟨i, c, entry, positive, -, picked⟩ := exists_place h nonneg below
  exact ⟨c, List.mem_of_getElem? entry, positive, picked⟩

/-- The draws below the total are shared out among the values according to their weights. -/
theorem sum_pick (h : Nonneg choices) (f : Option α → ℚ) :
    ∑ r ∈ Finset.range (total choices).toNat, f (pick choices (r : Int)) =
      (choices.map fun c => (c.2 : ℚ) * f (some c.1)).sum := by
  induction choices with
  | nil => rfl
  | cons c rest ih =>
    have hc := h c List.mem_cons_self
    have hr := total_nonneg h.tail
    rw [total_cons, Int.toNat_add hc hr, Finset.sum_range_add, List.map_cons, List.sum_cons,
      ← ih h.tail]
    congr 1
    · have here : ∀ r ∈ Finset.range c.2.toNat, f (pick (c :: rest) (r : Int)) = f (some c.1) := by
        intro r hr
        have := Finset.mem_range.1 hr
        rw [pick, if_pos (by omega)]
      have length : ((c.2.toNat : ℕ) : ℚ) = (c.2 : ℚ) := by
        exact_mod_cast Int.toNat_of_nonneg hc
      rw [Finset.sum_congr rfl here, Finset.sum_const, Finset.card_range, nsmul_eq_mul, length]
    · refine Finset.sum_congr rfl fun r _ => ?_
      rw [pick, if_neg (by omega)]
      congr 2
      omega

/-! ### The choice as a computation -/

/-- What comes of a number that is drawn. -/
def result (choices : List (α × Int)) (r : Int) : Except Failure (Option α) :=
  match pick choices r with
  | some a => .ok (some a)
  | none => .error (.inconsistent .pastTotal)

/-- What is picked is the result. -/
theorem result_of_pick {r : Int} {a : α} (picked : pick choices r = some a) :
    result choices r = .ok (some a) := by
  rw [result, picked]

/-- Where there is no weight nothing is asked for, and nothing is drawn. -/
theorem draw_of_total_eq_zero (zero : total choices = 0) :
    (draw choices).run = .done (.ok none) := by
  rw [draw, if_pos zero]
  rfl

/-- A choice among weights that do not add up to zero asks once. -/
theorem draw_of_total_ne_zero (h : total choices ≠ 0) :
    (draw choices).run =
      .ask (.below (total choices)) fun answer => .done (answer.bind (result choices)) := by
  rw [draw, if_neg h]
  change Draw.ask _ _ = Draw.ask _ _
  congr 1
  funext answer
  rcases answer with e | r
  · rfl
  · simp only [Draw.bind, ExceptT.bindCont, Except.bind, result]
    rcases pick choices r with _ | a
    · rfl
    · rfl

/-- A choice takes a value with a positive weight. -/
theorem always_draw (h : Nonneg choices) (positive : total choices ≠ 0) :
    (draw choices).run.Always fun out => ∃ c ∈ choices, 0 < c.2 ∧ out = .ok (some c.1) := by
  rw [draw_of_total_ne_zero positive]
  have := total_nonneg h
  refine ⟨by rw [Request.limit]; omega, fun r nonneg below => ?_⟩
  obtain ⟨c, member, weight, picked⟩ := exists_pick h nonneg below
  exact ⟨c, member, weight, result_of_pick picked⟩

/-- A choice takes each value in proportion to its weight. -/
theorem mean_draw (h : Nonneg choices) (positive : total choices ≠ 0)
    (f : Except Failure (Option α) → ℚ) :
    (draw choices).run.mean f =
      (choices.map fun c => (c.2 : ℚ) * f (.ok (some c.1))).sum / total choices := by
  rw [draw_of_total_ne_zero positive, Draw.mean, Request.limit]
  simp only [Draw.mean]
  congr 1
  exact sum_pick h fun picked => f (match picked with
    | some a => .ok (some a)
    | none => .error (.inconsistent .pastTotal))

open Classical in
/-- Where no value occurs twice, a sum over all values has one that is looked for once. -/
theorem sum_of_mem {c : α × Int} (distinct : (choices.map (·.1)).Nodup) (member : c ∈ choices) :
    (choices.map fun c' => (c'.2 : ℚ) * if c'.1 = c.1 then 1 else 0).sum = c.2 := by
  induction choices with
  | nil => cases member
  | cons c' rest ih =>
    obtain ⟨new, distinct'⟩ := List.nodup_cons.1 distinct
    have others : ∀ c'' ∈ rest, c''.1 ≠ c'.1 := fun c'' h e => new (List.mem_map.2 ⟨c'', h, e⟩)
    rw [List.map_cons, List.sum_cons]
    rcases List.mem_cons.1 member with rfl | later
    · have none : (rest.map fun c' => (c'.2 : ℚ) * if c'.1 = c.1 then 1 else 0) =
          rest.map fun _ => 0 :=
        List.map_congr_left fun c' h => by rw [if_neg (others c' h), mul_zero]
      rw [none, if_pos rfl, mul_one, List.map_const', List.sum_replicate, smul_zero, add_zero]
    · rw [ih distinct' later, if_neg (others c later).symm, mul_zero, zero_add]

/-- How often a value is drawn. -/
noncomputable def share (choices : List (α × Int)) (o : Option α) : ℚ :=
  (draw choices).run.probability fun out => out = .ok o

/-- Where no value occurs twice, each is drawn with a probability in proportion to its weight. -/
theorem share_of_mem (h : Nonneg choices) (distinct : (choices.map (·.1)).Nodup)
    (positive : total choices ≠ 0) {c : α × Int} (member : c ∈ choices) :
    share choices (some c.1) = c.2 / total choices := by
  classical
  rw [share, Draw.probability, mean_draw h positive, ← sum_of_mem distinct member]
  congr 2
  refine List.map_congr_left fun c' _ => ?_
  congr 1
  by_cases same : c'.1 = c.1
  · rw [if_pos same, if_pos (by rw [same])]
  · rw [if_neg same, if_neg fun e => same (Option.some.inj (Except.ok.inj e))]

/-- What the values are has no influence on the draw. -/
theorem draw_map (choices : List (α × Int)) (f : α → β) :
    draw (choices.map fun c => (f c.1, c.2)) = Option.map f <$> draw choices := by
  apply ExceptT.ext
  rw [ExceptT.run_map]
  by_cases zero : total choices = 0
  · rw [draw_of_total_eq_zero zero, draw_of_total_eq_zero (by rw [total_map, zero])]
    rfl
  · rw [draw_of_total_ne_zero zero, draw_of_total_ne_zero (by rw [total_map]; exact zero),
      total_map]
    change Draw.ask _ _ = Draw.ask _ _
    congr 1
    funext answer
    rcases answer with e | r
    · rfl
    · simp only [Except.bind, result, pick_map]
      rcases pick choices r with _ | a
      · rfl
      · rfl

end Choice

end TreeGrammar
