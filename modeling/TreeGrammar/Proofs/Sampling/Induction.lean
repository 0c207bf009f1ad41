import TreeGrammar.Proofs.Counting.Exact
import TreeGrammar.Proofs.Counting.Memory
import TreeGrammar.Proofs.Sampling.Tracing

/-!
# Induction over growing

Over sound tables the weights that are found on the way are the counts of the plain recurrence. So
growing is put together of few steps: a leaf, a node of what was grown for its items, a member of a
union that is drawn by its count, and the size of a first item that is drawn by the counts that it
leaves. What each of these steps keeps is true of all growing.

* `answers_memberWeights`, `answers_splitWeights`: the weights that are found on the way are the
  counts of the plain recurrence.
* `Recurrence.drawMember`, `Recurrence.drawSplit`: the steps that draw.
* `Growing`: what each step keeps.
* `Growing.grows`: what is kept is true of all growing where there is a count other than zero.
-/

namespace TreeGrammar

/-! ### The weights that are found on the way -/

section weights

variable {g : Grammar} {mode : Accounting} {active : List String} {n : Nat}

/-- A count that is found while some types are being counted is found while none is. -/
theorem plain_countRef_of_active (types : ∀ key ∈ active, ∃ t : Ty, t.canonical = key) {r : Ref}
    {v : Int} (count : (g.plain mode).countRef active r n = .ok v) :
    (g.plain mode).countRef [] r n = .ok v :=
  ((tabled_faithful g mode).1 active r n).ok_of_subset types (List.nil_subset _) count

/-- The weights of the members of a union are their counts. -/
theorem answers_memberWeights (types : ∀ key ∈ active, ∃ t : Ty, t.canonical = key)
    {items : List Ref} {v : Int} (count : (g.plain mode).countMembers active items n = .ok v) :
    ∃ weights, Answers g mode ((g.tabled mode).memberWeights n items) (.ok weights) ∧
      weights.map (·.1) = items ∧ Choice.total weights = v ∧
      ∀ c ∈ weights, (g.plain mode).countRef active c.1 n = .ok c.2 := by
  induction items generalizing v with
  | nil =>
    rw [Recurrence.countMembers_nil] at count
    cases count
    refine ⟨[], ?_, rfl, rfl, fun c hc => absurd hc List.not_mem_nil⟩
    rw [Recurrence.memberWeights]
    exact Answers.pure []
  | cons r rest ih =>
    obtain ⟨a, b, ha, hb, rfl⟩ := (plain_countMembers_cons g mode).1 count
    obtain ⟨weights, answers, items, total, counts⟩ := ih hb
    have first := answers_countRef g mode r n
    rw [plain_countRef_of_active types ha] at first
    refine ⟨(r, a) :: weights, ?_, ?_, ?_, ?_⟩
    · rw [Recurrence.memberWeights]
      exact first.bind (answers.bind (Answers.pure _))
    · rw [List.map_cons, items]
    · rw [Choice.total_cons, total]
    · intro c hc
      rcases List.mem_cons.1 hc with rfl | hc
      · exact ha
      · exact counts c hc

/-- The weights of the sizes of a first item are the products of the counts that they leave, and
every size has its weight. -/
theorem answers_splitWeights {head second : Ref} {rest : List Ref} {i : Nat} {v : Int}
    (count : (g.plain mode).countSplits head second rest n i = .ok v) :
    ∃ weights, Answers g mode ((g.tabled mode).splitWeights head second rest n i) (.ok weights) ∧
      (weights.map (·.1)).Nodup ∧ Choice.total weights = v ∧
      (∀ c ∈ weights, i ≤ c.1.1 ∧ ∃ a b, (g.plain mode).countRef [] head (c.1.1 + 1) = .ok a ∧
        (g.plain mode).countSequences [] (second :: rest) (n - (c.1.1 + 1)) = .ok b ∧
        c.2 = a * b) ∧
      ∀ j, i ≤ j → j + 1 + (rest.length + 1) ≤ n → ∃ c ∈ weights, c.1.1 = j := by
  by_cases fits : i + 1 + (rest.length + 1) ≤ n
  · obtain ⟨a, b, others, ha, hb, ho, rfl⟩ := (plain_countSplits_fits g mode fits).1 count
    obtain ⟨weights, answers, distinct, total, counts, all⟩ := answers_splitWeights ho
    have first := answers_countRef g mode head (i + 1)
    have tail := answers_countSequences g mode (second :: rest) (n - (i + 1))
    rw [ha] at first
    rw [hb] at tail
    refine ⟨(⟨i, fits⟩, a * b) :: weights, ?_, ?_, ?_, ?_, ?_⟩
    · rw [Recurrence.splitWeights, dif_pos fits]
      exact first.bind (tail.bind (answers.bind (Answers.pure _)))
    · rw [List.map_cons, List.nodup_cons]
      refine ⟨fun member => ?_, distinct⟩
      obtain ⟨c, hc, e⟩ := List.mem_map.1 member
      have above := (counts c hc).1
      rw [e] at above
      exact absurd above (Nat.not_succ_le_self i)
    · rw [Choice.total_cons, total]
    · intro c hc
      rcases List.mem_cons.1 hc with rfl | hc
      · exact ⟨le_rfl, a, b, ha, hb, rfl⟩
      · obtain ⟨above, found⟩ := counts c hc
        exact ⟨Nat.le_of_succ_le above, found⟩
    · intro j above fits'
      by_cases here : j = i
      · exact ⟨_, List.mem_cons_self, here.symm⟩
      · obtain ⟨c, hc, e⟩ := all j (by omega) fits'
        exact ⟨c, List.mem_cons_of_mem _ hc, e⟩
  · rw [Recurrence.countSplits_stop _ _ _ _ fits] at count
    cases count
    refine ⟨[], ?_, List.nodup_nil, rfl, fun c hc => absurd hc List.not_mem_nil, ?_⟩
    · rw [Recurrence.splitWeights, dif_neg fits]
      exact Answers.pure []
    · intro j above fits'
      omega
termination_by n - i

end weights

/-- A leaf has a count other than zero at size one only. -/
theorem eq_one_of_one_ne_zero {n : Nat} (h : one n ≠ 0) : n = 1 := by
  by_contra other
  exact h (if_neg other)

/-! ### The steps that draw -/

namespace Recurrence

/-- A member of a union is drawn by its weight, and grown. -/
def drawMember (weights : List (Ref × Int)) (member : Ref → Grow Trace) : Grow Trace := do
  match ← Grow.ofDraw (Choice.draw (placed weights)) with
  | some drawn => do
    let t ← member drawn.2
    pure (.choice drawn.1 t)
  | none => throw (.undefinedName "None" none)

/-- The size of a first tree is drawn by its weight. This tree is grown, and others are after it. -/
def drawSplit {k n : Nat} (weights : List ({ j : Nat // j + 1 + k ≤ n } × Int))
    (first : Nat → Grow Trace) (others : Nat → Grow (List Trace)) : Grow (List Trace) := do
  match ← Grow.ofDraw (Choice.draw weights) with
  | none => throw (.inconsistent (.noSplit n))
  | some split => do
    let t ← first (split.1 + 1)
    let ts ← others (n - (split.1 + 1))
    pure (t :: ts)

/-- Equation lemma: for at least two items a size of the first is drawn, and then the first tree and
the others are grown. -/
theorem traceSequence_cons (c : Recurrence CountM) (trail : Trail) (head second : Ref)
    (rest : List Ref) (n : Nat) :
    c.traceSequence trail (head :: second :: rest) n = (do
      let weights ← Grow.ofCount (c.splitWeights head second rest n 0)
      drawSplit weights (c.traceRef trail.afresh head)
        (c.traceSequence trail.afresh (second :: rest))) := by
  rw [traceSequence]
  congr 1
  funext weights
  rw [drawSplit]
  congr 1
  funext split
  cases split <;> rfl

end Recurrence

/-- A member with a place is the one in that place. -/
theorem mem_placed {weights : List (Ref × Int)} {c : (Nat × Ref) × Int}
    (h : c ∈ Recurrence.placed weights) : weights[c.1.1]? = some (c.1.2, c.2) := by
  obtain ⟨entry, member, rfl⟩ := List.mem_map.1 h
  exact List.mem_zipIdx_iff_getElem?.1 member

/-- The member in a place is one with that place. -/
theorem placed_mem {weights : List (Ref × Int)} {i : Nat} {r : Ref} {w : Int}
    (h : weights[i]? = some (r, w)) : ((i, r), w) ∈ Recurrence.placed weights :=
  List.mem_map.2 ⟨((r, w), i), List.mk_mem_zipIdx_iff_getElem?.2 h, rfl⟩

/-- A member that is placed is found at its place. -/
theorem getElem?_of_placed {weights : List (Ref × Int)} {c : (Nat × Ref) × Int}
    (h : c ∈ Recurrence.placed weights) : (weights.map (·.1))[c.1.1]? = some c.1.2 := by
  rw [List.getElem?_map, mem_placed h]
  rfl

/-- Places have no weight. -/
theorem total_placed (weights : List (Ref × Int)) :
    Choice.total (Recurrence.placed weights) = Choice.total weights := by
  have forget := Choice.total_map (Recurrence.placed weights) Prod.snd
  rw [Recurrence.map_placed] at forget
  exact forget.symm

/-! ### What the steps keep -/

/-- The members of a union with the numbers of their derivations of size `n`, not all of them zero.
The union `s` has as many derivations as its members have together. -/
structure Weighed (g : Grammar) (mode : Accounting) (s : String) (n : Nat)
    (weights : List (Ref × Int)) : Prop where
  untagged : ¬isTag s = true
  bound : g.get? s = some (.union (weights.map (·.1)))
  counts : ∀ c ∈ weights, Counts c.2 (g.derivations mode c.1 n)
  total : Counts (Choice.total weights) (g.derivations mode (.name s) n)
  positive : Choice.total weights ≠ 0

/-- The sizes that a first item may have, each less one, with the numbers of sequences of
derivations that they leave, not all of them zero. -/
structure Split (g : Grammar) (mode : Accounting) (head : Ref) (others : List Ref) (n : Nat)
    (weights : List ({ j : Nat // j + 1 + others.length ≤ n } × Int)) : Prop where
  distinct : (weights.map (·.1)).Nodup
  all : ∀ j, j + 1 + others.length ≤ n → ∃ c ∈ weights, c.1.1 = j
  counts : ∀ c ∈ weights, ∃ a b, Counts a (g.derivations mode head (c.1.1 + 1)) ∧
    Counts b (g.sequences mode others (n - (c.1.1 + 1))) ∧ c.2 = a * b
  total : Counts (Choice.total weights) (g.sequences mode (head :: others) n)
  positive : Choice.total weights ≠ 0

namespace Split

variable {g : Grammar} {mode : Accounting} {head : Ref} {others : List Ref} {n : Nat}
  {weights : List ({ j : Nat // j + 1 + others.length ≤ n } × Int)}

/-- No size leaves a negative number of sequences. -/
theorem nonneg (split : Split g mode head others n weights) : Choice.Nonneg weights := by
  intro c hc
  obtain ⟨a, b, ha, hb, e⟩ := split.counts c hc
  rw [e]
  exact Int.mul_nonneg ha.nonneg hb.nonneg

/-- A size that may be drawn leaves something for the first item and for the others. -/
theorem factors (split : Split g mode head others n weights)
    {c : { j : Nat // j + 1 + others.length ≤ n } × Int} (hc : c ∈ weights) (weight : 0 < c.2) :
    ∃ a b, Counts a (g.derivations mode head (c.1.1 + 1)) ∧
      Counts b (g.sequences mode others (n - (c.1.1 + 1))) ∧ c.2 = a * b ∧ a ≠ 0 ∧ b ≠ 0 := by
  obtain ⟨a, b, ha, hb, e⟩ := split.counts c hc
  exact ⟨a, b, ha, hb, e, Int.mul_ne_zero_iff.1 (e ▸ weight.ne')⟩

/-- What is derived for a size that may be drawn has the whole size together. -/
theorem cons_mem (split : { j : Nat // j + 1 + others.length ≤ n }) {d : Derivation}
    {ds : List Derivation} (hd : d ∈ g.derivations mode head (split.1 + 1))
    (hds : ds ∈ g.sequences mode others (n - (split.1 + 1))) :
    d :: ds ∈ g.sequences mode (head :: others) n := by
  obtain ⟨derives, size⟩ := hd
  obtain ⟨below, sizes⟩ := hds
  refine ⟨.cons derives below, ?_⟩
  have fits := split.2
  rw [Derivation.sizes_cons, size, sizes]
  omega

end Split

/-- What every step of growing keeps: `R` of the growing of a tree for a reference, and `S` of the
growing of trees for several items, for a size and the number of derivations of that size. -/
structure Growing (g : Grammar) (mode : Accounting) (R : Ref → Nat → Int → Grow Trace → Prop)
    (S : List Ref → Nat → Int → Grow (List Trace) → Prop) : Prop where
  tag {s : String} : isTag s = true → R (.name s) 1 1 (pure (.leaf s))
  value {s t : String} : ¬isTag s = true → g.get? s = some (.value t) →
    R (.name s) 1 1 (pure (.leaf t))
  unit {s : String} : ¬isTag s = true → g.get? s = some (.product []) →
    R (.name s) 1 1 (pure (.node s []))
  product {s : String} {items : List Ref} {n : Nat} {v : Int} {x : Grow (List Trace)} :
    ¬isTag s = true → g.get? s = some (.product items) → items ≠ [] → mode.offset ≤ n →
    S items (n - mode.offset) v x → R (.name s) n v (x >>= fun ts => pure (.node s ts))
  union {s : String} {n : Nat} {weights : List (Ref × Int)} {x : Ref → Grow Trace} :
    Weighed g mode s n weights → (∀ c ∈ weights, c.2 ≠ 0 → R c.1 n c.2 (x c.1)) →
    R (.name s) n (Choice.total weights) (Recurrence.drawMember weights x)
  single {r : Ref} {n : Nat} {v : Int} {x : Grow Trace} :
    R r n v x → S [r] n v (x >>= fun t => pure [t])
  split {head second : Ref} {rest : List Ref} {n : Nat}
    {weights : List ({ j : Nat // j + 1 + (second :: rest).length ≤ n } × Int)}
    {x : Nat → Grow Trace} {y : Nat → Grow (List Trace)} :
    Split g mode head (second :: rest) n weights →
    (∀ c ∈ weights, ∀ a b, Counts a (g.derivations mode head (c.1.1 + 1)) →
      Counts b (g.sequences mode (second :: rest) (n - (c.1.1 + 1))) → a ≠ 0 → b ≠ 0 →
      R head (c.1.1 + 1) a (x (c.1.1 + 1)) ∧
        S (second :: rest) (n - (c.1.1 + 1)) b (y (n - (c.1.1 + 1)))) →
    S (head :: second :: rest) n (Choice.total weights) (Recurrence.drawSplit weights x y)
  counted {r : Ref} {n : Nat} {v : Int} {γ : Type} {x : CountM γ} {a : γ} {f : γ → Grow Trace} :
    Answers g mode x (.ok a) → R r n v (f a) → R r n v (Grow.ofCount x >>= f)
  countedAll {items : List Ref} {n : Nat} {v : Int} {γ : Type} {x : CountM γ} {a : γ}
    {f : γ → Grow (List Trace)} :
    Answers g mode x (.ok a) → S items n v (f a) → S items n v (Grow.ofCount x >>= f)

/-- Growing for a reference has what the steps keep. All that this needs is that the plain
recurrence has a count, other than zero, while the types on the trail are being counted. -/
def GrowsRef (g : Grammar) (mode : Accounting) (R : Ref → Nat → Int → Grow Trace → Prop)
    (trail : Trail) (r : Ref) (n : Nat) : Prop :=
  (∀ key ∈ trail.active, ∃ t : Ty, t.canonical = key) →
    ∀ v, (g.plain mode).countRef trail.active r n = .ok v → v ≠ 0 →
    R r n v ((g.tabled mode).traceRef trail r n)

/-- The same of growing for several items together. -/
def GrowsSequence (g : Grammar) (mode : Accounting)
    (S : List Ref → Nat → Int → Grow (List Trace) → Prop) (trail : Trail) (items : List Ref)
    (n : Nat) : Prop :=
  (∀ key ∈ trail.active, ∃ t : Ty, t.canonical = key) →
    ∀ v, (g.plain mode).countSequences trail.active items n = .ok v → v ≠ 0 →
    S items n v ((g.tabled mode).traceSequence trail items n)

namespace Growing

variable {g : Grammar} {mode : Accounting} {R : Ref → Nat → Int → Grow Trace → Prop}
  {S : List Ref → Nat → Int → Grow (List Trace) → Prop} {n : Nat} (h : Growing g mode R S)
include h

/-- The members of a union are drawn by their counts. -/
theorem members {trail : Trail} {s : String} {items : List Ref} {v : Int} (tag : ¬isTag s = true)
    (bound : g.get? s = some (.union items)) (hv : v ≠ 0)
    (types : ∀ key ∈ trail.active, ∃ t : Ty, t.canonical = key)
    (count : (g.plain mode).countMembers trail.active items n = .ok v)
    (members : ∀ r, GrowsRef g mode R trail r n) :
    R (.name s) n v (do
      let weights ← Grow.ofCount ((g.tabled mode).memberWeights n items)
      Recurrence.drawMember weights fun r => (g.tabled mode).traceRef trail r n) := by
  obtain ⟨weights, answers, rfl, rfl, counts⟩ := answers_memberWeights types count
  refine h.counted answers (h.union ⟨tag, bound, fun c hc => ?_, ?_, hv⟩ fun c hc => ?_)
  · exact (plain_counts g mode).1 _ _ _ _ (counts c hc)
  · exact .derivations_union tag bound ((plain_counts g mode).2.2.2.2 _ _ _ _ count)
  · exact members c.1 types c.2 (counts c hc)

/-- The size of a first tree is drawn by the product of the counts that it leaves. -/
theorem splits {trail : Trail} {head second : Ref} {rest : List Ref} {v : Int} (hv : v ≠ 0)
    (count : (g.plain mode).countSplits head second rest n 0 = .ok v)
    (firsts : ∀ j, j + 1 + (rest.length + 1) ≤ n → GrowsRef g mode R trail.afresh head (j + 1))
    (others : ∀ j, j + 1 + (rest.length + 1) ≤ n →
      GrowsSequence g mode S trail.afresh (second :: rest) (n - (j + 1))) :
    S (head :: second :: rest) n v (do
      let weights ← Grow.ofCount ((g.tabled mode).splitWeights head second rest n 0)
      Recurrence.drawSplit weights ((g.tabled mode).traceRef trail.afresh head)
        ((g.tabled mode).traceSequence trail.afresh (second :: rest))) := by
  obtain ⟨weights, answers, distinct, rfl, counts, all⟩ := answers_splitWeights count
  obtain ⟨refs, -, sequences, splits, -⟩ := plain_counts g mode
  have exact : ∀ c ∈ weights, ∃ a b, Counts a (g.derivations mode head (c.1.1 + 1)) ∧
      Counts b (g.sequences mode (second :: rest) (n - (c.1.1 + 1))) ∧ c.2 = a * b := by
    intro c hc
    obtain ⟨-, a, b, ha, hb, e⟩ := counts c hc
    exact ⟨a, b, refs _ _ _ _ ha, sequences _ _ _ (List.cons_ne_nil _ _) _ hb, e⟩
  have total := Counts.sequences_cons (splits _ _ _ _ _ _ count)
  have none : ∀ key ∈ trail.afresh.active, ∃ t : Ty, t.canonical = key :=
    fun key h => absurd h List.not_mem_nil
  refine h.countedAll answers (h.split
    ⟨distinct, fun j => all j (Nat.zero_le j), exact, total, hv⟩ ?_)
  intro c hc a b first tail positive positive'
  obtain ⟨-, a', b', ha, hb, -⟩ := counts c hc
  obtain rfl := first.unique (refs _ _ _ _ ha)
  obtain rfl := tail.unique (sequences _ _ _ (List.cons_ne_nil _ _) _ hb)
  exact ⟨firsts c.1.1 c.1.2 none a ha positive, others c.1.1 c.1.2 none b hb positive'⟩

/-- A name that is bound is grown from its items. -/
theorem bound {trail : Trail} {s : String} {type : Ty} (tag : ¬isTag s = true)
    (bound : g.get? s = some type) (hn : n ≠ 0)
    (smaller : ∀ items, items ≠ [] → GrowsSequence g mode S trail.afresh items (n - 1))
    (same : ∀ trail' items, trail.enter type.canonical = some trail' → items ≠ [] →
      GrowsSequence g mode S trail' items n)
    (members : ∀ trail' r, trail.enter type.canonical = some trail' →
      GrowsRef g mode R trail' r n) :
    GrowsRef g mode R trail (.name s) n := by
  intro types v count hv
  have found : (g.plain mode).rules.lookup s = some (.ofTy type) :=
    Grammar.lookup_rules_of_bound bound
  have counted : Answers g mode ((g.tabled mode).countRule (.ofTy type) n) (.ok v) := by
    have answers := answers_countRule g mode (.ofTy type) n
    rwa [plain_countRule_of_bound tag bound, plain_countRef_of_active types count] at answers
  rw [Recurrence.traceRef_bound _ tag found, Recurrence.growBound]
  refine h.counted counted ?_
  rw [if_neg hv]
  dsimp only [Rule.ofTy]
  by_cases leaf : type.isLeaf = true
  · rw [Recurrence.countRef_leaf _ tag found leaf hn] at count
    obtain rfl := Except.ok.inj count
    obtain rfl := eq_one_of_one_ne_zero hv
    obtain ⟨t, rfl⟩ | rfl := Ty.isLeaf_iff.1 leaf
    · exact h.value tag bound
    · exact h.unit tag bound
  · rw [plain_countRef_bound g mode tag bound leaf hn] at count
    by_cases met : type.canonical ∈ trail.active
    · rw [if_pos met] at count
      cases count
    · rw [if_neg met] at count
      have entered := Trail.enter_of_notMem met
      -- the type is on the trail from now on
      have types' : ∀ key ∈ type.canonical :: trail.active, ∃ t : Ty, t.canonical = key := by
        intro key hk
        rcases List.mem_cons.1 hk with rfl | hk
        · exact ⟨type, rfl⟩
        · exact types key hk
      rcases type with t | items | items
      · exact absurd rfl leaf
      · obtain ⟨first, rest, rfl⟩ : ∃ first rest, items = first :: rest :=
          List.exists_cons_of_ne_nil fun none => leaf (by rw [none]; rfl)
        have inner := List.cons_ne_nil first rest
        rcases mode with _ | _
        · rw [Recurrence.countBody_product_nodes _ _ rfl hn] at count
          simp only [Grammar.tabled, Recurrence.tabled, if_neg hn]
          exact h.product tag bound inner (Nat.pos_of_ne_zero hn)
            (smaller _ inner (fun key h => absurd h List.not_mem_nil) v count hv)
        · rw [Recurrence.countBody_product_leaves _ _ rfl] at count
          simp only [Grammar.tabled, Recurrence.tabled, entered]
          exact h.product tag bound inner (Nat.zero_le n) (same _ _ entered inner types' v count hv)
      · rw [Recurrence.countBody_union] at count
        simp only [entered]
        exact h.members tag bound hv types' count fun r => members _ r entered

/-- What the steps keep is true of all growing. The induction is over the growing. -/
theorem grows :
    (∀ trail r n, GrowsRef g mode R trail r n) ∧
    (∀ trail items n, items ≠ [] → GrowsSequence g mode S trail items n) := by
  have positive : ∀ {active r n v}, (g.plain mode).countRef active r n = .ok v → v ≠ 0 → n ≠ 0 := by
    rintro active r n v count hv rfl
    rw [Recurrence.countRef_zero] at count
    exact hv (Except.ok.inj count).symm
  apply Recurrence.growing_induction (g.tabled mode)
  case nameless =>
    intro trail r n nameless types v count hv
    rw [Recurrence.countRef_nameless _ nameless (positive count hv)] at count
    cases count
  case tag =>
    intro trail s n tag types v count hv
    rw [Recurrence.countRef_tag _ tag (positive count hv)] at count
    obtain rfl := Except.ok.inj count
    obtain rfl := eq_one_of_one_ne_zero hv
    rw [Recurrence.traceRef_tag _ tag, if_pos rfl]
    exact h.tag tag
  case unbound =>
    intro trail s n tag found types v count hv
    have unbound : (g.plain mode).rules.lookup s = none := found
    rw [Recurrence.countRef_unbound _ tag unbound (positive count hv)] at count
    cases count
  case bound =>
    intro trail s n rule tag found smaller same members types v count hv
    have hn := positive count hv
    obtain ⟨type, _, rfl⟩ := rule
    exact h.bound tag (g.get?_of_lookup_rules found) hn (fun items => smaller items hn) same members
      types v count hv
  case empty =>
    intro trail n inner
    exact absurd rfl inner
  case single =>
    intro trail r n ih _ types v count hv
    rw [Recurrence.countSequences_single] at count
    rw [Recurrence.traceSequence]
    exact h.single (ih types v count hv)
  case several =>
    intro trail head second rest n ih₁ ih₂ _ types v count hv
    by_cases short : n < rest.length + 2
    · rw [Recurrence.countSequences_short _ _ _ _ short] at count
      exact absurd (Except.ok.inj count).symm hv
    · rw [Recurrence.countSequences_long _ _ _ _ short] at count
      rw [Recurrence.traceSequence_cons]
      exact h.splits hv count ih₁ fun j fits => ih₂ j fits (List.cons_ne_nil _ _)

end Growing

end TreeGrammar
