import TreeGrammar.Proofs.Sampling.Induction
import TreeGrammar.Proofs.Sampling.Law

/-!
# Growing is uniform

Where a reference has a count other than zero, every derivation of the size is followed with the
same probability. A member of a union is drawn in proportion to its count and followed evenly, so
its count cancels; the size of a first item is drawn in proportion to the product of the two counts
that it leaves, and both cancel.

* `Derivation.trace`: a derivation as what is grown when it is followed.
* `EvenRef`, `EvenSequence`: growing follows every derivation of the size equally often, and nothing
  else.
* `law_members`, `law_splits`: what is drawn keeps to that, if what is grown afterwards does.
* `growing_even`: so does every step of growing.
* `evenRef_and_evenSequence`: growing keeps to that everywhere.
-/

namespace TreeGrammar

/-! ### Derivations as traces -/

namespace Derivation

mutual

/-- What is grown when a derivation is followed. -/
def trace : Derivation → Trace
  | leaf tag => .leaf tag
  | node name children => .node name (traces children)
  | choice place member => .choice place member.trace

/-- What is grown when several derivations are followed. -/
def traces : List Derivation → List Trace
  | [] => []
  | d :: ds => d.trace :: traces ds

end

mutual

/-- What is grown when a derivation is followed is its tree. -/
theorem sample_trace : (d : Derivation) → d.trace.sample = d.tree.sample
  | leaf tag => by rw [trace, Trace.sample, tree, Tree.sample]
  | node name children => by
    rw [trace, Trace.sample, tree, Tree.sample, samples_traces children]
  | choice place member => by rw [trace, Trace.sample, tree, sample_trace member]

/-- What is grown when several derivations are followed are their trees. -/
theorem samples_traces : (ds : List Derivation) →
    Trace.samples (traces ds) = Tree.samples (trees ds)
  | [] => by rw [traces, Trace.samples, trees, Tree.samples]
  | d :: ds => by
    rw [traces, Trace.samples, trees, Tree.samples, sample_trace d, samples_traces ds]

end

mutual

/-- Derivations that are followed in the same way are the same. -/
theorem eq_of_trace_eq : (d d' : Derivation) → d.trace = d'.trace → d = d'
  | leaf tag, d', h => by
    cases d' <;> simp_all [trace]
  | node name children, d', h => by
    cases d' with
    | node name' children' =>
      rw [trace, trace] at h
      obtain ⟨rfl, below⟩ := Trace.node.inj h
      rw [eq_of_traces_eq children children' below]
    | leaf => simp [trace] at h
    | choice => simp [trace] at h
  | choice place member, d', h => by
    cases d' with
    | choice place' member' =>
      rw [trace, trace] at h
      obtain ⟨rfl, below⟩ := Trace.choice.inj h
      rw [eq_of_trace_eq member member' below]
    | leaf => simp [trace] at h
    | node => simp [trace] at h

/-- Lists of derivations that are followed in the same way are the same. -/
theorem eq_of_traces_eq : (ds ds' : List Derivation) → traces ds = traces ds' → ds = ds'
  | [], ds', h => by
    cases ds' <;> simp_all [traces]
  | d :: ds, ds', h => by
    cases ds' with
    | nil => simp [traces] at h
    | cons d' ds' =>
      rw [traces, traces] at h
      obtain ⟨first, others⟩ := List.cons.inj h
      rw [eq_of_trace_eq d d' first, eq_of_traces_eq ds ds' others]

end

/-- Two derivations are not followed in the same way. -/
theorem trace_injective : Function.Injective trace := eq_of_trace_eq

end Derivation

/-! ### Every derivation equally often -/

/-- Growing for a reference follows every derivation of the size equally often, and nothing else. All
that this needs is that the plain recurrence has a count, other than zero, while the types on the
trail are being counted. -/
def EvenRef (g : Grammar) (mode : Accounting) (trail : Trail) (r : Ref) (n : Nat) : Prop :=
  (∀ key ∈ trail.active, ∃ t : Ty, t.canonical = key) →
    ∀ v, (g.plain mode).countRef trail.active r n = .ok v → v ≠ 0 →
    Law g mode ((g.tabled mode).traceRef trail r n) (Derivation.trace '' g.derivations mode r n)
      fun _ => 1 / (v : ℚ)

/-- The same of growing for several items together. -/
def EvenSequence (g : Grammar) (mode : Accounting) (trail : Trail) (items : List Ref) (n : Nat) :
    Prop :=
  (∀ key ∈ trail.active, ∃ t : Ty, t.canonical = key) →
    ∀ v, (g.plain mode).countSequences trail.active items n = .ok v → v ≠ 0 →
    Law g mode ((g.tabled mode).traceSequence trail items n)
      (Derivation.traces '' g.sequences mode items n) fun _ => 1 / (v : ℚ)

section uniform

variable {g : Grammar} {mode : Accounting} {n : Nat}

/-- What counts a set is its number of elements, as a fraction too. -/
theorem Counts.cast {α : Type} {v : Int} {S : Set α} (h : Counts v S) : (v : ℚ) = S.ncard := by
  rw [← h.card]
  exact Int.cast_natCast _

/-- No two members have one place. -/
theorem nodup_placed (weights : List (Ref × Int)) :
    ((Recurrence.placed weights).map (·.1)).Nodup := by
  refine List.Nodup.of_map Prod.fst ?_
  rw [Recurrence.placed, List.map_map, List.map_map]
  have places : weights.zipIdx.map Prod.snd = List.range' 0 weights.length :=
    List.zipIdx_map_snd 0 weights
  exact places ▸ List.nodup_range'

/-- A member is drawn in proportion to its count and followed evenly, so all choices are followed
equally often. -/
theorem law_members {s : String} {weights : List (Ref × Int)} {x : Ref → Grow Trace}
    (weighed : Weighed g mode s n weights)
    (members : ∀ c ∈ weights, c.2 ≠ 0 → Law g mode (x c.1)
      (Derivation.trace '' g.derivations mode c.1 n) fun _ => 1 / (c.2 : ℚ)) :
    Law g mode (Recurrence.drawMember weights x)
      (Derivation.trace '' g.derivations mode (.name s) n)
      fun _ => 1 / (Choice.total weights : ℚ) := by
  have among : ∀ c ∈ Recurrence.placed weights, (c.1.2, c.2) ∈ weights :=
    fun c hc => List.mem_of_getElem? (mem_placed hc)
  have exact : ∀ c ∈ Recurrence.placed weights, Counts c.2 (g.derivations mode c.1.2 n) :=
    fun c hc => weighed.counts _ (among c hc)
  have positive := weighed.positive
  rw [Grammar.derivations_union weighed.untagged weighed.bound, Set.image_image]
  rw [← total_placed] at positive ⊢
  refine Law.choose (T := fun member => Trace.choice member.1 ''
      (Derivation.trace '' g.derivations mode member.2 n))
    (fun c hc => (exact c hc).nonneg) (nodup_placed weights) positive ?_ ?_ ?_
  · intro c hc weight
    exact (members _ (among c hc) weight.ne').map fun t t' e => (Trace.choice.inj e).2
  · rintro c hc - _ ⟨_, ⟨d, hd, rfl⟩, rfl⟩
    exact ⟨(c.1.1, d), ⟨c.1.2, getElem?_of_placed hc, hd⟩, by simp only [Derivation.trace]⟩
  · rintro _ ⟨⟨i, d⟩, ⟨r, place, hd⟩, rfl⟩
    rw [List.getElem?_map, Option.map_eq_some_iff] at place
    obtain ⟨⟨_, w⟩, entry, rfl⟩ := place
    have member := placed_mem entry
    refine ⟨_, member, (exact _ member).pos_of_mem hd, ⟨d.trace, ⟨d, hd, rfl⟩, ?_⟩, ?_⟩
    · simp only [Derivation.trace]
    · rintro c' hc' ⟨t, -, e⟩
      simp only [Derivation.trace, Trace.choice.injEq] at e
      have entry' := mem_placed hc'
      rw [e.1, entry] at entry'
      have same := (Prod.mk.inj (Option.some.inj entry')).1
      exact Prod.ext e.1 same.symm

/-- The size of the first tree is drawn in proportion to the product of the counts that it leaves,
and both parts are followed evenly. -/
theorem law_splits {head : Ref} {rest : List Ref}
    {weights : List ({ j : Nat // j + 1 + rest.length ≤ n } × Int)} {x : Nat → Grow Trace}
    {y : Nat → Grow (List Trace)} (split : Split g mode head rest n weights)
    (parts : ∀ c ∈ weights, ∀ a b, Counts a (g.derivations mode head (c.1.1 + 1)) →
      Counts b (g.sequences mode rest (n - (c.1.1 + 1))) → a ≠ 0 → b ≠ 0 →
      Law g mode (x (c.1.1 + 1)) (Derivation.trace '' g.derivations mode head (c.1.1 + 1))
          (fun _ => 1 / (a : ℚ)) ∧
        Law g mode (y (n - (c.1.1 + 1)))
          (Derivation.traces '' g.sequences mode rest (n - (c.1.1 + 1))) fun _ => 1 / (b : ℚ)) :
    Law g mode (Recurrence.drawSplit weights x y)
      (Derivation.traces '' g.sequences mode (head :: rest) n)
      fun _ => 1 / (Choice.total weights : ℚ) := by
  refine Law.choose (T := fun split => Set.image2 List.cons
      (Derivation.trace '' g.derivations mode head (split.1 + 1))
      (Derivation.traces '' g.sequences mode rest (n - (split.1 + 1))))
    split.nonneg split.distinct split.positive ?_ ?_ ?_
  · intro c hc weight
    -- the weight of a size is the product of both counts, and each part is one of its own
    obtain ⟨a, b, ha, hb, e, nonzero, nonzero'⟩ := split.factors hc weight
    have cancel : 1 / (c.2 : ℚ) = 1 / (a : ℚ) * (1 / (b : ℚ)) := by
      rw [e, Int.cast_mul, one_div_mul_one_div]
    obtain ⟨first, others⟩ := parts c hc a b ha hb nonzero nonzero'
    rw [cancel]
    exact first.both others fun _ _ _ _ e => List.cons.inj e
  · rintro c hc - _ ⟨_, ⟨d, hd, rfl⟩, _, ⟨ds, hds, rfl⟩, rfl⟩
    exact ⟨d :: ds, Split.cons_mem c.1 hd hds, by rw [Derivation.traces]⟩
  · rintro _ ⟨ds', member, rfl⟩
    rw [Grammar.sequences_cons] at member
    obtain ⟨⟨d, ds⟩, ⟨first, tail, size, positive⟩, rfl⟩ := member
    simp only at first tail size positive
    have length := tail.length_eq
    have le := Derivation.length_le_sizes mode ds
    obtain ⟨c, hc, here⟩ := split.all (d.size mode - 1) (by omega)
    have hd : d ∈ g.derivations mode head (c.1.1 + 1) := ⟨first, by omega⟩
    have hds : ds ∈ g.sequences mode rest (n - (c.1.1 + 1)) :=
      ⟨tail, show Derivation.sizes mode ds = _ by omega⟩
    obtain ⟨a, b, ha, hb, e⟩ := split.counts c hc
    refine ⟨c, hc, ?_, ⟨d.trace, ⟨d, hd, rfl⟩, Derivation.traces ds, ⟨ds, hds, rfl⟩, ?_⟩, ?_⟩
    · rw [e]
      exact Int.mul_pos (ha.pos_of_mem hd) (hb.pos_of_mem hds)
    · rw [Derivation.traces]
    · rintro c' hc' ⟨_, ⟨d', ⟨-, size'⟩, rfl⟩, _, -, e'⟩
      rw [Derivation.traces] at e'
      -- the first tree has one size, so no other size leads to the same derivation
      obtain rfl := Derivation.trace_injective (List.cons.inj e').1
      have size'' : d'.size mode = c'.1.1 + 1 := size'
      exact Subtype.ext (by omega)

/-- Nothing is drawn for the only derivation. -/
theorem law_leaf (g : Grammar) (mode : Accounting) {r : Ref} {d : Derivation}
    (only : g.derivations mode r 1 = {d}) :
    Law g mode (pure d.trace) (Derivation.trace '' g.derivations mode r 1)
      fun _ => 1 / ((1 : Int) : ℚ) := by
  rw [only, Set.image_singleton, Int.cast_one, one_div_one]
  exact Law.pure _

/-- Every step of growing keeps to the even law. -/
theorem growing_even : Growing g mode
    (fun r n v x => Law g mode x (Derivation.trace '' g.derivations mode r n)
      fun _ => 1 / (v : ℚ))
    fun items n v x => Law g mode x (Derivation.traces '' g.sequences mode items n)
      fun _ => 1 / (v : ℚ) where
  tag tag := by
    have law := law_leaf g mode (Grammar.derivations_tag tag)
    rwa [Derivation.trace] at law
  value tag bound := by
    have law := law_leaf g mode (Grammar.derivations_value tag bound)
    rwa [Derivation.trace] at law
  unit tag bound := by
    have law := law_leaf g mode (Grammar.derivations_unit tag bound)
    rwa [Derivation.trace, Derivation.traces] at law
  product {s items n v x} tag bound inner le law := by
    rw [Grammar.derivations_product tag bound inner le, Set.image_image]
    have law := law.map (Trace.node_injective s)
    rw [Set.image_image] at law
    simp only [Derivation.trace]
    exact law
  union := law_members
  single law := by
    rw [Grammar.sequences_single, Set.image_image]
    have law := law.map List.singleton_injective
    rw [Set.image_image] at law
    exact law
  split := law_splits
  counted := Law.count
  countedAll := Law.count

/-- Growing follows every derivation of the size equally often, and nothing else. -/
theorem evenRef_and_evenSequence :
    (∀ trail r n, EvenRef g mode trail r n) ∧
    (∀ trail items n, items ≠ [] → EvenSequence g mode trail items n) :=
  growing_even.grows

end uniform

end TreeGrammar
