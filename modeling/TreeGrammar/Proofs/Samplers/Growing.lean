import TreeGrammar.Proofs.Samplers.Counting

/-!
# What samplers grow

A call for a tree agrees with the count: it fails where the count fails, gives nothing where the
count is zero, and otherwise gives a tree of the size, whatever is drawn. And it is uniform. Under
an ideal source every derivation of the size is followed equally often, so a tree comes out as often
as it has derivations.

* `generate_agrees`: calls for trees agree with counts, over every grammar.
* `generate_uniform`: the probabilities of derivations and of trees.
-/

namespace TreeGrammar

variable {g : Grammar} {mode : Accounting} {s : Sampler}

/-! ### Agreement with the count -/

/-- What has a count of a positive size is accounted for. -/
theorem accounts_of_count {active : List String} {name : String} {n : Nat} {v : Int} (hn : n ≠ 0)
    (count : (g.plain mode).countRef active (.name name) n = .ok v) : g.Accounts (.name name) := by
  by_contra unknown
  obtain ⟨tag, unbound⟩ := Sampler.Sound.unbound_of_not_accounts unknown
  rw [Recurrence.countRef_unbound _ tag (Grammar.lookup_rules_of_unbound unbound) hn] at count
  cases count

/-- Over every grammar, closed or not, with cycles or without, and whatever the sampler was asked
before, a call for a tree of a positive size agrees with the count of a fresh sampler. Where the
count is a failure the call is the same failure, before anything is drawn. Where it is zero there is
nothing, and nothing is drawn. Otherwise, whatever is drawn, there is a tree without empty places
that has the size and a derivation. -/
theorem generate_agrees (reachable : s.Reachable g mode) (source : Source) (name : String) {n : Int}
    (positive : 1 ≤ n) :
    (∀ e, ((Sampler.ofGrammar g mode source).count name n).1 = .error e →
      ∃ table, s.generation name n = .done (.error e, table)) ∧
    ∀ v, ((Sampler.ofGrammar g mode source).count name n).1 = .ok v →
      (v = 0 → ∃ table, s.generation name n = .done (.ok .absent, table)) ∧
      (v ≠ 0 → (s.generation name n).Always fun out => ∃ sample d, out.1 = .ok sample ∧
        sample.tree? = some d.tree ∧ (d.tree.size mode : Int) = n ∧ g.Derives (.name name) d) := by
  have sound := reachable.sound
  have fresh : (Sampler.ofGrammar g mode source).Sound g mode := Sampler.sound_ofGrammar source
  rw [fresh.count]
  refine ⟨fun e failed => ?_, fun v count => ⟨fun zero => ?_, fun hv => ?_⟩⟩
  · obtain ⟨table, -, done⟩ := sound.generation_of_error failed
    exact ⟨table, done⟩
  · rw [zero] at count
    obtain ⟨table, -, done⟩ :=
      sound.generation_of_zero (accounts_of_count (by omega) count) count
    exact ⟨table, done⟩
  · refine (sound.always_generation count hv).mono ?_
    rintro ⟨_, table⟩ ⟨⟨d, hd, rfl⟩, -⟩
    rw [← Grammar.derivations_toNat] at hd
    exact ⟨_, d, rfl, Tree.tree?_sample _, hd.2, hd.1⟩

/-- Where inner nodes count there are binary trees of size three and none of size two, and a name
that is bound nowhere is a failure. -/
theorem generate_agrees_binary :
    (∃ table, (Sampler.ofGrammar binary .nodes (.ofState 0)).generation "C" 3 =
      .done (.error (.undefinedName "C" none), table)) ∧
    (∃ table, (Sampler.ofGrammar binary .nodes (.ofState 0)).generation "B" 2 =
      .done (.ok .absent, table)) ∧
    ((Sampler.ofGrammar binary .nodes (.ofState 0)).generation "B" 3).Always fun out =>
      ∃ sample d, out.1 = .ok sample ∧ sample.tree? = some d.tree ∧
        (d.tree.size .nodes : Int) = 3 ∧ binary.Derives (.name "B") d := by
  have fresh : (Sampler.ofGrammar binary .nodes (.ofState 0)).Reachable binary .nodes := .fresh _
  refine ⟨(generate_agrees fresh (.ofState 0) "C" (by decide)).1 _ ?_,
    ((generate_agrees fresh (.ofState 0) "B" (by decide)).2 0 ?_).1 rfl,
    ((generate_agrees fresh (.ofState 0) "B" (by decide)).2 1 ?_).2 one_ne_zero⟩
  · rw [fresh.sound.count]
    cbv
  · rw [fresh.sound.count]
    cbv
  · rw [fresh.sound.count]
    cbv

/-! ### Uniformity -/

/-- Whatever the sampler was asked before, a call for a tree follows every derivation of the size
with the same probability. A derivation is followed when the members drawn are those that it
records. -/
theorem Sampler.Sound.probability_tracing (sound : s.Sound g mode) {name : String} {n : Int}
    {v : Int} (count : (g.plain mode).countRef [] (.name name) n.toNat = .ok v) (hv : v ≠ 0)
    {d : Derivation} (hd : d ∈ g.derivations mode (.name name) n.toNat) :
    (s.tracing name n).probability (fun out => out.1 = .ok d.trace) = 1 / v :=
  (sound.law count hv).often s.table sound.table d.trace ⟨d, hd, rfl⟩

/-- A tree comes out as often as derivations that end in it are followed. -/
theorem Sampler.Sound.probability_generation (sound : s.Sound g mode) {name : String} {n : Int}
    {v : Int} (count : (g.plain mode).countRef [] (.name name) n.toNat = .ok v) (hv : v ≠ 0)
    (t : Tree) :
    (s.generation name n).probability (fun out => out.1 = .ok t.sample) =
      ({d | d ∈ g.derivations mode (.name name) n.toNat ∧ d.tree = t}.ncard : ℚ) / v := by
  have finite : {d | d ∈ g.derivations mode (.name name) n.toNat ∧ d.tree = t}.Finite :=
    ((plain_counts g mode).1 _ _ _ _ count).finite.subset fun d hd => hd.1
  have map : (s.generation name n).probability (fun out => out.1 = .ok t.sample) =
      (s.tracing name n).probability fun out => out.1.map Trace.sample = .ok t.sample := by
    rw [Sampler.generation_eq]
    exact Draw.mean_map _ _ _
  have always : (s.tracing name n).Always fun out =>
      ∃ t ∈ Derivation.trace '' g.derivations mode (.name name) n.toNat,
        out.1 = .ok t ∧ out.2.Sound g mode :=
    (sound.law count hv).always s.table sound.table
  have ways := Draw.probability_eq_sum always finite.toFinset
    (A := fun d out => out.1 = .ok d.trace)
    (Q := fun out => out.1.map Trace.sample = .ok t.sample) ?_ ?_
  · have each : ∀ d ∈ finite.toFinset,
        (s.tracing name n).probability (fun out => out.1 = .ok d.trace) = 1 / v :=
      fun d hd => sound.probability_tracing count hv (finite.mem_toFinset.1 hd).1
    rw [map]
    refine ways.trans ?_
    rw [Finset.sum_congr rfl each, Finset.sum_const, nsmul_eq_mul, mul_one_div,
      Set.ncard_eq_toFinset_card _ finite]
  · intro out _ d _ d' _ e e'
    exact Derivation.trace_injective (Except.ok.inj (e.symm.trans e'))
  · rintro ⟨_, table⟩ ⟨_, ⟨d, hd, rfl⟩, rfl, -⟩
    constructor
    · intro e
      have same : d.tree = t := by
        refine Tree.sample_injective ?_
        rw [← Derivation.sample_trace]
        exact Except.ok.inj e
      exact ⟨d, finite.mem_toFinset.2 ⟨hd, same⟩, rfl⟩
    · rintro ⟨d', hd', e⟩
      obtain rfl := Derivation.trace_injective (Except.ok.inj e)
      show Except.ok d.trace.sample = _
      rw [Derivation.sample_trace, (finite.mem_toFinset.1 hd').2]

/-- Over every grammar, whatever the sampler was asked before, and whatever size has trees:
recording the choices has no influence on what is drawn, and the draws on which a call for a tree
follows a derivation of the size have weights that add up to one divided by the count. So the
probabilities of all derivations add up to one, every derivation may be followed, and a tree comes
out with the probability that is the share of its derivations. -/
theorem generate_uniform (reachable : s.Reachable g mode) {name : String} {n : Int} {k : ℕ}
    (count : (s.count name n).1 = .ok (k : Int)) (positive : 0 < k) :
    (s.generation name n = (fun out => (out.1.map Trace.sample, out.2)) <$> s.tracing name n) ∧
    (∀ d, g.Derives (.name name) d → (d.tree.size mode : Int) = n →
      ∑ᶠ draws ∈ (s.tracing name n).playsTo (fun out => out.1 = .ok d.trace),
        Draw.weight draws = 1 / (k : ℚ)) ∧
    (∑ᶠ d ∈ {d | g.Derives (.name name) d ∧ (d.tree.size mode : Int) = n},
      ∑ᶠ draws ∈ (s.tracing name n).playsTo (fun out => out.1 = .ok d.trace),
        Draw.weight draws = 1) ∧
    (∀ d, g.Derives (.name name) d → (d.tree.size mode : Int) = n →
      ∃ draws table, (s.generation name n).Plays draws (.ok d.tree.sample, table)) ∧
    (∀ t : Tree, ∑ᶠ draws ∈ (s.generation name n).playsTo (fun out => out.1 = .ok t.sample),
        Draw.weight draws =
      ({d | (g.Derives (.name name) d ∧ (d.tree.size mode : Int) = n) ∧ d.tree = t}.ncard : ℚ) /
        k) := by
  have sound := reachable.sound
  rw [sound.count] at count
  have hv : (k : Int) ≠ 0 := by omega
  have counts := (plain_counts g mode).1 _ _ _ _ count
  have each : ∀ d ∈ {d | g.Derives (.name name) d ∧ (d.tree.size mode : Int) = n},
      ∑ᶠ draws ∈ (s.tracing name n).playsTo (fun out => out.1 = .ok d.trace),
        Draw.weight draws = 1 / (k : ℚ) := by
    intro d hd
    rw [Grammar.derivations_toNat] at hd
    rw [← Draw.probability_eq_finsum, sound.probability_tracing count hv hd, Int.cast_natCast]
  refine ⟨s.generation_eq name n, fun d derives size => each d ⟨derives, size⟩, ?_,
    fun d derives size => ?_, fun t => ?_⟩
  · rw [finsum_mem_congr rfl each, Grammar.derivations_toNat,
      finsum_mem_eq_finite_toFinset_sum _ counts.finite, Finset.sum_const, nsmul_eq_mul,
      ← Set.ncard_eq_toFinset_card _ counts.finite, ← counts.cast, Int.cast_natCast]
    exact mul_one_div_cancel (by exact_mod_cast positive.ne')
  · have possible : ((s.tracing name n).playsTo fun out => out.1 = .ok d.trace).Nonempty := by
      by_contra none
      have weights := each d ⟨derives, size⟩
      rw [Set.not_nonempty_iff_eq_empty.1 none, finsum_mem_empty] at weights
      have : (k : ℚ) ≠ 0 := by exact_mod_cast positive.ne'
      exact one_div_ne_zero this weights.symm
    obtain ⟨draws, ⟨_, table⟩, plays, rfl⟩ := possible
    refine ⟨draws, table, ?_⟩
    rw [Sampler.generation_eq, ← Derivation.sample_trace]
    exact plays.map fun out => (out.1.map Trace.sample, out.2)
  · rw [← Draw.probability_eq_finsum, sound.probability_generation count hv t, Int.cast_natCast,
      ← Grammar.derivations_toNat]
    rfl

/-- Each of the two binary trees with three leaves is grown with probability one half. -/
theorem generate_uniform_binary :
    ∑ᶠ draws ∈ ((Sampler.ofGrammar binary .leaves (.ofState 0)).tracing "B" 3).playsTo (fun out =>
        out.1 = .ok (Derivation.choice 1 (.node "t_0" [.choice 0 (.leaf "v_x"),
          .choice 1 (.node "t_0" [.choice 0 (.leaf "v_x"), .choice 0 (.leaf "v_x")])])).trace),
      Draw.weight draws = 1 / ((2 : ℕ) : ℚ) := by
  have fresh : (Sampler.ofGrammar binary .leaves (.ofState 0)).Reachable binary .leaves := .fresh _
  have union : binary.get? "B" = some (.union [.name "v_x", .name "t_0"]) := by cbv
  have pair : binary.get? "t_0" = some (.product [.name "B", .name "B"]) := by cbv
  have leaf : binary.Derives (.name "B") (.choice 0 (.leaf "v_x")) :=
    .union (by decide) union rfl (.tag (by decide))
  have node : ∀ {d d'}, binary.Derives (.name "B") d → binary.Derives (.name "B") d' →
      binary.Derives (.name "B") (.choice 1 (.node "t_0" [d, d'])) := fun h h' =>
    .union (by decide) union rfl (.product (by decide) pair (.cons h (.cons h' .nil)))
  refine (generate_uniform fresh ?_ two_pos).2.1 _ (node leaf (node leaf leaf)) (by decide)
  rw [fresh.sound.count]
  cbv

end TreeGrammar
