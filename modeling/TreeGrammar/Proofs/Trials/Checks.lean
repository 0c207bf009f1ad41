import Mathlib
import TreeGrammar.Proofs.Bindings.Rebuilding
import TreeGrammar.Proofs.Samplers.Calls
import TreeGrammar.Trials.Check

/-!
# The checks hold

On a grammar that normalisation returns every check finds its property, whatever the sampler was
asked before and whatever it draws. Counts are numbers of derivations, and the sums and products
that the checks compare them with are numbers of the same derivations, put together otherwise.

* `SamplerM.Succeeds`: a computation with a sampler succeeds, and leaves a sampler of the same kind.
* `SamplerM.succeeds_count`, `SamplerM.succeeds_generate`: what counting and growing come to.
* `Check.succeeds_fault?`: no check finds a fault in a name.
* `Check.succeeds_run`: every check holds.
-/

namespace TreeGrammar

/-! ### Computations with a sampler -/

/-- With a sampler that was asked anything before, and whose source keeps to the limits, a
computation succeeds, its result has a property, and it leaves such a sampler. -/
def SamplerM.Succeeds {α : Type} (g : Grammar) (mode : Accounting) (P : α → Prop)
    (x : SamplerM α) : Prop :=
  ∀ s : Sampler, s.Reachable g mode → s.source.Fair → ∃ a s', x.run.run s = (.ok a, s') ∧ P a ∧
    s'.Reachable g mode ∧ s'.source.Fair

namespace SamplerM

variable {α β : Type} {g : Grammar} {mode : Accounting} {P : α → Prop} {Q : β → Prop}

/-- A result alone succeeds and leaves the sampler as it is. -/
theorem Succeeds.pure {a : α} (h : P a) : Succeeds g mode P (pure a) :=
  fun s reachable fair => ⟨a, s, rfl, h, reachable, fair⟩

/-- Where a computation succeeds and so does what follows any of its results, both together
succeed. -/
theorem Succeeds.bind {x : SamplerM α} {f : α → SamplerM β} (h : Succeeds g mode P x)
    (hf : ∀ a, P a → Succeeds g mode Q (f a)) : Succeeds g mode Q (x >>= f) := by
  intro s reachable fair
  obtain ⟨a, s', run, ha, reachable', fair'⟩ := h s reachable fair
  obtain ⟨b, s'', run', hb, kept⟩ := hf a ha s' reachable' fair'
  refine ⟨b, s'', ?_, hb, kept⟩
  rw [ExceptT.run_bind, StateT.run_bind, run]
  exact run'

/-- A sampler that was asked anything has the mode it was made with. -/
theorem succeeds_get : Succeeds g mode (fun s => s.mode = mode) get :=
  fun s reachable fair => ⟨s, s, rfl, reachable.sound.mode_eq, reachable, fair⟩

/-- Going through a list no fault is found if none is found at any place. -/
theorem succeeds_firstFault {fault? : α → SamplerM (Option String)} {l : List α}
    (each : ∀ a ∈ l, Succeeds g mode (· = none) (fault? a)) :
    Succeeds g mode (· = none) (Check.firstFault fault? l) := by
  induction l with
  | nil => exact .pure rfl
  | cons a rest ih =>
    obtain ⟨first, others⟩ := List.forall_mem_cons.1 each
    refine first.bind ?_
    rintro _ rfl
    exact ih others

/-- Going through the sizes no fault is found if none is found at any size but zero. -/
theorem succeeds_firstSize {last : Nat} {fault? : Nat → SamplerM (Option String)}
    (each : ∀ n, n ≠ 0 → Succeeds g mode (· = none) (fault? n)) :
    Succeeds g mode (· = none) (Check.firstSize last fault?) := by
  refine succeeds_firstFault fun n hn => each n ?_
  obtain ⟨k, -, rfl⟩ := List.mem_map.1 hn
  exact Nat.succ_ne_zero k

/-! ### Counting and growing -/

variable (normal : g.Normal)
include normal

/-- A count is the number of derivations. -/
theorem succeeds_count {r : Ref} (accounts : g.Accounts r) (n : Nat) :
    Succeeds g mode (Counts · (g.derivations mode r n)) (SamplerM.count r n) := by
  intro s reachable fair
  obtain ⟨v, count⟩ := plain_countRef_ok normal.closed (normal.acyclic mode) accounts n
  have answers := answers_countRef g mode r n
  rw [count, ← reachable.sound.recurrence_eq] at answers
  exact ⟨v, (s.countRef r n).2, Prod.ext (reachable.sound.tally answers).1 rfl,
    (plain_counts g mode).1 [] r n v count, reachable.next (.countRef s r n), fair⟩

/-- What is grown is nothing if there is no derivation, and else the tree of one. -/
theorem succeeds_generate {name : String} (accounts : g.Accounts (.name name)) (n : Nat) :
    Succeeds g mode (fun sample => sample = .absent ∧ g.derivations mode (.name name) n = ∅ ∨
      ∃ d ∈ g.derivations mode (.name name) n, sample = d.tree.sample)
      (SamplerM.generate name n) := by
  intro s reachable fair
  obtain ⟨v, count⟩ := plain_countRef_ok normal.closed (normal.acyclic mode) accounts n
  have counts := (plain_counts g mode).1 [] (.name name) n v count
  have always : (s.generation name n).Always fun out => ∃ sample, out.1 = .ok sample ∧
      (sample = .absent ∧ g.derivations mode (.name name) n = ∅ ∨
        ∃ d ∈ g.derivations mode (.name name) n, sample = d.tree.sample) := by
    by_cases zero : v = 0
    · subst zero
      obtain ⟨table, -, done⟩ := reachable.sound.generation_of_zero (n := n) accounts count
      rw [done]
      exact ⟨_, rfl, Or.inl ⟨rfl, counts.eq_zero_iff.1 rfl⟩⟩
    · refine (reachable.sound.always_generation (n := n) count zero).mono ?_
      rintro out ⟨⟨d, hd, grown⟩, -⟩
      exact ⟨_, grown, Or.inr ⟨d, hd, rfl⟩⟩
  obtain ⟨⟨sample, grown, held⟩, fair'⟩ := always.run fair
  exact ⟨sample, (s.generate name n).sampler, Prod.ext grown rfl, held,
    reachable.generate fair name n, fair'⟩

/-- The counts of the members together are the number of choices among them. -/
theorem succeeds_sumCounts {items : List Ref} (accounts : ∀ r ∈ items, g.Accounts r) (n : Nat) :
    Succeeds g mode (Counts · (g.choices mode items n)) (Check.sumCounts n items) := by
  induction items with
  | nil => exact .pure (by rw [Grammar.choices_nil]; exact .empty)
  | cons r rest ih =>
    obtain ⟨first, others⟩ := List.forall_mem_cons.1 accounts
    refine (succeeds_count normal first n).bind fun a ha => (ih others).bind fun b hb => ?_
    exact .pure (ha.choices_cons hb)

/-- The products of counts for the sizes that are left together are the number of pairs in which the
first tree has one of these sizes. -/
theorem succeeds_sumSplits {a b : Ref} (first : g.Accounts a) (second : g.Accounts b)
    {size left : Nat} (fits : left ≤ size - 1) :
    Succeeds g mode (Counts · (g.splits mode a [b] size (size - 1 - left)))
      (Check.sumSplits a b size left) := by
  induction left with
  | zero =>
    refine .pure ?_
    rw [Grammar.splits_stop _ _ (by simp only [List.length_singleton]; omega)]
    exact .empty
  | succ left ih =>
    have size_eq : size - (left + 1) = size - 1 - (left + 1) + 1 := by omega
    have next : size - 1 - left = size - 1 - (left + 1) + 1 := by omega
    refine (succeeds_count normal first _).bind fun x hx => ?_
    refine (succeeds_count normal second _).bind fun y hy => (ih (by omega)).bind fun rest hr => ?_
    rw [size_eq] at hx hy
    rw [next] at hr
    exact .pure (.splits_fits (by omega) hx hy.sequences_single hr)

end SamplerM

namespace Check

open SamplerM

variable {g : Grammar} {mode : Accounting}

/-- No check finds a fault in a name that is bound. -/
theorem succeeds_fault? (normal : g.Normal) {name : String} {t : Ty}
    (bound : g.get? name = some t) {n : Nat} (hn : n ≠ 0) (c : Check) :
    Succeeds g mode (· = none) (c.fault? mode name t n) := by
  have tag := normal.closed.names name t bound
  have own : g.Accounts (.name name) := ⟨name, rfl, Or.inr ⟨t, bound⟩⟩
  have items := normal.closed.items name t bound
  have le : mode.offset ≤ n := by
    cases mode with
    | nodes => exact Nat.one_le_iff_ne_zero.2 hn
    | leaves => exact Nat.zero_le n
  have grown := @succeeds_generate g mode normal name own n
  have counted := @succeeds_count g mode normal _ own n
  cases c with
  | unionSum =>
    cases t with
    | value => exact .pure rfl
    | product => exact .pure rfl
    | union members =>
      refine counted.bind fun whole hw => ?_
      refine (succeeds_sumCounts normal items n).bind fun parts hp => .pure ?_
      rw [if_pos (hw.unique (.derivations_union tag bound hp))]
  | convolution =>
    match t with
    | .value _ => exact .pure rfl
    | .union _ => exact .pure rfl
    | .product [] => exact .pure rfl
    | .product [_] => exact .pure rfl
    | .product (_ :: _ :: _ :: _) => exact .pure rfl
    | .product [a, b] =>
      have first := items a List.mem_cons_self
      have second := items b (List.mem_cons_of_mem _ List.mem_cons_self)
      refine succeeds_get.bind ?_
      rintro s rfl
      refine (succeeds_sumSplits normal first second le_rfl).bind fun expected he => ?_
      refine counted.bind fun whole hw => .pure ?_
      rw [Nat.sub_self] at he
      have inner : [a, b] ≠ [] := List.cons_ne_nil _ _
      rw [if_pos (hw.unique (.derivations_product tag bound inner le he.sequences_cons))]
  | absentIffZero =>
    refine grown.bind fun sample hs => counted.bind fun count hc => .pure ?_
    rw [if_pos]
    obtain ⟨rfl, none⟩ | ⟨d, hd, rfl⟩ := hs
    · obtain rfl := hc.eq_zero_iff.2 none
      rfl
    · have pos := hc.pos_of_mem hd
      have other : (count == 0) = false := beq_eq_false_iff_ne.2 (by omega)
      rw [other]
      cases d.tree <;> rfl
  | exactSize =>
    refine grown.bind fun sample hs => ?_
    obtain ⟨rfl, -⟩ | ⟨d, ⟨-, size⟩, rfl⟩ := hs
    · exact .pure rfl
    · rw [Tree.tree?_sample]
      exact .pure (if_pos size)
  | rebuild => exact .pure rfl

/-- On a grammar that normalisation returns every check holds. -/
theorem succeeds_run {ds : List Definition} {events : List Event}
    (built : Grammar.ofDefinitions? ds = (events, .ok g)) (c : Check) (last : Nat) :
    Succeeds g mode (· = ⟨true, none⟩) (c.run g mode last) := by
  have normal := Grammar.ofDefinitions?_normal built
  obtain ⟨named, flat, stages, rfl⟩ := Grammar.exists_stages built
  have each : ∀ c : Check, Succeeds (.ofBindings flat) mode (· = none)
      (firstFault (fun p => firstSize last (c.fault? mode p.1 p.2))
        (Grammar.ofBindings flat).types) := by
    intro c
    refine succeeds_firstFault fun p hp => succeeds_firstSize fun n hn => ?_
    obtain ⟨q, hq, rfl⟩ := List.mem_map.1 hp
    refine succeeds_fault? normal ?_ hn c
    rw [Bindings.get?_ofBindings, Bindings.lookup_eq_of_mem stages.flat_nodup hq]
    rfl
  have verdict : ∀ c : Check, Succeeds (.ofBindings flat) mode (· = ⟨true, none⟩) (do
      let found ← firstFault (fun p => firstSize last (c.fault? mode p.1 p.2))
        (Grammar.ofBindings flat).types
      pure (⟨found.isNone, found⟩ : Verdict)) := by
    refine fun c => (each c).bind ?_
    rintro _ rfl
    exact .pure rfl
  cases c with
  | unionSum => exact verdict unionSum
  | convolution => exact verdict convolution
  | absentIffZero => exact verdict absentIffZero
  | exactSize => exact verdict exactSize
  | rebuild =>
    obtain ⟨ds', made, rebuilt⟩ := stages.exists_rebuilt
    rw [run, made]
    simp only [rebuilt]
    exact .pure (by rw [beq_self_eq_true])

end Check

end TreeGrammar
