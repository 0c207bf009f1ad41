import TreeGrammar.Proofs.Counting.Aliases
import TreeGrammar.Proofs.Sampling.Sources
import TreeGrammar.Proofs.Sampling.Uniform
import TreeGrammar.Sampling.Sampler

/-!
# What calls of a sampler come to

A sampler is asked for counts, for sizes and for trees, one call after the other, and every call may
extend its table. Whatever it was asked before, its table is sound: its counts are those of the
plain recurrence, and where there is a count other than zero, a tree is grown by the law of growing.

* `Sampler.generation`, `Sampler.tracing`: what a call for a tree draws, and the same with the
  choices recorded.
* `Sampler.Step`, `Sampler.Reachable`: calls, and the samplers that arise from a fresh one by calls.
* `Sampler.Reachable.sound`: they are all sound, because every call keeps them so.
* `Sampler.Sound.count`, `Sampler.Sound.generation_*`: what a sound sampler answers.
-/

namespace TreeGrammar

namespace Sampler

/-! ### Calls -/

/-- What a call for a tree draws, and what comes of it, with the table afterwards. -/
def generation (s : Sampler) (name : String) (n : Int) : Draw (Except Failure Sample × Table) :=
  (s.recurrence.growRef .start (.name name) n.toNat).on s.table

/-- The same with the choices recorded. -/
def tracing (s : Sampler) (name : String) (n : Int) : Draw (Except Failure Trace × Table) :=
  (s.recurrence.traceRef .start (.name name) n.toNat).on s.table

/-- A call for a tree runs on the sampler's own source. -/
theorem generate_eq (s : Sampler) (name : String) (n : Int) :
    s.generate name n =
      let (out, source, totals) := (s.generation name n).run s.source
      ⟨out.1, totals, { s with table := out.2, source }⟩ := rfl

/-- Recording the choices has no influence on what is drawn. -/
theorem generation_eq (s : Sampler) (name : String) (n : Int) :
    s.generation name n = (fun out => (out.1.map Trace.sample, out.2)) <$> s.tracing name n := by
  rw [generation, (Recurrence.growRef_eq_and_growSequence_eq s.recurrence).1, Grow.on_map, tracing]

/-- A call. Trees may be grown from any source that answers requests with numbers below their
limits, and another source may be used for the next call. -/
inductive Step : Sampler → Sampler → Prop where
  | count (s : Sampler) (name : String) (n : Int) : Step s (s.count name n).2
  | countRef (s : Sampler) (r : Ref) (n : Int) : Step s (s.countRef r n).2
  | countType (s : Sampler) (t : Ty) (n : Int) : Step s (s.countType t n).2
  | sizes (s : Sampler) (name : String) (last : Int) : Step s (s.sizes name last).2
  | generate (s : Sampler) (name : String) (n : Int) {draws : List (Int × Int)}
      {out : Except Failure Sample × Table} (plays : (s.generation name n).Plays draws out)
      (source : Source) : Step s { s with table := out.2, source }

/-- The samplers over a grammar that arise from a fresh one by calls. -/
inductive Reachable (g : Grammar) (mode : Accounting) : Sampler → Prop where
  | fresh (source : Source) : Reachable g mode (ofGrammar g mode source)
  | next {s s' : Sampler} (before : Reachable g mode s) (step : Step s s') : Reachable g mode s'

/-- A sampler over a grammar with a sound table. -/
structure Sound (g : Grammar) (mode : Accounting) (s : Sampler) : Prop where
  rules : s.rules = g.rules
  mode_eq : s.mode = mode
  table : s.table.Sound g mode

variable {g : Grammar} {mode : Accounting} {s : Sampler}

/-- A fresh sampler is sound, for there is no entry in its table. -/
theorem sound_ofGrammar (source : Source) : (ofGrammar g mode source).Sound g mode :=
  ⟨rfl, rfl, Table.sound_empty⟩

namespace Sound

/-- A sound sampler counts by the recurrence of its grammar. -/
theorem recurrence_eq (sound : s.Sound g mode) : s.recurrence = g.tabled mode := by
  rw [recurrence, sound.rules, sound.mode_eq, Grammar.tabled]

/-! ### Counting -/

/-- A computation that has an answer over sound tables has it in a call. -/
theorem tally {α : Type} (sound : s.Sound g mode) {x : CountM α} {answer : Except Failure α}
    (answers : Answers g mode x answer) :
    (s.tally x).1 = answer ∧ (s.tally x).2.Sound g mode := by
  obtain ⟨table', hon, sound'⟩ := answers s.table sound.table
  have run : s.tally x = (answer, { s with table := table' }) := by
    rw [Sampler.tally, show x.run.run s.table = (answer, table') from hon]
  rw [run]
  exact ⟨rfl, sound.rules, sound.mode_eq, sound'⟩

/-- A sampler answers with the counts of the plain recurrence. -/
theorem count (sound : s.Sound g mode) (name : String) (n : Int) :
    (s.count name n).1 = (g.plain mode).countRef [] (.name name) n.toNat := by
  rw [Sampler.count, sound.recurrence_eq]
  exact (sound.tally (answers_countRef g mode _ _)).1

end Sound

/-- A list of sizes has an answer over sound tables, and fails only where a count does. -/
theorem exists_answers_sizesUpTo (g : Grammar) (mode : Accounting) (name : String)
    (last left : Nat) :
    ∃ answer, Answers g mode (sizesUpTo (g.tabled mode) name last left) answer ∧
      ∀ e, answer = .error e → ∃ n, (g.plain mode).countRef [] (.name name) n = .error e := by
  induction left with
  | zero =>
    refine ⟨.ok [], ?_, nofun⟩
    rw [sizesUpTo]
    exact Answers.pure []
  | succ left ih =>
    obtain ⟨answer, answers, failed⟩ := ih
    have first := answers_countRef g mode (.name name) (last - left)
    rw [sizesUpTo]
    rcases count : (g.plain mode).countRef [] (.name name) (last - left) with e | v
    · rw [count] at first
      refine ⟨.error e, first.bind_error, fun e' h => ?_⟩
      obtain rfl := Except.error.inj h
      exact ⟨_, count⟩
    · rw [count] at first
      rcases answer with e | sizes
      · exact ⟨.error e, first.bind answers.bind_error, failed⟩
      · exact ⟨_, first.bind (answers.bind (Answers.pure _)), nofun⟩

namespace Sound

/-- A list of sizes fails only where a count does. -/
theorem sizes_failed (sound : s.Sound g mode) {name : String} {last : Int} {e : Failure}
    (failed : (s.sizes name last).1 = .error e) :
    ∃ n, (g.plain mode).countRef [] (.name name) n = .error e := by
  obtain ⟨answer, answers, failed'⟩ :=
    exists_answers_sizesUpTo g mode name last.toNat last.toNat
  rw [Sampler.sizes, sound.recurrence_eq, (sound.tally answers).1] at failed
  exact failed' e failed

/-! ### Growing -/

/-- A name that is bound nowhere is a failure, whatever the size. -/
theorem generation_unbound (sound : s.Sound g mode) {name : String} (tag : ¬isTag name = true)
    (unbound : g.get? name = none) (n : Int) :
    s.generation name n = .done (.error (.undefinedName name none), s.table) := by
  rw [generation, sound.recurrence_eq,
    Recurrence.growRef_unbound _ tag (Grammar.lookup_rules_of_unbound unbound), Grow.on_throw]

/-- A name that is bound is counted before anything is drawn for it. -/
theorem counted (mode : Accounting) {name : String} (tag : ¬isTag name = true) {t : Ty}
    (bound : g.get? name = some t) (n : Nat) :
    Answers g mode ((g.tabled mode).countRule (.ofTy t) n)
      ((g.plain mode).countRef [] (.name name) n) := by
  rw [← plain_countRule_of_bound tag bound]
  exact answers_countRule g mode _ n

/-- Where the count fails, so does the call for a tree, and nothing is drawn. -/
theorem generation_of_error (sound : s.Sound g mode) {name : String} {n : Int} {e : Failure}
    (failed : (g.plain mode).countRef [] (.name name) n.toNat = .error e) :
    ∃ table, table.Sound g mode ∧ s.generation name n = .done (.error e, table) := by
  have hn : n.toNat ≠ 0 := by
    intro zero
    rw [zero, Recurrence.countRef_zero] at failed
    cases failed
  by_cases tag : isTag name = true
  · rw [Recurrence.countRef_tag _ tag hn] at failed
    cases failed
  · rcases bound : g.get? name with _ | t
    · rw [Recurrence.countRef_unbound _ tag (Grammar.lookup_rules_of_unbound bound) hn] at failed
      obtain rfl := Except.error.inj failed
      exact ⟨s.table, sound.table, sound.generation_unbound tag bound n⟩
    · have answers := counted mode tag bound n.toNat
      rw [failed] at answers
      rw [generation, sound.recurrence_eq,
        Recurrence.growRef_bound _ tag (Grammar.lookup_rules_of_bound bound)]
      exact on_growBound_of_error answers sound.table

/-- Where the count is zero there is no tree, and nothing is drawn. -/
theorem generation_of_zero (sound : s.Sound g mode) {name : String} {n : Int}
    (accounts : g.Accounts (.name name))
    (zero : (g.plain mode).countRef [] (.name name) n.toNat = .ok 0) :
    ∃ table, table.Sound g mode ∧ s.generation name n = .done (.ok .absent, table) := by
  obtain ⟨_, e, known⟩ := accounts
  cases e
  by_cases tag : isTag name = true
  · refine ⟨s.table, sound.table, ?_⟩
    have other : n.toNat ≠ 1 := by
      intro one'
      rw [one', Recurrence.countRef_tag _ tag one_ne_zero] at zero
      cases zero
    rw [generation, sound.recurrence_eq, Recurrence.growRef_tag _ tag, if_neg other, Grow.on_pure]
  · obtain tag' | ⟨t, bound⟩ := known
    · exact absurd tag' tag
    · have answers := counted mode tag bound n.toNat
      rw [zero] at answers
      rw [generation, sound.recurrence_eq,
        Recurrence.growRef_bound _ tag (Grammar.lookup_rules_of_bound bound)]
      exact on_growBound_of_zero answers sound.table

/-- Where there is a count other than zero, all derivations of the size are followed alike. -/
theorem law (sound : s.Sound g mode) {name : String} {n : Int} {v : Int}
    (count : (g.plain mode).countRef [] (.name name) n.toNat = .ok v) (hv : v ≠ 0) :
    Law g mode (s.recurrence.traceRef .start (.name name) n.toNat)
      (Derivation.trace '' g.derivations mode (.name name) n.toNat) fun _ => 1 / (v : ℚ) := by
  rw [sound.recurrence_eq]
  exact evenRef_and_evenSequence.1 .start (.name name) n.toNat
    (fun key h => absurd h List.not_mem_nil) v count hv

/-- Where there is a count other than zero, whatever is drawn, there is a tree. -/
theorem always_generation (sound : s.Sound g mode) {name : String} {n : Int} {v : Int}
    (count : (g.plain mode).countRef [] (.name name) n.toNat = .ok v) (hv : v ≠ 0) :
    (s.generation name n).Always fun out =>
      (∃ d ∈ g.derivations mode (.name name) n.toNat, out.1 = .ok d.tree.sample) ∧
        out.2.Sound g mode := by
  rw [generation_eq, ← bind_pure_comp]
  refine ((sound.law count hv).always s.table sound.table).bind ?_
  rintro ⟨_, table⟩ ⟨_, ⟨d, hd, rfl⟩, rfl, sound'⟩
  refine ⟨⟨d, hd, ?_⟩, sound'⟩
  rw [← Derivation.sample_trace]
  rfl

/-- A reference that is accounted for has a count, or its count fails; what is not accounted for is
bound nowhere. -/
theorem unbound_of_not_accounts {name : String} (unknown : ¬g.Accounts (.name name)) :
    ¬isTag name = true ∧ g.get? name = none := by
  refine ⟨fun tag => unknown ⟨name, rfl, Or.inl tag⟩, ?_⟩
  rcases bound : g.get? name with _ | t
  · rfl
  · exact absurd ⟨name, rfl, Or.inr ⟨t, bound⟩⟩ unknown

/-- However a call for a tree ends, the table stays sound; and the call fails only where the name is
bound nowhere or the count fails. -/
theorem always_sound (sound : s.Sound g mode) (name : String) (n : Int) :
    (s.generation name n).Always fun out => out.2.Sound g mode ∧ ∀ e, out.1 = .error e →
      ¬g.Accounts (.name name) ∧ e = .undefinedName name none ∨
        (g.plain mode).countRef [] (.name name) n.toNat = .error e := by
  by_cases accounts : g.Accounts (.name name)
  · rcases count : (g.plain mode).countRef [] (.name name) n.toNat with e | v
    · obtain ⟨table, sound', done⟩ := sound.generation_of_error count
      rw [done]
      refine ⟨sound', fun e' h => Or.inr ?_⟩
      obtain rfl := Except.error.inj h
      rfl
    · by_cases hv : v = 0
      · rw [hv] at count
        obtain ⟨table, sound', done⟩ := sound.generation_of_zero accounts count
        rw [done]
        exact ⟨sound', nofun⟩
      · refine (sound.always_generation count hv).mono ?_
        rintro ⟨_, table⟩ ⟨⟨d, -, rfl⟩, sound'⟩
        exact ⟨sound', nofun⟩
  · obtain ⟨tag, unbound⟩ := unbound_of_not_accounts accounts
    rw [sound.generation_unbound tag unbound n]
    refine ⟨sound.table, fun e h => Or.inl ⟨accounts, ?_⟩⟩
    exact (Except.error.inj h).symm

/-- A call that runs on a source that keeps to the limits follows a sequence of draws. -/
theorem exists_plays_generate (sound : s.Sound g mode) (fair : s.source.Fair) (name : String)
    (n : Int) :
    ∃ draws, (s.generation name n).Plays draws
      ((s.generate name n).result, (s.generate name n).sampler.table) :=
  Draw.exists_plays_run (sound.always_sound name n) fair

end Sound

/-! ### Whatever was asked before -/

/-- A call keeps a sampler sound. -/
theorem Step.sound {s' : Sampler} (step : Step s s') (sound : s.Sound g mode) :
    s'.Sound g mode := by
  have keeps : ∀ {x : CountM Int} {answer : Except Failure Int}, Answers g mode x answer →
      (s.tally x).2.Sound g mode := fun answers => (sound.tally answers).2
  cases step with
  | count name n =>
    rw [Sampler.count, sound.recurrence_eq]
    exact keeps (answers_countRef g mode _ _)
  | countRef r n =>
    rw [Sampler.countRef, sound.recurrence_eq]
    exact keeps (answers_countRef g mode _ _)
  | countType t n =>
    rw [Sampler.countType, sound.recurrence_eq]
    exact keeps (answers_countRule g mode _ _)
  | sizes name last =>
    obtain ⟨answer, answers, -⟩ := exists_answers_sizesUpTo g mode name last.toNat last.toNat
    rw [Sampler.sizes, sound.recurrence_eq]
    exact (sound.tally answers).2
  | generate name n plays source =>
    exact ⟨sound.rules, sound.mode_eq, ((sound.always_sound name n).of_plays plays).1⟩

/-- Every sampler that arises from a fresh one by calls is sound. -/
theorem Reachable.sound (reachable : Reachable g mode s) : s.Sound g mode := by
  induction reachable with
  | fresh source => exact sound_ofGrammar source
  | next _ step ih => exact step.sound ih

/-- A call for a tree that runs on the sampler's own source is one of the calls, if the source keeps
to the limits. -/
theorem Reachable.generate (reachable : Reachable g mode s) (fair : s.source.Fair) (name : String)
    (n : Int) : Reachable g mode (s.generate name n).sampler := by
  obtain ⟨draws, plays⟩ := reachable.sound.exists_plays_generate fair name n
  exact reachable.next (.generate s name n plays (s.generate name n).sampler.source)

end Sampler

end TreeGrammar
