import Mathlib
import TreeGrammar.Proofs.Trials.Accepted
import TreeGrammar.Proofs.Trials.Checks
import TreeGrammar.Trials.Report

/-!
# Reports without a failure

Trials on random grammars find nothing wrong, whatever is drawn: no grammar is skipped, every check
holds twice in every round, and no counterexample is listed.

* `Trials.Tally.flawless`: every property held so many times, and nothing else was noted.
* `Trials.succeeds_rounds`: what several rounds come to.
* `Trials.report_flawless`: the report for every seed, and the checks on every random grammar.
-/

namespace TreeGrammar.Trials

open Draw (Succeeds)

/-- Every property held `k` times, and nothing else was noted. -/
def Tally.flawless (k : Nat) : Tally :=
  ⟨Check.all.map (·, k, 0), [], 0⟩

variable {g : Grammar} {mode : Accounting} {ds : List Definition} {events : List Event}

/-- If checks hold that is all that is noted. -/
theorem succeeds_runChecks (built : Grammar.ofDefinitions? ds = (events, .ok g))
    (round last : Nat) (checks : List Check) (t : Tally) :
    SamplerM.Succeeds g mode
      (· = checks.foldl (fun t c => t.note round g mode c ⟨true, none⟩) t)
      (runChecks round g mode last checks t) := by
  induction checks generalizing t with
  | nil => exact .pure rfl
  | cons c rest ih =>
    refine (Check.succeeds_run built c last).bind ?_
    rintro _ rfl
    exact ih _

/-- All checks once more. -/
theorem Tally.note_flawless (round : Nat) (g : Grammar) (mode : Accounting) (k : Nat) :
    Check.all.foldl (fun t c => t.note round g mode c ⟨true, none⟩) (flawless k) =
      flawless (k + 1) := by
  simp [flawless, Check.all, note, Check.name]

/-- In one mode every check holds once more, whatever the sampler draws. -/
theorem succeeds_tryMode (built : Grammar.ofDefinitions? ds = (events, .ok g))
    (round last k : Nat) (mode : Accounting) :
    Succeeds (· = Tally.flawless (k + 1)) (tryMode round g last mode (.flawless k)) := by
  refine Draw.succeeds_word.bind fun seed _ => ?_
  obtain ⟨t, s', run, rfl, -⟩ := @succeeds_runChecks g mode ds events built round last Check.all
    (.flawless k) _ (.fresh (.ofSeed seed)) trivial
  simp only [run]
  exact .pure (Tally.note_flawless round g mode k)

/-- In one round a grammar is drawn and accepted, and every check holds twice more, once for each
mode. -/
theorem succeeds_tryGrammar (round last k : Nat) :
    Succeeds (· = Tally.flawless (k + 2)) (tryGrammar round last (.flawless k)) := by
  refine (Draw.succeeds_index (by decide : 0 < 5)).bind fun more _ => ?_
  refine (RandomGrammar.succeeds_definitions (1 + more)).bind fun ds tame => ?_
  obtain ⟨g, built⟩ := tame.accepted
  rw [built]
  refine (succeeds_tryMode (Prod.ext rfl built) round last k .nodes).bind ?_
  rintro _ rfl
  exact succeeds_tryMode (Prod.ext rfl built) round last (k + 1) .leaves

/-- Every round adds two to how often each property held. -/
theorem succeeds_rounds (last left round k : Nat) :
    Succeeds (· = Tally.flawless (k + 2 * left)) (rounds last left round (.flawless k)) := by
  induction left generalizing round k with
  | zero => exact .pure rfl
  | succ left ih =>
    refine (succeeds_tryGrammar round last k).bind ?_
    rintro _ rfl
    rw [show k + 2 * (left + 1) = k + 2 + 2 * left by omega]
    exact ih (round + 1) (k + 2)

/-- A report without a failure says how often each property held, and in the summary how often all
of them did. -/
theorem Report.data_flawless (seed : Int) (count : Nat) :
    let r : Report := ⟨seed, count, .flawless (2 * count)⟩
    r.properties = .record (Check.all.map fun c =>
        (c.name, .record [("passed", .int (2 * count)), ("failed", .int 0)])) ∧
      r.counterexamples = .list [] ∧
      r.summary = .record [("total_checks", .int (10 * count)), ("passed", .int (10 * count)),
        ("failed", .int 0), ("grammars_skipped", .int 0)] := by
  have passed : (Tally.flawless (2 * count)).passed = 10 * count := by
    simp [Tally.flawless, Tally.passed, Check.all]
    omega
  have failed : (Tally.flawless (2 * count)).failed = 0 := rfl
  refine ⟨rfl, rfl, ?_⟩
  simp only [Report.summary, passed, failed]
  rfl

/-- Trials find nothing wrong. Whatever is drawn, no grammar is skipped and every check holds, twice
in every round; so it is in the report for every seed, number of rounds and size. And whatever is
drawn, a random grammar is accepted, and on it every check holds up to every size, in both ways to
count size and with every sampler, whatever that was asked before. -/
theorem report_flawless :
    (∀ last left, Succeeds (· = Tally.flawless (2 * left)) (rounds last left 0 .start)) ∧
    (∀ (seed : Int) (count : Nat) (last : Int), ∃ r, report count seed last = .ok r ∧
      r.seed = seed ∧ r.rounds = count ∧
      r.properties = .record (Check.all.map fun c =>
        (c.name, .record [("passed", .int (2 * count)), ("failed", .int 0)])) ∧
      r.counterexamples = .list [] ∧
      r.summary = .record [("total_checks", .int (10 * count)), ("passed", .int (10 * count)),
        ("failed", .int 0), ("grammars_skipped", .int 0)]) ∧
    ∀ n, Succeeds (fun ds => ∃ g, (Grammar.ofDefinitions? ds).2 = .ok g ∧
      ∀ mode (s : Sampler), s.Reachable g mode → s.source.Fair → ∀ (c : Check) last,
        ∃ s' : Sampler, (c.run g mode last).run.run s = (.ok ⟨true, none⟩, s') ∧
          s'.Reachable g mode ∧ s'.source.Fair) (RandomGrammar.definitions n) := by
  have all : ∀ last left, Succeeds (· = Tally.flawless (2 * left)) (rounds last left 0 .start) := by
    intro last left
    have rounds := succeeds_rounds last left 0 0
    rwa [Nat.zero_add] at rounds
  refine ⟨all, fun seed count last => ?_, fun n => ?_⟩
  · obtain ⟨⟨tally, result, rfl⟩, -⟩ :=
      (all last.toNat count).run (s := .ofSeed seed) trivial
    refine ⟨⟨seed, count, .flawless (2 * count)⟩, ?_, rfl, rfl, Report.data_flawless seed count⟩
    rw [report, Int.toNat_natCast, result]
    rfl
  · refine (RandomGrammar.succeeds_definitions n).mono fun ds tame => ?_
    obtain ⟨g, built⟩ := tame.accepted
    refine ⟨g, built, fun mode s reachable fair c last => ?_⟩
    obtain ⟨_, s', run, rfl, kept⟩ :=
      Check.succeeds_run (Prod.ext rfl built) c last s reachable fair
    exact ⟨s', run, kept⟩

/-- Three rounds report no counterexample. There is a random grammar of four definitions over which
the check of exact sizes holds up to size six. -/
theorem report_flawless_three : ∃ r, report 3 7 8 = .ok r ∧ r.counterexamples = .list [] ∧
    ∃ g s', (Check.exactSize.run g .leaves 6).run.run (.ofGrammar g .leaves (.ofSeed 1)) =
      (.ok ⟨true, none⟩, s') := by
  obtain ⟨-, reported, checked⟩ := report_flawless
  obtain ⟨r, made, -, -, -, none, -⟩ := reported 7 3 8
  obtain ⟨-, -, -, ds, -, g, -, holds⟩ := (checked 4).exists_plays
  obtain ⟨s', run, -⟩ := holds .leaves _ (.fresh (.ofSeed 1)) trivial .exactSize 6
  exact ⟨r, made, none, g, s', run⟩

end TreeGrammar.Trials
