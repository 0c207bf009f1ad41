import TreeGrammar.Datum
import TreeGrammar.Trials.Check
import TreeGrammar.Trials.RandomGrammar

/-!
# Reports on random grammars

The checks are run on random grammars, once with inner nodes counted and once without. A grammar
that cannot be built is skipped. The report counts how often each property held, and lists the first
fifty cases in which one did not.

* `Trials.Tally`: what has been found so far.
* `Trials.rounds`: several rounds, as a computation that draws.
* `Trials.Report`, `Trials.report`: the report for a seed.
* `Trials.Report.toDatum`: the report as plain data.
-/

namespace TreeGrammar.Trials

open RandomGrammar (Drawing)

/-- A case in which a property did not hold. -/
structure Counterexample where
  round : Nat
  check : Check
  mode : Accounting
  place : Option String
  grammar : List String

/-- What has been found so far: for each property how often it held and how often not, the cases in
which one did not, latest first, and the number of grammars skipped. -/
structure Tally where
  properties : List (Check × Nat × Nat)
  counterexamples : List Counterexample
  skipped : Nat

namespace Tally

/-- The tally before the first round: nothing has been checked. -/
def start : Tally :=
  ⟨Check.all.map (·, 0, 0), [], 0⟩

/-- Notes the verdict of a check on a grammar. -/
def note (t : Tally) (round : Nat) (g : Grammar) (mode : Accounting) (c : Check)
    (v : Verdict) : Tally :=
  let properties := t.properties.map fun (d, passed, failed) =>
    if d.name = c.name then
      if v.holds then (d, passed + 1, failed) else (d, passed, failed + 1)
    else (d, passed, failed)
  if v.holds then { t with properties }
  else
    let lines := g.types.map fun (name, type) => Text.quote name ++ " := " ++ type.canonical
    { t with
      properties
      counterexamples := ⟨round, c, mode, v.place, lines⟩ :: t.counterexamples }

/-- How often a property held. -/
def passed (t : Tally) : Nat :=
  t.properties.foldl (fun n (_, passed, _) => n + passed) 0

/-- How often a property did not hold. -/
def failed (t : Tally) : Nat :=
  t.properties.foldl (fun n (_, _, failed) => n + failed) 0

end Tally

/-- Runs checks with one sampler, and notes the verdicts. -/
def runChecks (round : Nat) (g : Grammar) (mode : Accounting) (last : Nat) :
    List Check → Tally → SamplerM Tally
  | [], t => pure t
  | c :: rest, t => do
    let v ← c.run g mode last
    runChecks round g mode last rest (t.note round g mode c v)

/-- Runs all checks on a grammar, with what counts as size as given. The sampler has a seed of
its own. -/
def tryMode (round : Nat) (g : Grammar) (last : Nat) (mode : Accounting) (t : Tally) :
    Drawing Tally := do
  let seed ← Draw.word
  let sampler := Sampler.ofGrammar g mode (.ofSeed seed)
  match ((runChecks round g mode last Check.all t).run.run sampler).1 with
  | .error e => throw e
  | .ok t => pure t

/-- One round: a grammar of one to five definitions, built and checked. -/
def tryGrammar (round last : Nat) (t : Tally) : Drawing Tally := do
  let more ← RandomGrammar.index 5
  let ds ← RandomGrammar.definitions (1 + more)
  match (Grammar.ofDefinitions? ds).2 with
  | .error _ => pure { t with skipped := t.skipped + 1 }
  | .ok g => do
    let t ← tryMode round g last .nodes t
    tryMode round g last .leaves t

/-- Several rounds, numbered from `round` on. -/
def rounds (last : Nat) : (left : Nat) → (round : Nat) → Tally → Drawing Tally
  | 0, _, t => pure t
  | left + 1, round, t => do
    let t ← tryGrammar round last t
    rounds last left (round + 1) t

/-- A report for a seed and a number of rounds. -/
structure Report where
  seed : Int
  rounds : Int
  tally : Tally

/-- The report for a seed. Sizes up to `last` are checked. -/
def report (count seed last : Int) : Except Failure Report :=
  let result := ((Trials.rounds last.toNat count.toNat 0 Tally.start).run.run (.ofSeed seed)).1
  result.map fun tally => ⟨seed, count, tally⟩

namespace Counterexample

/-- A counterexample as plain data. -/
def toDatum (c : Counterexample) : Datum :=
  .record [("round", .int c.round), ("property", .text c.check.name),
    ("count_internal_nodes", .bool (c.mode == .nodes)),
    ("error", match c.place with | some place => .text place | none => .null),
    ("grammar", .list (c.grammar.map .text))]

end Counterexample

namespace Report

/-- For each property how often it held and how often not. -/
def properties (r : Report) : Datum :=
  .record (r.tally.properties.map fun (c, passed, failed) =>
    (c.name, .record [("passed", .int passed), ("failed", .int failed)]))

/-- The first fifty cases in which a property did not hold. -/
def counterexamples (r : Report) : Datum :=
  .list ((r.tally.counterexamples.reverse.take 50).map (·.toDatum))

/-- The totals. -/
def summary (r : Report) : Datum :=
  .record [("total_checks", .int (r.tally.passed + r.tally.failed)),
    ("passed", .int r.tally.passed), ("failed", .int r.tally.failed),
    ("grammars_skipped", .int r.tally.skipped)]

/-- The report as plain data, with the times at which it was begun and finished. -/
def toDatum (r : Report) (started completed : String) : Datum :=
  .record [("seed", .int r.seed), ("rounds", .int r.rounds), ("started_at", .text started),
    ("properties", r.properties), ("counterexamples", r.counterexamples),
    ("summary", r.summary), ("completed_at", .text completed)]

end Report

end TreeGrammar.Trials
