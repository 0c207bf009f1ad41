import TreeGrammar.Settings
import TreeGrammar.ScriptLanguage
import TreeGrammar.Trials.Report
import TreeGrammar.Text.Numeral
import TreeGrammar.Tree.Outline

/-!
# The command line

The program shows the script language, counts its trees, or draws one of them. What it does is a
function of its arguments and of a source of randomness for the case that no seed is given.

* `CommandLine.Outcome`: the lines printed, how the program ends, and what it writes to the log.
* `CommandLine.run`: the program.
* `CommandLine.demo`, `CommandLine.count`, `CommandLine.sample`, `CommandLine.fuzz`: the commands.
-/

namespace TreeGrammar.CommandLine

/-- How the program ends: with an exit code, or with a failure that no grammar accounts for. -/
inductive Ending where
  | exit (code : Nat)
  | failed (e : Failure)

/-- The lines printed, how the program ends, and the entries of the log. -/
structure Outcome where
  lines : List String
  ending : Ending
  log : List String

namespace Outcome

/-- The text printed. -/
def text (o : Outcome) : String :=
  String.join (o.lines.map (· ++ "\n"))

/-- Prints some lines and ends well. -/
def print (lines : List String) : Outcome :=
  ⟨lines, .exit 0, []⟩

/-- Ends with a failure after some lines. A failure that a grammar accounts for is reported. -/
def fail (lines : List String) (e : Failure) : Outcome :=
  if e.ofGrammar then ⟨lines ++ ["[error] " ++ e.message], .exit 1, []⟩
  else ⟨lines, .failed e, []⟩

end Outcome

/-- The head of every longer text. -/
def header : List String :=
  [ "╔═══════════════════════════════════════════════════════════╗",
    "║  Arbor — exact-size tree generation v0.1                  ║",
    "║  Copyright (c) 2026 Alex P. Slaby — MIT License           ║",
    "╚═══════════════════════════════════════════════════════════╝" ]

/-- How the program is used. -/
def help : Outcome :=
  .print (header ++
    [ "",
      "  Usage:",
      "    python arbor_gen.py demo                      Show counts and a sample",
      "    python arbor_gen.py count <name> <n>          Count trees of size n",
      "    python arbor_gen.py sample <name> <n> [seed]  Sample a tree of size n",
      "    python arbor_gen.py help                      Show this help",
      "",
      "  Add --debug for verbose logging, --leaves to count only leaves.",
      "" ])

/-- A text filled up with blanks to a width. -/
def padRight (width : Nat) (s : String) : String :=
  s ++ String.ofList (List.replicate (width - s.length) ' ')

/-- The script language, the log of making its grammar, and its sampler. -/
def prepare (settings : Settings) (entropy : Source) :
    List String × Except Failure (Grammar × Sampler) :=
  match ScriptLanguage.definitions? with
  | .error e => ([], .error e)
  | .ok ds =>
    let (events, result) := Grammar.ofDefinitions? ds
    (events.map Event.message, result.map fun g => (g, settings.sampler g entropy))

/-- The lines with the numbers of trees of the sizes after `n`, at most `left` many, and the sampler
after counting them. -/
def countLines (name : String) : (left n : Nat) → Sampler → Except Failure (List String × Sampler)
  | 0, _, s => .ok ([], s)
  | left + 1, n, s =>
    match s.count name (n + 1 : Nat) with
    | (.error e, _) => .error e
    | (.ok count, s) =>
      match countLines name left (n + 1) s with
      | .error e => .error e
      | .ok (lines, s) =>
        .ok (("    n=" ++ padRight 3 (toString (n + 1)) ++ " " ++ toString count) :: lines, s)

/-- Shows the script language, its counts and one of its trees. -/
def demo (settings : Settings) (entropy : Source) : Outcome :=
  let opening := header ++ [""]
  match prepare settings entropy with
  | (log, .error e) => { Outcome.fail opening e with log }
  | (log, .ok (g, s)) =>
    let described := opening ++ ["  Environment: " ++ toString g.size ++ " types"] ++
      (g.canonical.splitOn "\n").map ("    " ++ ·) ++ ["", "  Counts for t_Script:"]
    match countLines "t_Script" 15 0 s with
    | .error e => { Outcome.fail described e with log }
    | .ok (counts, s) =>
      let counted := described ++ counts ++ [""]
      let grown := s.generate "t_Script" 20
      let log := log ++ (grown.message? s "t_Script" 20).toList
      match grown.result with
      | .error e => { Outcome.fail counted e with log }
      | .ok sample =>
        let lines := counted ++ ["  Sample t_Script of size 20:"]
        match sample.tree? with
        | none => ⟨lines ++ ["    (no tree of this size)"], .exit 0, log⟩
        | some tree =>
          ⟨lines ++ (tree.outline.splitOn "\n").map ("    " ++ ·) ++
            ["", "  Size check: " ++ toString (tree.size settings.mode), ""], .exit 0, log⟩

/-- Counts the trees of a name. -/
def count (settings : Settings) (entropy : Source) (name : String) (n : Int) : Outcome :=
  match prepare settings entropy with
  | (log, .error e) => { Outcome.fail [] e with log }
  | (log, .ok (_, s)) =>
    match (s.count name n).1 with
    | .error e => { Outcome.fail [] e with log }
    | .ok count => ⟨[toString count], .exit 0, log⟩

/-- Draws a tree of a name, and shows its outline and its data. -/
def sample (settings : Settings) (entropy : Source) (name : String) (n : Int) : Outcome :=
  match prepare settings entropy with
  | (log, .error e) => { Outcome.fail [] e with log }
  | (log, .ok (g, s)) =>
    let grown := s.generate name n
    let log := log ++ (grown.message? s name n).toList
    match grown.result with
    | .error e => { Outcome.fail [] e with log }
    | .ok sample =>
      match sample.tree? with
      | none =>
        ⟨["No tree of size " ++ toString n ++ " for '" ++ name ++ "'"], .exit 1, log⟩
      | some tree =>
        match tree.toDatum g ScriptLanguage.fields with
        | .error e => { Outcome.fail [tree.outline] e with log }
        | .ok d => ⟨[tree.outline, d.pretty 0], .exit 0, log⟩

/-- Runs the checks on random grammars and prints the report. -/
def fuzz (rounds seed : Int) (started completed : String) : Outcome :=
  match Trials.report rounds seed 8 with
  | .error e => .fail [] e
  | .ok r =>
    ⟨[(r.toDatum started completed).pretty 0], .exit (if r.tally.failed = 0 then 0 else 1), []⟩

/-- The number that an argument stands for. -/
def number (arg : String) : Except Failure Int :=
  match Text.Numeral.read arg with
  | .ok i => .ok i
  | .error .malformed => .error (.badValue (.notANumeral (Text.literal arg)))
  | .error (.tooLong digits) => .error (.badValue (.tooManyDigits Text.Numeral.limit digits))

/-- Does what the first argument says. Upper case is as good as lower case. -/
def dispatch (settings : Settings) (entropy : Source) (args : List String) : Outcome :=
  match args with
  | [] => help
  | command :: rest =>
    match command.toLower, rest with
    | "demo", _ => demo settings entropy
    | "count", name :: n :: _ =>
      match number n with
      | .error e => .fail [] e
      | .ok n => count settings entropy name n
    | "sample", name :: n :: more =>
      match more.head?.mapM number with
      | .error e => .fail [] e
      | .ok seed =>
        match number n with
        | .error e => .fail [] e
        | .ok n => sample { settings with seed } entropy name n
    | _, _ => help

/-- Runs the program on its arguments. The first `--leaves` and the first `--debug` among them are
taken for switches wherever they stand; the log is kept only with the latter. -/
def run (entropy : Source) (args : List String) : Outcome :=
  let debug := args.contains "--debug"
  let args := args.erase "--debug"
  let settings := if args.contains "--leaves" then Settings.leavesOnly else Settings.standard
  let outcome := dispatch settings entropy (args.erase "--leaves")
  if debug then outcome else { outcome with log := [] }

end TreeGrammar.CommandLine
