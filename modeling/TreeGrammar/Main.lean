import TreeGrammar.CommandLine

/-!
# The program

Runs the command line, with a seed from the system in place of one that is not given. The log goes
to the standard error stream.
-/

/-- The program. -/
def main (args : List String) : IO UInt32 := do
  let bytes ← IO.getRandomBytes 8
  let seed := bytes.foldl (fun acc b => 256 * acc + b.toNat) 0
  let outcome := TreeGrammar.CommandLine.run (.ofSeed seed) args
  for line in outcome.log do
    IO.eprintln line
  IO.print outcome.text
  match outcome.ending with
  | .exit code => return UInt32.ofNat code
  | .failed e =>
    IO.eprintln e.message
    return 1
