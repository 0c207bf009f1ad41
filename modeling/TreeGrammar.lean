import TreeGrammar.Digest.Sha256
import TreeGrammar.Main
import TreeGrammar.Proofs.Canonical.Delimited
import TreeGrammar.Proofs.Counting.Plain
import TreeGrammar.Proofs.Counting.Memory
import TreeGrammar.Proofs.Counting.Derivation
import TreeGrammar.Proofs.Counting.Exact
import TreeGrammar.Proofs.Counting.Aliases
import TreeGrammar.Proofs.Bindings.SelfAlias
import TreeGrammar.Proofs.Bindings.Normal
import TreeGrammar.Proofs.Sampling.Draws
import TreeGrammar.Proofs.Sampling.Choice
import TreeGrammar.Proofs.Sampling.Stretches
import TreeGrammar.Proofs.Sampling.Tracing
import TreeGrammar.Proofs.Sampling.Induction
import TreeGrammar.Proofs.Sampling.Law
import TreeGrammar.Proofs.Sampling.Uniform
import TreeGrammar.Proofs.Samplers.Calls
import TreeGrammar.Proofs.Samplers.Counting
import TreeGrammar.Proofs.Samplers.Growing
import TreeGrammar.Proofs.Sampling.Sources
import TreeGrammar.Proofs.Canonical.Marks
import TreeGrammar.Proofs.Bindings.Naming
import TreeGrammar.Proofs.Bindings.Yields
import TreeGrammar.Proofs.Bindings.Opening
import TreeGrammar.Proofs.Bindings.Loops
import TreeGrammar.Proofs.Bindings.Stages
import TreeGrammar.Proofs.Reading.Written
import TreeGrammar.Proofs.Reading.Realisation
import TreeGrammar.Proofs.Reading.Meaning
import TreeGrammar.Proofs.Reading.Faithful
import TreeGrammar.Proofs.Reading.Dangling
import TreeGrammar.Proofs.Sampling.Alike
import TreeGrammar.Proofs.Samplers.Distinct
import TreeGrammar.Proofs.Samplers.Marks
import TreeGrammar.Proofs.Samplers.Depth
import TreeGrammar.Proofs.Samplers.Memory
import TreeGrammar.Proofs.Reading.Respelling
import TreeGrammar.Proofs.Bindings.Outcome
import TreeGrammar.Proofs.Bindings.WellFormed
import TreeGrammar.Proofs.Bindings.Rebuilding
import TreeGrammar.Proofs.Bindings.Frontier
import TreeGrammar.Proofs.Bindings.Renaming
import TreeGrammar.Proofs.Counting.Renaming
import TreeGrammar.Proofs.Samplers.Renaming
import TreeGrammar.Proofs.Bindings.Spelling
import TreeGrammar.Proofs.Reading.Rewriting
import TreeGrammar.Proofs.Samplers.Spelling
import TreeGrammar.Proofs.Bindings.Queue
import TreeGrammar.Proofs.Bindings.Unions
import TreeGrammar.Proofs.Reading.Tidy
import TreeGrammar.Proofs.Reading.Restoring
import TreeGrammar.Proofs.Samplers.Extending
import TreeGrammar.Proofs.Trials.Drawing
import TreeGrammar.Proofs.Trials.Accepted
import TreeGrammar.Proofs.Trials.Checks
import TreeGrammar.Proofs.Trials.Flawless
import TreeGrammar.Proofs.Reading.Sameness
import TreeGrammar.Proofs.Trees.Chains
import TreeGrammar.Proofs.Reading.Places
import TreeGrammar.Proofs.Trees.Conversion
import TreeGrammar.Proofs.Trees.Totality
import TreeGrammar.Proofs.Sampling.Consulting
import TreeGrammar.Proofs.Samplers.Consulting
import TreeGrammar.Proofs.Samplers.Arity
import TreeGrammar.Proofs.Trees.Outlines
import TreeGrammar.Proofs.Trees.Fields
import TreeGrammar.Proofs.Bindings.Supplies
