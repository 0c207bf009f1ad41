import TreeGrammar.Datum
import TreeGrammar.Sampling.Sampler

/-!
# Settings

* `Settings`: what counts as size, the seed, and how deep nested calls may go.
* `Settings.sampler`: the sampler that the settings describe. Without a seed its source is the one
  given.
* `Settings.toDatum`: the settings as plain data.
-/

namespace TreeGrammar

/-- The settings of a sampler. -/
structure Settings where
  countInternalNodes : Bool := true
  seed : Option Int := none
  recursionLimit : Int := 50000

namespace Settings

/-- The usual settings: inner nodes count, and there is no seed. -/
def standard : Settings := {}

/-- Only leaves count. -/
def leavesOnly : Settings := { countInternalNodes := false }

/-- The settings with a seed. -/
def seeded (seed : Option Int) (countInternalNodes : Bool) : Settings :=
  { countInternalNodes, seed }

/-- What counts as size. -/
def mode (c : Settings) : Accounting :=
  if c.countInternalNodes then .nodes else .leaves

/-- The source of randomness for a seed, or the one given. -/
def source (c : Settings) (otherwise : Source) : Source :=
  match c.seed with
  | some seed => .ofSeed seed
  | none => otherwise

/-- The sampler that the settings describe. -/
def sampler (c : Settings) (g : Grammar) (otherwise : Source) : Sampler :=
  .ofGrammar g c.mode (c.source otherwise)

/-- The settings as plain data. -/
def toDatum (c : Settings) : Datum :=
  .record [("count_internal_nodes", .bool c.countInternalNodes),
    ("seed", match c.seed with | some seed => .int seed | none => .null),
    ("recursion_limit", .int c.recursionLimit)]

end Settings

end TreeGrammar
