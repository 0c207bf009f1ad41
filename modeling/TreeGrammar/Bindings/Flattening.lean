import TreeGrammar.Bindings

/-!
# Flattening unions

A union among the members of a union is replaced by its members, until no member of a union is a
union. A pass goes through the bindings in order and already sees the members of the unions it has
dealt with. Repetitions are dropped, and a union that has come to be its own member has no finite
base.

* `Bindings.expand`: the members of a union with its sub-unions opened once.
* `Bindings.pass`: one pass, and whether it opened anything.
* `Bindings.flatten`: passes until one opens nothing, and their number. The longest chain of unions
  in unions, or the shortest cycle, becomes shorter with every pass, so there are at most two passes
  more than bindings.
-/

namespace TreeGrammar.Bindings

/-- The members of a union with its sub-unions opened once, without repetitions. -/
def expand (b : Bindings) (items : List String) : List String :=
  (items.flatMap fun item => (b.members? item).getD [item]).eraseDups

/-- One pass through the bindings `todo`, of which `done` have been dealt with. -/
def pass (done : Bindings) : (todo : Bindings) → Except Failure (Bindings × Bool)
  | [] => .ok (done, false)
  | (name, .union items) :: rest =>
    if name ∈ items then .error (.noFiniteBase name .expanding)
    else
      let current := done ++ (name, .union items) :: rest
      let expanded := current.expand items
      if expanded.isEmpty then .error (.emptyExpansion name)
      else
        match pass (done ++ [(name, .union expanded)]) rest with
        | .error e => .error e
        | .ok (b, opened) => .ok (b, opened || items.any fun item => (current.members? item).isSome)
  | (name, body) :: rest => pass (done ++ [(name, body)]) rest

/-- At most `fuel` more passes, after `passes` many. -/
def passes (b : Bindings) (passes : Nat) : (fuel : Nat) → Except Failure (Bindings × Nat)
  | 0 => .ok (b, passes)
  | fuel + 1 =>
    match pass [] b with
    | .error e => .error e
    | .ok (b', opened) =>
      if opened then Bindings.passes b' (passes + 1) fuel else .ok (b', passes + 1)

/-- Passes until one opens nothing, and their number. -/
def flatten (b : Bindings) : Except Failure (Bindings × Nat) :=
  b.passes 0 (b.length + 2)

end TreeGrammar.Bindings
