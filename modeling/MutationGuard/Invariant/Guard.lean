import MutationGuard.Invariant.Validate

/-!
Guarding an operation: sample, run the operation, sample again, check. The operation works on the
same world and may itself be guarded; if it fails, its error comes out unchanged, before the second
sample is taken. What the operation did to the world stays done whatever the check finds.
-/

namespace MutationGuard

/-- Reads one kind of state at a position. -/
structure Accessor (W P V : Type) where
  read : W → P → Except Fault V

/-- An operation on a world, which may fail. -/
abbrev Guarded (W α : Type) := EStateM InvariantError W α

namespace Guarded

variable {W P α : Type}

/-- Fails with the error of a check, if there is one. -/
def ofExcept {β : Type} : Except InvariantError β → Guarded W β
  | .ok b => pure b
  | .error e => throw e

/-- Reads the world. -/
def ofRead {V : Type} (read : W → Except Fault V) : Guarded W V := do
  match read (← get) with
  | .ok v => pure v
  | .error fault => throw (.state fault)

/-- Reads every position in order. -/
def sample {V : Type} (accessor : Accessor W P V) (positions : List P) : Guarded W (List V) :=
  ofRead fun w => positions.mapM (accessor.read w)

/-- Requires every position to change as the constraint and its delta say. -/
def deltas (accessor : Accessor W P Word) (positions : List P) (c : Constraint)
    (deltas : List Word) (violation : Report Change → InvariantError) (operation : Guarded W α) :
    Guarded W α := do
  ofExcept (checkLengths positions.length deltas.length)
  let before ← sample accessor positions
  let result ← operation
  let after ← sample accessor positions
  let report ← ofExcept (validateDeltas before after deltas c)
  if report.isViolated then throw (violation report)
  return result

/-- Requires every position to hold its expected value afterwards. The expected values stand in for
the first sample, and nothing may change. -/
def equals (accessor : Accessor W P Word) (positions : List P) (expected : List Word)
    (violation : Report Change → InvariantError) (operation : Guarded W α) : Guarded W α := do
  ofExcept (checkLengths positions.length expected.length)
  let result ← operation
  let after ← sample accessor positions
  let report ← ofExcept
    (validateDeltas expected after (List.replicate expected.length 0) .noChange)
  if report.isViolated then throw (violation report)
  return result

/-- Fails if any token has changed owner. -/
def checkOwners (before after : List Address) (violation : Report OwnerChange → InvariantError) :
    Guarded W Unit := do
  let report ← ofExcept (validateOwners before after)
  if report.isViolated then throw (violation report)

/-- Requires every position to keep its owner. -/
def owners (accessor : Accessor W P Address) (positions : List P)
    (violation : Report OwnerChange → InvariantError) (operation : Guarded W α) : Guarded W α := do
  ofExcept (checkLengths positions.length positions.length)
  let before ← sample accessor positions
  let result ← operation
  let after ← sample accessor positions
  checkOwners before after violation
  return result

/-- Requires every position to have its expected owner afterwards. -/
def ownersEqual (accessor : Accessor W P Address) (positions : List P) (expected : List Address)
    (violation : Report OwnerChange → InvariantError) (operation : Guarded W α) : Guarded W α := do
  ofExcept (checkLengths positions.length expected.length)
  let result ← operation
  let after ← sample accessor positions
  checkOwners expected after violation
  return result

/-- Requires one hash to stay as it is. -/
def hash (accessor : Accessor W P Hash) (position : P) (operation : Guarded W α) :
    Guarded W α := do
  let before ← ofRead (accessor.read · position)
  let result ← operation
  let after ← ofRead (accessor.read · position)
  if before ≠ after then throw (.codeChanged before after)
  return result

end Guarded
end MutationGuard
