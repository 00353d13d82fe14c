import MutationGuard.Invariant.Error

/-!
Checking two samples of the same positions. Both samples must have as many values as there are
deltas, and no more than a check may have; then every position is reported on.
-/

namespace MutationGuard

/-- Checks that there are not too many positions, and as many expected values as positions. -/
def checkLengths (positions expected : Nat) : Except InvariantError Unit :=
  if maxPositions < positions then .error (.tooManyPositions positions)
  else if positions ≠ expected then .error .lengthMismatch
  else .ok ()

/-- Checks the change at every position against the constraint and the delta given for it. -/
def validateDeltas (before after deltas : List Word) (c : Constraint) :
    Except InvariantError (Report Change) := do
  checkLengths before.length deltas.length
  checkLengths after.length deltas.length
  return Report.ofPositions (fun p => c.violated p.before p.after p.delta)
    (List.zipWith (fun (b, a) d => ⟨b, a, d⟩) (before.zip after) deltas)

/-- Checks the changes against the constraint that a tag stands for. -/
def validateDeltasTag (before after deltas : List Word) (tag : UInt8) :
    Except InvariantError (Report Change) := do
  validateDeltas before after deltas (← Constraint.decode tag)

/-- Checks that every token kept its owner. -/
def validateOwners (before after : List Address) :
    Except InvariantError (Report OwnerChange) := do
  checkLengths before.length after.length
  return Report.ofPositions (fun p => p.before != p.after)
    (List.zipWith OwnerChange.mk before after)

/-- Whether a change breaks the constraint that a tag stands for. -/
def violatedTag (before after delta : Word) (tag : UInt8) : Except InvariantError Bool := do
  return (← Constraint.decode tag).violated before after delta

end MutationGuard
