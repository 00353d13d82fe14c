import MutationGuard.Invariant.Constraint

/-!
What a check observed. A report lists every position that was checked, in the order given, and the
indices of those that broke the check, in ascending order.
-/

namespace MutationGuard

/-- The outcome of checking a list of positions. -/
structure Report (α : Type) where
  violations : List Nat
  positions : List α
  deriving DecidableEq

/-- The values observed at one position. -/
structure Change where
  before : Word
  after : Word
  delta : Word
  deriving DecidableEq

/-- The owners observed for one token. -/
structure OwnerChange where
  before : Address
  after : Address
  deriving DecidableEq

namespace Report

variable {α : Type}

/-- The report on positions that break the check where `broken` says so. -/
def ofPositions (broken : α → Bool) (positions : List α) : Report α where
  violations := (positions.zipIdx.filter fun (p, _) => broken p).map (·.2)
  positions := positions

/-- Whether any position broke the check. -/
def isViolated (r : Report α) : Bool := !r.violations.isEmpty

/-- The positions that broke the check, each with its index. -/
def violating (r : Report α) : List (Nat × α) :=
  let positions := r.positions.toArray
  r.violations.filterMap fun i => positions[i]?.map (i, ·)

/-- The report as text: how many positions broke the check, then a line for each of them. -/
def display (what : String) (line : α → String) (r : Report α) : String :=
  r.violating.foldl (fun text (i, p) => text ++ "\n  " ++ toString i ++ ": " ++ line p)
    (toString r.violations.length ++ " of " ++ toString r.positions.length ++ " " ++ what)

end Report

/-- A change as a line of a report. -/
def Change.line (c : Change) : String :=
  "before " ++ c.before.decimal ++ ", after " ++ c.after.decimal ++ ", delta " ++ c.delta.decimal

/-- A change of owner as a line of a report. -/
def OwnerChange.line (c : OwnerChange) : String := c.before.hex ++ " -> " ++ c.after.hex

/-- A report on values as text. -/
def Report.describe (r : Report Change) : String := r.display "positions violated" Change.line

/-- A report on owners as text. -/
def Report.describeOwners (r : Report OwnerChange) : String :=
  r.display "owners changed" OwnerChange.line

end MutationGuard
