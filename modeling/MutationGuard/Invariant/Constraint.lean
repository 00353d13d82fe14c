import MutationGuard.Word

/-!
How a value may change. A constraint compares the value before with the value after: it fixes a
direction and bounds the difference in that direction by a delta. A change in the other direction
breaks it whatever the delta, so no difference ever wraps.
-/

namespace MutationGuard

/-- How the value after must relate to the value before. -/
inductive Constraint where
  /-- The value stays; the delta is ignored. -/
  | noChange
  /-- The value rises by exactly the delta. -/
  | increaseExact
  /-- The value does not fall, and rises by at most the delta. -/
  | increaseMax
  /-- The value rises by at least the delta. -/
  | increaseMin
  /-- The value falls by exactly the delta. -/
  | decreaseExact
  /-- The value does not rise, and falls by at most the delta. -/
  | decreaseMax
  /-- The value falls by at least the delta. -/
  | decreaseMin
  deriving DecidableEq, Repr, Inhabited

namespace Constraint

/-- Every constraint, in the order of the tags. -/
def all : List Constraint :=
  [noChange, increaseExact, increaseMax, increaseMin, decreaseExact, decreaseMax, decreaseMin]

/-- The byte that stands for the constraint. -/
def tag : Constraint → UInt8
  | noChange => 0
  | increaseExact => 1
  | increaseMax => 2
  | increaseMin => 3
  | decreaseExact => 4
  | decreaseMax => 5
  | decreaseMin => 6

/-- The constraint that a byte stands for. -/
def ofTag? (b : UInt8) : Option Constraint := all[b.toNat]?

/-- The name of the constraint. -/
def name : Constraint → String
  | noChange => "NoChange"
  | increaseExact => "IncreaseExact"
  | increaseMax => "IncreaseMax"
  | increaseMin => "IncreaseMin"
  | decreaseExact => "DecreaseExact"
  | decreaseMax => "DecreaseMax"
  | decreaseMin => "DecreaseMin"

/-- Whether the change from `before` to `after` breaks the constraint. -/
def violated (c : Constraint) (before after delta : Word) : Bool :=
  let rise := after.sub? before
  let fall := before.sub? after
  match c with
  | noChange => before != after
  | increaseExact => rise.all (· != delta)
  | increaseMax => rise.all (delta < ·)
  | increaseMin => rise.all (· < delta)
  | decreaseExact => fall.all (· != delta)
  | decreaseMax => fall.all (delta < ·)
  | decreaseMin => fall.all (· < delta)

theorem ofTag?_tag (c : Constraint) : ofTag? c.tag = some c := by
  cases c <;> rfl

end Constraint

/-- A constraint with the delta it is checked against. -/
structure Expectation where
  constraint : Constraint
  delta : Word
  deriving DecidableEq

namespace Expectation

/-- The value must not change. -/
def unchanged : Expectation := ⟨.noChange, 0⟩

/-- The value must rise by exactly `delta`. -/
def exactIncrease (delta : Word) : Expectation := ⟨.increaseExact, delta⟩

/-- The value must not fall, and rise by at most `delta`. -/
def maxIncrease (delta : Word) : Expectation := ⟨.increaseMax, delta⟩

/-- The value must rise by at least `delta`. -/
def minIncrease (delta : Word) : Expectation := ⟨.increaseMin, delta⟩

/-- The value must fall by exactly `delta`. -/
def exactDecrease (delta : Word) : Expectation := ⟨.decreaseExact, delta⟩

/-- The value must not rise, and fall by at most `delta`. -/
def maxDecrease (delta : Word) : Expectation := ⟨.decreaseMax, delta⟩

/-- The value must fall by at least `delta`. -/
def minDecrease (delta : Word) : Expectation := ⟨.decreaseMin, delta⟩

/-- Whether the change from `before` to `after` falls short of the expectation. -/
def violated (e : Expectation) (before after : Word) : Bool :=
  e.constraint.violated before after e.delta

end Expectation
end MutationGuard
