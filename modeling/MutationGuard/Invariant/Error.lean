import MutationGuard.Invariant.Report
import MutationGuard.State.Account

/-!
Why a guarded operation fails: the check was set up wrongly, a read failed, or the check was made
and found a violation, which then carries its report.
-/

namespace MutationGuard

/-- The numeric state that one check is about. -/
inductive Subject where
  /-- The native balance of one account. -/
  | balance (account : Address)
  /-- Slots of an account's persistent storage. -/
  | storage (account : Address) (keys : List Key)
  /-- Slots of an account's transient storage. -/
  | transientStorage (account : Address) (keys : List Key)
  /-- The native balances of several accounts. -/
  | balances (accounts : List Address)
  /-- What an account holds of each fungible token. -/
  | erc20 (account : Address) (tokens : List Address)
  /-- How many of each non-fungible token an account owns. -/
  | erc721 (account : Address) (tokens : List Address)
  deriving DecidableEq

/-- A token of a non-fungible kind: the contract and the number of the token. -/
structure TokenId where
  contract : Address
  number : Word
  deriving DecidableEq

/-- Why a guarded operation fails. -/
inductive InvariantError where
  /-- There are not as many expected values as positions. -/
  | lengthMismatch
  /-- There are more positions than a check may have. -/
  | tooManyPositions (count : Nat)
  /-- Nonces cannot be checked. -/
  | unsupported
  /-- The tag names no constraint. -/
  | unknownConstraint (tag : UInt8)
  /-- The code of an account changed. -/
  | codeChanged (before after : Hash)
  /-- A numeric check found violations. -/
  | violated (subject : Subject) (report : Report Change)
  /-- Tokens changed owner. -/
  | ownersChanged (tokens : List TokenId) (report : Report OwnerChange)
  /-- The state could not be read, or the protected operation failed to write it. -/
  | state (fault : Fault)
  deriving DecidableEq

/-- The largest number of positions that one check may have. -/
def maxPositions : Nat := 0xFFFF

namespace Subject

/-- What a violation of the check on this subject is called. -/
def invariant : Subject → String
  | balance _ => "native balance invariant"
  | storage .. => "storage invariant"
  | transientStorage .. => "transient storage invariant"
  | balances _ => "external balance invariant"
  | erc20 account _ => "ERC-20 balance invariant of " ++ account.hex
  | erc721 account _ => "ERC-721 balance invariant of " ++ account.hex

end Subject

namespace InvariantError

/-- Whether the error reports an observed violation. -/
def isViolation : InvariantError → Bool
  | codeChanged .. | violated .. | ownersChanged .. => true
  | lengthMismatch | tooManyPositions _ | unsupported | unknownConstraint _ | state _ => false

/-- The text of the error. -/
def message : InvariantError → String
  | lengthMismatch => "position list and expected deltas differ in length"
  | tooManyPositions count =>
    toString count ++ " positions exceed the maximum of " ++ toString maxPositions
  | unsupported => "nonce invariants are not supported"
  | unknownConstraint tag => "invalid delta constraint tag " ++ toString tag.toNat
  | codeChanged before after =>
    "code hash changed from " ++ before.hex ++ " to " ++ after.hex
  | violated subject report => subject.invariant ++ " violated: " ++ report.describe
  | ownersChanged _ report => "ERC-721 owner invariant violated: " ++ report.describeOwners
  | state fault => "failed to read state: " ++ fault.text

end InvariantError

/-- The constraint that a tag stands for. -/
def Constraint.decode (tag : UInt8) : Except InvariantError Constraint :=
  match ofTag? tag with
  | some c => .ok c
  | none => .error (.unknownConstraint tag)

end MutationGuard
