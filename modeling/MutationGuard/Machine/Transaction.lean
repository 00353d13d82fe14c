import MutationGuard.Machine.Run

/-!
Executing a transaction: its value moves from the caller to the target, and the target's code runs
as the topmost frame. The changes stay pending only if that frame ends successfully; committing them
is up to whoever executes the transaction.
-/

namespace MutationGuard

/-- A call into an account's code from outside. -/
structure Transaction where
  caller : Address
  target : Address
  /-- Moved from the caller to the target before any code runs. -/
  value : Word
  gasLimit : Nat

/-- What became of a transaction. -/
structure Receipt where
  status : Status
  gasUsed : Nat
  output : Bytes
  deriving DecidableEq

/-- The gas limit of a transaction that is not to run out. -/
def unlimitedGas : Nat := counterMax

/-- A step budget that no execution is going to use up. -/
def ampleBudget : Nat := 0x4000000000000000

namespace Transaction

/-- The topmost frame. -/
def frame (tx : Transaction) : Frame where
  address := tx.target
  caller := tx.caller
  value := tx.value
  isStatic := false
  depth := 0
  guard := .unrestricted

/-- Executes the transaction. It fails, and changes nothing, if the value cannot be moved or the
state cannot be read. -/
def execute {σ : Type} [Source σ] (prices : Pricing) (tx : Transaction) (budget : Nat) :
    EStateM ExecError (Txn σ) Receipt := fun t =>
  match t.transfer? tx.caller tx.target tx.value with
  | .error fault => .error (.abort (.state fault)) t
  | .ok none => .error (.insufficientBalance tx.caller tx.value) t
  | .ok (some paid) =>
    match paid.code tx.target with
    | .error fault => .error (.abort (.state fault)) t
    | .ok code =>
      match tx.frame.run prices budget code tx.gasLimit paid with
      | .error cause after => .error (.abort cause) (after.rollbackTo t.snapshot)
      | .ok outcome after =>
        .ok ⟨outcome.status, tx.gasLimit - outcome.gasLeft, outcome.output⟩
          (if outcome.status = .success then after else after.rollbackTo t.snapshot)

/-- A transaction is refused before any code runs, or its frame runs once the value is paid. -/
theorem execute_cases {σ : Type} [Source σ] (prices : Pricing) (tx : Transaction) (budget : Nat)
    (t : Txn σ) :
    (∃ e, tx.execute prices budget t = .error e t) ∨
      ∃ paid code, t.transfer? tx.caller tx.target tx.value = .ok (some paid) ∧
        paid.code tx.target = .ok code ∧
        tx.execute prices budget t =
          match tx.frame.run prices budget code tx.gasLimit paid with
          | .error cause after => .error (.abort cause) (after.rollbackTo t.snapshot)
          | .ok outcome after =>
            .ok ⟨outcome.status, tx.gasLimit - outcome.gasLeft, outcome.output⟩
              (if outcome.status = .success then after else after.rollbackTo t.snapshot) := by
  unfold execute
  cases t.transfer? tx.caller tx.target tx.value with
  | error fault => exact .inl ⟨_, rfl⟩
  | ok moved =>
    cases moved with
    | none => exact .inl ⟨_, rfl⟩
    | some paid =>
      dsimp only
      cases hcode : paid.code tx.target with
      | error fault => exact .inl ⟨_, rfl⟩
      | ok code => exact .inr ⟨paid, code, rfl, hcode, rfl⟩

end Transaction
end MutationGuard
