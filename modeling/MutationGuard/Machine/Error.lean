import MutationGuard.Machine.FrameGuard
import MutationGuard.Machine.Gas
import MutationGuard.Machine.Memory
import MutationGuard.Machine.Op
import MutationGuard.Machine.Stack
import MutationGuard.Rlp.Item
import MutationGuard.State.Account

/-!
Why an operation fails. Every failure but an abort halts the frame, and the caller of the frame sees
only that it halted. An abort ends the whole execution: the state could not be read, or the step
budget of the evaluation ran out.
-/

namespace MutationGuard

/-- Why a jump fails. -/
inductive ControlFlowError where
  /-- The condition is neither zero nor one. -/
  | invalidCondition (condition : Word)
  /-- The destination is no index. -/
  | invalidDestination (destination : Word)
  deriving DecidableEq

/-- The text of a control flow error. -/
def ControlFlowError.message : ControlFlowError → String
  | .invalidCondition w => "invalid condition " ++ w.decimal ++ " for `JumpIf`, expected `0` or `1`"
  | .invalidDestination w => "jump destination " ++ w.decimal ++ " out of range"

/-- Why a restriction is malformed. -/
inductive RestrictError where
  /-- The flag is neither zero nor one. -/
  | invalidFlag (flag : Word)
  /-- The bytes hold no declaration. -/
  | decode (error : Rlp.DecodeError)
  deriving DecidableEq

/-- The text of a restriction error. -/
def RestrictError.message : RestrictError → String
  | .invalidFlag w => "invalid enable flag " ++ w.decimal ++ ", expected `0` or `1`"
  | .decode e => "malformed mutable set list: " ++ e.message

/-- Why a whole execution ends without an outcome. -/
inductive Abort where
  /-- The state behind the transaction could not be read. -/
  | state (fault : Fault)
  /-- The evaluation was given fewer steps than the execution takes. -/
  | outOfSteps
  deriving DecidableEq

/-- The text of an abort. -/
def Abort.message : Abort → String
  | .state fault => "failed to access state: " ++ fault.text
  | .outOfSteps => "step budget exhausted"

/-- Why an operation fails. -/
inductive OpError where
  | stack (error : StackError)
  | memory (error : MemoryError)
  | controlFlow (error : ControlFlowError)
  | bytecode (error : ParseError)
  | outOfGas (error : OutOfGas)
  | restrict (error : RestrictError)
  | denied (error : Denied)
  /-- A static frame attempted a mutation. -/
  | staticStateChange
  | abort (cause : Abort)
  deriving DecidableEq

namespace OpError

/-- Whether the error halts the frame, as opposed to ending the whole execution. -/
def isHalt : OpError → Bool
  | abort _ => false
  | _ => true

/-- The text of the error. -/
def message : OpError → String
  | stack e => "stack error: " ++ e.message
  | memory e => "memory error: " ++ e.message
  | controlFlow e => "control flow error: " ++ e.message
  | bytecode e => "bytecode error: " ++ e.message
  | outOfGas e => e.message
  | restrict e => "restriction error: " ++ e.message
  | denied e => e.message
  | staticStateChange => "attempted to mutate state from a static call"
  | abort cause => cause.message

end OpError

/-- Why a transaction has no outcome. -/
inductive ExecError where
  /-- The caller cannot cover the value, or the recipient cannot hold it. -/
  | insufficientBalance (caller : Address) (value : Word)
  | abort (cause : Abort)
  deriving DecidableEq

/-- The text of the error. -/
def ExecError.message : ExecError → String
  | .insufficientBalance caller value =>
    "caller " ++ caller.hex ++ " cannot cover the transferred value " ++ value.decimal
  | .abort cause => cause.message

end MutationGuard
