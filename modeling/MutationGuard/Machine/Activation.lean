import MutationGuard.Machine.Bytecode
import MutationGuard.Machine.Error
import MutationGuard.State.Txn

/-!
Frames in execution. A frame is the context that code runs in; an activation is a frame under way,
with its own program, stack, memory and gas, and the transaction it works on. `Exec` is an action on
an activation: it may fail, and what it did before failing is still there.
-/

namespace MutationGuard

/-- The greatest depth of nested frames. The frame of the transaction itself has depth zero. -/
def maxDepth : Nat := 1024

/-- The context that code runs in. -/
structure Frame where
  /-- The account whose state the code reads and writes. -/
  address : Address
  caller : Address
  value : Word
  /-- Whether every mutation is forbidden. -/
  isStatic : Bool
  depth : Nat
  guard : FrameGuard

namespace Frame

/-- The frame of a call made from this one: it inherits the restriction, one level deeper. -/
def child (f : Frame) (address : Address) (value : Word) (isStatic : Bool) : Frame where
  address := address
  caller := f.address
  value := value
  isStatic := isStatic
  depth := f.depth + 1
  guard := f.guard.child

/-- The frame that runs foreign code as this one: same address, caller and value. -/
def delegate (f : Frame) : Frame :=
  { f.child f.address f.value f.isStatic with caller := f.caller }

/-- Whether a call from this frame would pass the greatest depth. -/
def atMaxDepth (f : Frame) : Bool := maxDepth ≤ f.depth

end Frame

/-- How a frame, or a whole transaction, ended. -/
inductive Status where
  /-- It stopped, returned, destroyed its account, or ran off the end of its code. -/
  | success
  /-- It gave up its changes and kept its unused gas. -/
  | reverted
  /-- An operation failed. All its gas is gone. -/
  | halted
  deriving DecidableEq, Repr, Inhabited

/-- The name of the status. -/
def Status.name : Status → String
  | success => "Success"
  | reverted => "Reverted"
  | halted => "Halted"

/-- How a frame ended. -/
structure Outcome where
  status : Status
  gasLeft : Nat
  output : Bytes
  deriving DecidableEq, Inhabited

/-- Whether a frame ran, and ended successfully. -/
def Outcome.succeeded : Option Outcome → Bool
  | some outcome => outcome.status = .success
  | none => false

/-- A frame under way. -/
structure Activation (σ : Type) where
  frame : Frame
  pc : Nat
  stack : Stack
  memory : Memory
  gas : GasMeter
  program : LazyBytecode
  txn : Txn σ

/-- A frame about to run its first operation. -/
def Activation.start {σ : Type} (frame : Frame) (code : Code) (gasLimit : Nat) (txn : Txn σ) :
    Activation σ where
  frame := frame
  pc := 0
  stack := {}
  memory := {}
  gas := ⟨gasLimit, 0⟩
  program := .ofCode code
  txn := txn

/-- Actions on a frame under way. -/
abbrev Exec (σ : Type) := EStateM OpError (Activation σ)

namespace Exec

variable {σ α ε : Type}

/-- The value of a computation, or its error as the error of an operation. -/
def ofExcept (error : ε → OpError) : Except ε α → Exec σ α
  | .ok a => pure a
  | .error e => throw (error e)

/-- The frame's context. -/
def frame : Exec σ Frame := return (← get).frame

/-- Acts on the stack. -/
def onStack (action : Stack.Action α) : Exec σ α
  | ⟨frame, pc, stack, memory, gas, program, txn⟩ =>
    match action stack with
    | .ok a stack => .ok a ⟨frame, pc, stack, memory, gas, program, txn⟩
    | .error e stack => .error (.stack e) ⟨frame, pc, stack, memory, gas, program, txn⟩

/-- Acts on memory. -/
def onMemory (action : EStateM MemoryError Memory α) : Exec σ α
  | ⟨frame, pc, stack, memory, gas, program, txn⟩ =>
    match action memory with
    | .ok a memory => .ok a ⟨frame, pc, stack, memory, gas, program, txn⟩
    | .error e memory => .error (.memory e) ⟨frame, pc, stack, memory, gas, program, txn⟩

/-- Spends gas. -/
def charge (gas : Nat) : Exec σ Unit := do
  let r ← get
  let meter ← ofExcept .outOfGas (r.gas.charge gas)
  set { r with gas := meter }

/-- Returns gas. -/
def refund (gas : Nat) : Exec σ Unit :=
  modify fun r => { r with gas := r.gas.refund gas }

/-- Reads the transaction's state. -/
def readState (read : Txn σ → Except Fault α) : Exec σ α := do
  ofExcept (fun fault => .abort (.state fault)) (read (← get).txn)

/-- Writes the transaction's state. -/
def writeState (write : Txn σ → Txn σ) : Exec σ Unit :=
  modify fun r => { r with txn := write r.txn }

/-- Fails in a static frame. -/
def requireMutable : Exec σ Unit := do
  if (← frame).isStatic then throw .staticStateChange

/-- Fails if the frame's restriction denies one of the mutations. -/
def require (ms : List Mutation) : Exec σ Unit := do
  ofExcept .denied ((← frame).guard.checkAll ms)

/-- The operation at the program counter, if there is one. -/
def fetch : Exec σ (Option Op)
  | ⟨frame, pc, stack, memory, gas, program, txn⟩ =>
    match program.access pc with
    | (none, program) => .ok none ⟨frame, pc, stack, memory, gas, program, txn⟩
    | (some (.ok op), program) => .ok (some op) ⟨frame, pc, stack, memory, gas, program, txn⟩
    | (some (.error e), program) =>
      .error (.bytecode e) ⟨frame, pc, stack, memory, gas, program, txn⟩

end Exec
end MutationGuard
