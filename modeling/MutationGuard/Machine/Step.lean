import MutationGuard.Machine.Activation
import MutationGuard.Policy.Codec

/-!
One operation of a frame. Its cost is charged first; then its operands are taken, what it may not do
is refused, and only then does it write. A call runs its callee to the end within the one step, by
way of a `Runner`. The callee's changes are kept only if it ends successfully, and its unused gas
comes back.
-/

namespace MutationGuard

/-- Runs the code of a frame to its end, with so much gas, on a transaction. -/
abbrev Runner (σ : Type) := Frame → Code → Nat → EStateM Abort (Txn σ) Outcome

/-- What follows an operation. -/
inductive Step where
  /-- The frame goes on at an index. -/
  | next (pc : Nat)
  /-- The frame ends. -/
  | exit (status : Status) (output : Bytes)
  deriving DecidableEq

namespace Exec

variable {σ : Type}

section Memory

/-- The word as an offset or a length. -/
def counter (w : Word) : Exec σ Nat :=
  match w.toCounter? with
  | some n => pure n
  | none => throw (.memory .indexOutOfBounds)

/-- Grows memory to cover a range, and charges for the growth. -/
def expand (prices : Pricing) (offset length : Nat) : Exec σ Unit := do
  let r ← get
  let words ← ofExcept .memory (r.memory.wordsRequired offset length)
  charge (prices.schedule.memoryCost words - prices.schedule.memoryCost r.memory.words)
  onMemory (modify (Memory.growTo words))

/-- The bytes of a range of memory. -/
def slice (offset length : Nat) : Exec σ Bytes := do
  ofExcept .memory ((← get).memory.slice offset length)

/-- Takes an offset and a length, and gives the bytes of that range of memory. -/
def popRange (prices : Pricing) : Exec σ Bytes := do
  let (offset, length) ← onStack Stack.pop2
  let offset ← counter offset
  let length ← counter length
  expand prices offset length
  slice offset length

def mload (prices : Pricing) : Exec σ Unit := do
  let offset ← counter (← onStack Stack.pop)
  expand prices offset 32
  let word ← ofExcept .memory ((← get).memory.load offset)
  onStack (Stack.push word)

def mstore (prices : Pricing) : Exec σ Unit := do
  let (offset, word) ← onStack Stack.pop2
  let offset ← counter offset
  expand prices offset 32
  onMemory (Memory.store offset word.toBytes)

def mstore8 (prices : Pricing) : Exec σ Unit := do
  let (offset, word) ← onStack Stack.pop2
  let offset ← counter offset
  expand prices offset 1
  onMemory (Memory.store offset [word.lowByte])

end Memory

section ControlFlow

/-- The word as an index to jump to. -/
def destination (w : Word) : Exec σ Nat :=
  match w.toCounter? with
  | some n => pure n
  | none => throw (.controlFlow (.invalidDestination w))

def jump : Exec σ Nat := do
  destination (← onStack Stack.pop)

/-- The destination is looked at only if the condition holds. -/
def jumpIf : Exec σ Nat := do
  let (target, condition) ← onStack Stack.pop2
  match condition.toBool? with
  | some true => destination target
  | some false => return (← get).pc + 1
  | none => throw (.controlFlow (.invalidCondition condition))

end ControlFlow

/-- Takes `[offset, maxLength, enable]` and changes the frame's restriction. The range is paid for
whether the restriction is lifted or declared; a declaration must lie within it. -/
def restrict (prices : Pricing) : Exec σ Unit := do
  let (offset, maxLength, flag) ← onStack Stack.pop3
  let offset ← counter offset
  let maxLength ← counter maxLength
  charge (prices.schedule.restrictDecodeCost maxLength)
  expand prices offset maxLength
  match flag.toBool? with
  | none => throw (.restrict (.invalidFlag flag))
  | some false =>
    modify fun r => { r with frame := { r.frame with guard := r.frame.guard.disable } }
  | some true =>
    let bytes ← slice offset maxLength
    let declaration ← ofExcept (fun e => .restrict (.decode e)) (Declaration.decode bytes)
    let set := PermissionSet.ofDeclaration declaration
    modify fun r => { r with frame := { r.frame with guard := r.frame.guard.enable set } }

section State

variable [Source σ]

def balance : Exec σ Unit := do
  let address := Address.ofWord (← onStack Stack.pop)
  onStack (Stack.push (← readState (·.balance address)))

def selfBalance : Exec σ Unit := do
  let address := (← frame).address
  onStack (Stack.push (← readState (·.balance address)))

def codeHash : Exec σ Unit := do
  let address := Address.ofWord (← onStack Stack.pop)
  onStack (Stack.push (← readState (·.codeHash address)).word)

def sload : Exec σ Unit := do
  let key := Key.mk (← onStack Stack.pop)
  let address := (← frame).address
  onStack (Stack.push (← readState (·.storage address key)))

def tload : Exec σ Unit := do
  let key := Key.mk (← onStack Stack.pop)
  let r ← get
  onStack (Stack.push (r.txn.transient r.frame.address key))

def sstore : Exec σ Unit := do
  let (key, value) ← onStack Stack.pop2
  requireMutable
  let address := (← frame).address
  require [.storage address ⟨key⟩]
  writeState (·.setStorage address ⟨key⟩ value)

def tstore : Exec σ Unit := do
  let (key, value) ← onStack Stack.pop2
  requireMutable
  let address := (← frame).address
  require [.transientStorage address ⟨key⟩]
  writeState (·.setTransient address ⟨key⟩ value)

/-- Moves the whole balance to the beneficiary, as far as it can take it, and erases the account. -/
def selfDestruct : Exec σ Unit := do
  let beneficiary := Address.ofWord (← onStack Stack.pop)
  requireMutable
  let address := (← frame).address
  require [.selfDestruct address]
  let balance ← readState (·.balance address)
  let moved ← readState (·.transfer? address beneficiary balance)
  writeState fun t => (moved.getD t).destroy address

end State

section Calls

variable [Source σ]

/-- Runs a child frame. The gas handed to it is charged up front, and what it leaves is returned.
`prepare` makes the changes that belong to entering the frame; if it refuses, the frame does not run
and costs nothing. Unless the frame ends successfully, the state goes back to what it was before
`prepare`. -/
def enter (run : Runner σ) (child : Frame) (code : Code) (requested : Word)
    (prepare : Txn σ → Except Fault (Option (Txn σ))) : Exec σ (Option Outcome) := do
  let handed := min (saturate requested.toNat) (← get).gas.remaining
  charge handed
  let before := (← get).txn.snapshot
  match ← readState prepare with
  | none =>
    refund handed
    return none
  | some prepared =>
    match run child code handed prepared with
    | .ok outcome after =>
      writeState fun _ =>
        if outcome.status = .success then after else after.rollbackTo before
      refund outcome.gasLeft
      return some outcome
    | .error cause after =>
      writeState fun _ => after
      throw (.abort cause)

/-- Calls an account's code with a value. -/
def call (run : Runner σ) : Exec σ Unit := do
  let (requested, callee, value) ← onStack Stack.pop3
  let callee := Address.ofWord callee
  let frame ← frame
  if frame.isStatic ∧ value ≠ 0 then throw .staticStateChange
  require (Mutation.ofValueCall frame.address callee value)
  if frame.atMaxDepth then onStack (Stack.pushBool false)
  else
    let code ← readState (·.code callee)
    let outcome ← enter run (frame.child callee value frame.isStatic) code requested
      (·.transfer? frame.address callee value)
    onStack (Stack.pushBool (Outcome.succeeded outcome))

/-- Calls an account's code, which may change nothing. -/
def staticCall (run : Runner σ) : Exec σ Unit := do
  let (requested, callee) ← onStack Stack.pop2
  let callee := Address.ofWord callee
  let frame ← frame
  if frame.atMaxDepth then onStack (Stack.pushBool false)
  else
    let code ← readState (·.code callee)
    let outcome ← enter run (frame.child callee 0 true) code requested fun t => .ok (some t)
    onStack (Stack.pushBool (Outcome.succeeded outcome))

/-- Runs an account's code against this frame's own address, caller and value. -/
def delegateCall (run : Runner σ) : Exec σ Unit := do
  let (requested, target) ← onStack Stack.pop2
  let target := Address.ofWord target
  require [.delegateCall]
  let frame ← frame
  if frame.atMaxDepth then onStack (Stack.pushBool false)
  else
    let code ← readState (·.code target)
    let outcome ← enter run frame.delegate code requested fun t => .ok (some t)
    onStack (Stack.pushBool (Outcome.succeeded outcome))

/-- Whether an account already has a nonce or code, so that none can be created there. -/
def occupied (address : Address) : Exec σ Bool := do
  if (← readState (·.nonce address)) ≠ 0 then return true
  return !(← readState (·.code address)).isEmpty

/-- Creates an account. The bytes in memory run as a child frame with all remaining gas, and what
they return becomes the new account's code. The creator's nonce is bumped before it is known whether
the address is free, and stays bumped if the creation fails after that. -/
def create (prices : Pricing) (run : Runner σ) : Exec σ Unit := do
  let initCode ← popRange prices
  let value ← onStack Stack.pop
  requireMutable
  let frame ← frame
  let creator := frame.address
  let nonce ← readState (·.nonce creator)
  let created := creator.created nonce
  require (Mutation.ofCreate creator created value)
  if nonce.toNat = counterMax ∨ frame.atMaxDepth then onStack (Stack.pushBool false)
  else
    writeState (·.setNonce creator (nonce + 1))
    if ← occupied created then onStack (Stack.pushBool false)
    else
      let outcome ← enter run (frame.child created value false) initCode Word.max fun t =>
        (t.setNonce created 1).transfer? creator created value
      match outcome with
      | some ⟨.success, _, output⟩ =>
        writeState (·.setCode created output)
        onStack (Stack.push created.toWord)
      | _ => onStack (Stack.pushBool false)

end Calls

/-- The action, after which the frame goes on with the next operation. -/
def andNext (action : Exec σ Unit) : Exec σ Step := do
  action
  return .next ((← get).pc + 1)

/-- Performs an operation that has been paid for. -/
def perform [Source σ] (prices : Pricing) (run : Runner σ) : Op → Exec σ Step
  | .halt => return .exit .success []
  | .push word => andNext (onStack (Stack.push word))
  | .pop => andNext (discard (onStack Stack.pop))
  | .dup => andNext (onStack Stack.dup)
  | .swap => andNext (onStack Stack.swap)
  | .add => andNext (onStack (Stack.map2 (· + ·)))
  | .sub => andNext (onStack (Stack.map2 (· - ·)))
  | .eq => andNext (onStack (Stack.map2 fun a b => Word.ofBool (a = b)))
  | .lt => andNext (onStack (Stack.map2 fun a b => Word.ofBool (a < b)))
  | .not => andNext (onStack (Stack.map1 fun a => Word.ofBool (a = 0)))
  | .jump => .next <$> jump
  | .jumpIf => .next <$> jumpIf
  | .mload => andNext (mload prices)
  | .mstore => andNext (mstore prices)
  | .mstore8 => andNext (mstore8 prices)
  | .address => andNext do onStack (Stack.push (← frame).address.toWord)
  | .caller => andNext do onStack (Stack.push (← frame).caller.toWord)
  | .callValue => andNext do onStack (Stack.push (← frame).value)
  | .balance => andNext balance
  | .selfBalance => andNext selfBalance
  | .codeHash => andNext codeHash
  | .sload => andNext sload
  | .sstore => andNext sstore
  | .tload => andNext tload
  | .tstore => andNext tstore
  | .call => andNext (call run)
  | .staticCall => andNext (staticCall run)
  | .delegateCall => andNext (delegateCall run)
  | .create => andNext (create prices run)
  | .selfDestruct => do
    selfDestruct
    return .exit .success []
  | .revert => return .exit .reverted []
  | .ret => .exit .success <$> popRange prices
  | .restrict => andNext (restrict prices)

/-- One operation: fetched, paid for, performed. Past the last operation the frame ends
successfully. -/
def step [Source σ] (prices : Pricing) (run : Runner σ) : Exec σ Step := do
  match ← fetch with
  | none => return .exit .success []
  | some op =>
    charge (prices.opCost op)
    perform prices run op

end Exec
end MutationGuard
