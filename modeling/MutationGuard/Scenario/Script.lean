import MutationGuard.Machine.Transaction
import MutationGuard.Scenario.World

/-!
Scripts: lists of actions on a world, some of them under a guard. Each step is answered with its
result or its error and with a view of the world after it. At the top of a script a failing step
does not stop the next; the body of a guard stops at its first failing step, and that error is what
the guarded operation fails with.
-/

namespace MutationGuard

/-- A single action on a world. -/
inductive Action where
  | setBalance (address : Address) (value : Word)
  | setNonce (address : Address) (value : UInt64)
  | setCode (address : Address) (code : Code)
  | setStorage (address : Address) (key : Key) (value : Word)
  | setTransient (address : Address) (key : Key) (value : Word)
  | destroy (address : Address)
  | transfer (sender recipient : Address) (value : Word)
  | snapshot (name : String)
  | rollbackTo (name : String)
  | rollback
  | commit
  | balance (address : Address)
  | nonce (address : Address)
  | code (address : Address)
  | codeHash (address : Address)
  | storage (address : Address) (key : Key)
  | transient (address : Address) (key : Key)
  | baseAccount (address : Address) (account : Account)
  | baseStorage (address : Address) (key : Key) (value : Word)
  | baseStorageCount (address : Address)
  | baseBatch (updates : List Update)
  | setErc20 (token account : Address) (value : Word)
  | setOwner (id : TokenId) (owner : Address)
  | burn (id : TokenId)
  | takeOut (service : Service) (address : Address)
  | restore (service : Service) (address : Address)
  | fail (text : String)
  | execute (tx : Transaction) (prices : Pricing)

/-- What an action gives back. -/
inductive Value where
  | nothing
  | truth (b : Bool)
  | word (w : Word)
  | nonce (n : UInt64)
  | bytes (bytes : Bytes)
  | hash (h : Hash)
  | count (n : Nat)
  | receipt (result : Except ExecError Receipt)

namespace World

/-- Changes the transaction. -/
def updateTxn (f : Txn (Unreliable Table) → Txn (Unreliable Table)) : Guarded World Value := do
  modify fun w => { w with txn := f w.txn }
  return .nothing

/-- Changes the table behind the transaction. -/
def updateTable (f : Table → Table) : Guarded World Value :=
  updateTxn fun t => { t with base := { t.base with inner := f t.base.inner } }

/-- Changes the token ledgers, and gives back what `known` says of them as they were. -/
def updateTokens (known : Tokens → Bool) (f : Tokens → Tokens) : Guarded World Value := do
  let w ← get
  set { w with tokens := f w.tokens }
  return .truth (known w.tokens)

/-- Changes which services are out, and gives back whether that made a difference. -/
def updateOutages (f : Unreliable Table → Bool × Unreliable Table) : Guarded World Value := do
  let w ← get
  let (changed, base) := f w.txn.base
  set { w with txn := { w.txn with base := base } }
  return .truth changed

end World

namespace Action

/-- Whether the action is about the state behind the transaction. -/
def touchesBase : Action → Bool
  | commit | baseAccount .. | baseStorage .. | baseStorageCount _ | baseBatch _ => true
  | _ => false

/-- The action carried out. A transaction without an outcome is a result like any other. -/
def run : Action → Guarded World Value
  | setBalance a value => World.updateTxn (·.setBalance a value)
  | setNonce a value => World.updateTxn (·.setNonce a value)
  | setCode a value => World.updateTxn (·.setCode a value)
  | setStorage a k value => World.updateTxn (·.setStorage a k value)
  | setTransient a k value => World.updateTxn (·.setTransient a k value)
  | destroy a => World.updateTxn (·.destroy a)
  | transfer sender recipient value => do
    match ← Guarded.ofRead fun w => w.txn.transfer? sender recipient value with
    | some txn =>
      modify fun w => { w with txn := txn }
      return .truth true
    | none => return .truth false
  | snapshot name => do
    modify fun w => { w with snapshots := (name, w.txn.snapshot) :: w.snapshots }
    return .nothing
  | rollbackTo name => do
    match (← get).snapshots.lookup name with
    | some pending => World.updateTxn (·.rollbackTo pending)
    | none => return .nothing
  | rollback => World.updateTxn Txn.rollback
  | commit => do
    let txn ← Guarded.ofRead fun w => w.txn.commit
    World.updateTxn fun _ => txn
  | balance a => .word <$> Guarded.ofRead (Source.balance · a)
  | nonce a => .nonce <$> Guarded.ofRead (Source.nonce · a)
  | code a => .bytes <$> Guarded.ofRead (Source.code · a)
  | codeHash a => .hash <$> Guarded.ofRead (Accessor.codeHash.read · a)
  | storage a k => .word <$> Guarded.ofRead (Source.storage · a k)
  | transient a k => return .word ((← get).txn.transient a k)
  | baseAccount a account => World.updateTable (·.insertAccount a account)
  | baseStorage a k value => World.updateTable (·.insertSlot a k value)
  | baseStorageCount a => return .count ((← get).txn.base.inner.slotCount a)
  | baseBatch updates => do
    let base ← Guarded.ofRead fun w => Sink.applyBatch w.txn.base updates
    World.updateTxn fun t => { t with base := base }
  | setErc20 token account value =>
    World.updateTokens (fun t => (t.balance? token account).isSome)
      (·.setBalance token account value)
  | setOwner id owner => World.updateTokens (fun t => (t.owner? id).isSome) (·.setOwner id owner)
  | burn id => World.updateTokens (fun t => (t.owner? id).isSome) (·.burn id)
  | takeOut service a => World.updateOutages (·.takeOut service a)
  | restore service a => World.updateOutages (·.restore service a)
  | fail text => throw (.state ⟨text⟩)
  | execute tx prices => do
    let w ← get
    match tx.execute prices ampleBudget w.txn with
    | .ok receipt txn =>
      set { w with txn := txn }
      return .receipt (.ok receipt)
    | .error e txn =>
      set { w with txn := txn }
      return .receipt (.error e)

end Action

/-- A step of a script. The failure of a caught step is answered but goes no further. -/
inductive ScriptStep where
  | act (action : Action) (caught : Bool)
  /-- The body is the operation under the guard. An invariant that could not be made out fails
  without running the body. -/
  | guard (invariant : Except InvariantError Invariant) (body : List ScriptStep) (caught : Bool)

/-- The answer to a step. -/
inductive Answer where
  | mk (result : Except InvariantError Value) (body : Option (List Answer)) (state : View)
    (base : Option View)

/-- A world under a script, with the answers given so far, latest first. -/
structure Session where
  world : World
  answers : List Answer

namespace Session

instance : Source Session where
  balance s := Source.balance s.world
  nonce s := Source.nonce s.world
  code s := Source.code s.world
  storage s := Source.storage s.world

instance : TransientSource Session where
  transient s := TransientSource.transient s.world

instance : TokenSource Session where
  erc20Balance s := TokenSource.erc20Balance s.world
  erc721Balance s := TokenSource.erc721Balance s.world
  erc721Owner s := TokenSource.erc721Owner s.world

/-- Notes the answer to a step, and fails with the step's error unless it is caught. -/
def record (caught : Bool) (result : Except InvariantError Value) (body : Option (List Answer))
    (watch : Watch) (touchesBase : Bool) (world : World) : Guarded Session Unit := do
  let base := if touchesBase then some (world.viewBase watch) else none
  modify fun s => ⟨world, .mk result body (world.view watch) base :: s.answers⟩
  match result with
  | .error e => unless caught do throw e
  | .ok _ => pure ()

end Session

mutual

/-- Carries out a step and notes its answer. -/
def ScriptStep.run (watch : Watch) : ScriptStep → Guarded Session Unit
  | .act action caught => do
    match action.run (← get).world with
    | .ok value world =>
      Session.record caught (.ok value) none watch action.touchesBase world
    | .error e world =>
      Session.record caught (.error e) none watch action.touchesBase world
  | .guard invariant body caught => do
    let operation : Guarded Session Nat := do
      ScriptStep.runAll watch body
      return body.length
    let guarded : Guarded Session Nat :=
      match invariant with
      | .ok i => i.guard operation
      | .error e => throw e
    match guarded ⟨(← get).world, []⟩ with
    | .ok n inner =>
      Session.record caught (.ok (.count n)) (some inner.answers.reverse) watch false inner.world
    | .error e inner =>
      Session.record caught (.error e) (some inner.answers.reverse) watch false inner.world

/-- Carries out steps up to the first that fails. -/
def ScriptStep.runAll (watch : Watch) : List ScriptStep → Guarded Session Unit
  | [] => pure ()
  | step :: rest => do
    ScriptStep.run watch step
    ScriptStep.runAll watch rest

end

/-- The answers to a script, one for each of its steps. -/
def World.runScript (w : World) (watch : Watch) (script : List ScriptStep) : List Answer :=
  let final := script.foldl
    (fun s step =>
      match step.run watch s with
      | .ok _ s => s
      | .error _ s => s)
    (⟨w, []⟩ : Session)
  final.answers.reverse

end MutationGuard
