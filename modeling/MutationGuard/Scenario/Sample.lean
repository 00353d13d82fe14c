import MutationGuard.Machine.Transaction
import MutationGuard.State.Table

/-!
A small world to try programs in: two funded accounts, contracts with a little balance of their own,
and a transaction that calls one of them.
-/

namespace MutationGuard.Sample

/-- An account that sends transactions. -/
def alice : Address := .repeated 0xA1

/-- An account that receives value. -/
def bob : Address := .repeated 0xB0

/-- The contract that transactions call. -/
def guarded : Address := .repeated 0xC0

/-- The gas limit of a sample transaction. -/
def gasLimit : Nat := 10000000

/-- An account with a nonce of one. -/
def account (balance : Word) (code : Code) : Account := ⟨1, balance, code⟩

/-- The table in which Alice and Bob hold a thousand each. -/
def funded : Table :=
  ((∅ : Table).insertAccount alice (account 1000 [])).insertAccount bob (account 1000 [])

/-- A transaction over the funded table and contracts that hold a hundred each. -/
def withContracts (contracts : List (Address × List Op)) : Txn Table where
  base := contracts.foldl
    (fun t (a, ops) => t.insertAccount a (account 100 (Op.encodeAll ops))) funded

/-- A declaration of slots of the guarded contract's persistent storage. -/
def slots (keys : List Nat) : Declaration :=
  ⟨[⟨guarded, [.storage (keys.map fun k => ⟨BitVec.ofNat 256 k⟩)]⟩]⟩

/-- The guarded contract's frame when Alice calls it without value. -/
def frame (guard : FrameGuard) : Frame := ⟨guarded, alice, 0, false, 0, guard⟩

/-- Alice's transaction to a contract, without value. -/
def transaction (target : Address) : Transaction := ⟨alice, target, 0, gasLimit⟩

/-- Executes Alice's transaction to the guarded contract. -/
def execute (contracts : List (Address × List Op)) : EStateM.Result ExecError (Txn Table) Receipt :=
  (transaction guarded).execute ({} : GasSchedule).pricing ampleBudget (withContracts contracts)

end MutationGuard.Sample
