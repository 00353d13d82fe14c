import MutationGuard.Proofs.Txn

/-!
A transaction in the hands of a client, who writes to it, moves value, takes snapshots and goes back
to them, in any order. Any snapshot taken may be gone back to, also one taken before another that was
gone back to, and as often as the client likes.
-/

namespace MutationGuard.Txn

/-- What a client can ask of a transaction. -/
inductive Request where
  | setBalance (a : Address) (value : Word)
  | setNonce (a : Address) (value : UInt64)
  | setCode (a : Address) (value : Code)
  | setStorage (a : Address) (k : Key) (value : Word)
  | setTransient (a : Address) (k : Key) (value : Word)
  | destroy (a : Address)
  | transfer (sender recipient : Address) (value : Word)
  | snapshot
  /-- Goes back to a snapshot, by its place among those taken. Where there is none yet, nothing
  happens. -/
  | rollbackTo (place : Nat)
  | rollback

/-- A transaction in use. -/
structure Session (σ : Type) where
  txn : Txn σ
  /-- The snapshots taken, first to last. -/
  snapshots : List Overlay := []
  /-- Whether each transfer asked for was made, or how it failed, first to last. -/
  transfers : List (Except Fault Bool) := []

namespace Session

variable {σ : Type}

/-- A transaction that nothing was asked of yet. -/
def start (base : σ) : Session σ := { txn := ⟨base, ∅⟩ }

variable [Source σ]

/-- The session after one request. A transfer that is refused or fails leaves the transaction as it
is. -/
def step (s : Session σ) : Request → Session σ
  | .setBalance a value => { s with txn := s.txn.setBalance a value }
  | .setNonce a value => { s with txn := s.txn.setNonce a value }
  | .setCode a value => { s with txn := s.txn.setCode a value }
  | .setStorage a k value => { s with txn := s.txn.setStorage a k value }
  | .setTransient a k value => { s with txn := s.txn.setTransient a k value }
  | .destroy a => { s with txn := s.txn.destroy a }
  | .transfer sender recipient value =>
    match s.txn.transfer? sender recipient value with
    | .ok (some moved) => { s with txn := moved, transfers := s.transfers ++ [.ok true] }
    | .ok none => { s with transfers := s.transfers ++ [.ok false] }
    | .error fault => { s with transfers := s.transfers ++ [.error fault] }
  | .snapshot => { s with snapshots := s.snapshots ++ [s.txn.snapshot] }
  | .rollbackTo place =>
    match s.snapshots[place]? with
    | some snapshot => { s with txn := s.txn.rollbackTo snapshot }
    | none => s
  | .rollback => { s with txn := s.txn.rollback }

/-- The session after requests, made in order. -/
def run (s : Session σ) (requests : List Request) : Session σ := requests.foldl step s

end Session
end MutationGuard.Txn
