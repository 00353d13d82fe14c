import MutationGuard.Invariant.Guard
import MutationGuard.State.Txn

/-!
Invariants as data. An invariant names the state it is about and how that state may change;
`Invariant.guard` turns it into a guard around an operation on any world that can be asked for
account state, transient storage and token ledgers.
-/

namespace MutationGuard

/-- Worlds with transient storage. -/
class TransientSource (W : Type) where
  transient : W → Address → Key → Except Fault Word

/-- Worlds with token contracts, whose answers are taken at their word. -/
class TokenSource (W : Type) where
  /-- What the account holds of a fungible token. -/
  erc20Balance : W → (token account : Address) → Except Fault Word
  /-- How many of a non-fungible token the account owns. -/
  erc721Balance : W → (token account : Address) → Except Fault Word
  /-- Who owns a token of a non-fungible kind. -/
  erc721Owner : W → TokenId → Except Fault Address

instance {σ : Type} : TransientSource (Txn σ) where
  transient t a k := .ok (t.transient a k)

/-- A place in the world that holds a number. -/
inductive Position where
  | balance (account : Address)
  | slot (account : Address) (key : Key)
  | transientSlot (account : Address) (key : Key)
  | erc20 (account token : Address)
  | erc721 (account token : Address)
  deriving DecidableEq

namespace Accessor

/-- Reads numbers. -/
def number {W : Type} [Source W] [TransientSource W] [TokenSource W] :
    Accessor W Position Word where
  read w
    | .balance account => Source.balance w account
    | .slot account key => Source.storage w account key
    | .transientSlot account key => TransientSource.transient w account key
    | .erc20 account token => TokenSource.erc20Balance w token account
    | .erc721 account token => TokenSource.erc721Balance w token account

/-- Reads the hash of an account's code. -/
def codeHash {W : Type} [Source W] : Accessor W Address Hash where
  read w account := Code.hash <$> Source.code w account

/-- Reads the owner of a token. -/
def owner {W : Type} [TokenSource W] : Accessor W TokenId Address where
  read := TokenSource.erc721Owner

end Accessor

/-- The positions that a check on the subject reads, in order. -/
def Subject.positions : Subject → List Position
  | .balance account => [.balance account]
  | .storage account keys => keys.map (.slot account)
  | .transientStorage account keys => keys.map (.transientSlot account)
  | .balances accounts => accounts.map .balance
  | .erc20 account tokens => tokens.map (.erc20 account)
  | .erc721 account tokens => tokens.map (.erc721 account)

/-- What an operation has to leave intact. -/
inductive Invariant where
  /-- Every position of the subject changes as the constraint and its delta say. -/
  | changes (subject : Subject) (constraint : Constraint) (deltas : List Word)
  /-- Every position of the subject holds its expected value afterwards. -/
  | holds (subject : Subject) (expected : List Word)
  /-- Every token keeps its owner. -/
  | owners (tokens : List TokenId)
  /-- Every token has its expected owner afterwards. -/
  | ownedBy (tokens : List TokenId) (expected : List Address)
  /-- The account keeps its code. -/
  | code (account : Address)
  /-- The account keeps its nonce. No guard supports this. -/
  | nonce (account : Address)

namespace Invariant

/-- The operation under the guard of the invariant. -/
def guard {W α : Type} [Source W] [TransientSource W] [TokenSource W] (operation : Guarded W α) :
    Invariant → Guarded W α
  | changes subject c deltas =>
    Guarded.deltas .number subject.positions c deltas (.violated subject) operation
  | holds subject expected =>
    Guarded.equals .number subject.positions expected (.violated subject) operation
  | owners tokens => Guarded.owners .owner tokens (.ownersChanged tokens) operation
  | ownedBy tokens expected =>
    Guarded.ownersEqual .owner tokens expected (.ownersChanged tokens) operation
  | code account => Guarded.hash .codeHash account operation
  | nonce _ => throw .unsupported

/-- The account's balance meets the expectation. -/
def balance (account : Address) (e : Expectation) : Invariant :=
  changes (.balance account) e.constraint [e.delta]

/-- The account's balance is `expected` afterwards. -/
def balanceIs (account : Address) (expected : Word) : Invariant :=
  holds (.balance account) [expected]

end Invariant
end MutationGuard
