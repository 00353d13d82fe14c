import MutationGuard.Invariant
import MutationGuard.State.Outage
import MutationGuard.State.Table

/-!
The world that scripts act on: a transaction over an account table whose services may go out, token
ledgers that no transaction covers, and named snapshots. `World.view` shows it at chosen places.
-/

namespace MutationGuard

/-- Token contracts as ledgers. -/
structure Tokens where
  /-- What each account holds of each fungible token, by token. -/
  balances : Std.ExtTreeMap Address (Std.ExtTreeMap Address Word) := ∅
  /-- Who owns each token of a non-fungible kind, by contract. -/
  owners : Std.ExtTreeMap Address (Std.ExtTreeMap Word Address) := ∅

namespace Tokens

/-- What the account holds of a fungible token, if its ledger says. -/
def balance? (t : Tokens) (token account : Address) : Option Word :=
  t.balances[token]?.bind (·[account]?)

/-- Who owns a token, if its ledger says. -/
def owner? (t : Tokens) (id : TokenId) : Option Address :=
  t.owners[id.contract]?.bind (·[id.number]?)

/-- How many tokens of a contract the account owns. -/
def ownedCount (t : Tokens) (contract account : Address) : Nat :=
  ((t.owners.getD contract ∅).toList.filter fun (_, owner) => owner = account).length

def setBalance (t : Tokens) (token account : Address) (value : Word) : Tokens :=
  { t with balances := t.balances.insert token ((t.balances.getD token ∅).insert account value) }

def setOwner (t : Tokens) (id : TokenId) (owner : Address) : Tokens :=
  { t with owners :=
      t.owners.insert id.contract ((t.owners.getD id.contract ∅).insert id.number owner) }

/-- Removes a token from its ledger. -/
def burn (t : Tokens) (id : TokenId) : Tokens :=
  { t with owners := t.owners.insert id.contract ((t.owners.getD id.contract ∅).erase id.number) }

end Tokens

/-- The world that scripts act on. -/
structure World where
  txn : Txn (Unreliable Table)
  tokens : Tokens := {}
  snapshots : List (String × Overlay) := []

namespace World

/-- A world over a table, with nothing pending. -/
def ofTable (table : Table) : World where
  txn := ⟨⟨table, []⟩, ∅⟩

instance : Source World where
  balance w := w.txn.balance
  nonce w := w.txn.nonce
  code w := w.txn.code
  storage w := w.txn.storage

instance : TransientSource World where
  transient w a k := .ok (w.txn.transient a k)

instance : TokenSource World where
  erc20Balance w token account := do
    w.txn.base.outages.check .erc20 token
    return (w.tokens.balance? token account).getD 0
  erc721Balance w token account := do
    w.txn.base.outages.check .erc721 token
    return BitVec.ofNat 256 (w.tokens.ownedCount token account)
  erc721Owner w id :=
    match w.tokens.owner? id with
    | some owner => .ok owner
    | none => .error ⟨"token " ++ id.number.decimal ++ " does not exist"⟩

end World

/-- The places that a view shows. -/
structure Watch where
  addresses : List Address
  keys : List Key

/-- What a view shows of one account: every field that is not zero or empty, or why it cannot be
read. -/
structure AccountView where
  balance : Option (Except Fault Word)
  nonce : Option (Except Fault UInt64)
  code : Option (Except Fault Code)
  storage : List (Key × Except Fault Word)
  transient : List (Key × Word)

namespace AccountView

/-- The outcome of a read, unless the value read is of no interest. -/
def shown {α : Type} (blank : α → Bool) : Except Fault α → Option (Except Fault α)
  | .ok a => if blank a then none else some (.ok a)
  | .error fault => some (.error fault)

/-- An account of a source, seen at the given keys. -/
def ofSource {σ : Type} [Source σ] (source : σ) (keys : List Key) (a : Address) : AccountView where
  balance := shown (· = 0) (Source.balance source a)
  nonce := shown (· = 0) (Source.nonce source a)
  code := shown (·.isEmpty) (Source.code source a)
  storage := keys.filterMap fun k =>
    (shown (· = 0) (Source.storage source a k)).map (k, ·)
  transient := []

end AccountView

/-- What a view shows, by address. -/
abbrev View := List (Address × AccountView)

namespace World

/-- The world as the transaction sees it. -/
def view (w : World) (watch : Watch) : View :=
  watch.addresses.map fun a =>
    (a, { AccountView.ofSource w watch.keys a with
      transient := (watch.keys.map fun k => (k, w.txn.transient a k)).filter (·.2 ≠ 0) })

/-- The state behind the transaction. -/
def viewBase (w : World) (watch : Watch) : View :=
  watch.addresses.map fun a => (a, .ofSource w.txn.base watch.keys a)

end World
end MutationGuard
