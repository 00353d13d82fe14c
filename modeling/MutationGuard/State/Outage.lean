import MutationGuard.State.Account

/-!
Sources with outages. While a service is out at an address, what it is asked there fails with a text
that names both; everything else goes through to the source underneath.
-/

namespace MutationGuard

/-- What may be out of service: a kind of read, the taking of batches, or a kind of token ledger. -/
inductive Service where
  | balance
  | nonce
  | code
  | storage
  | commit
  | erc20
  | erc721
  deriving DecidableEq, Repr

namespace Service

def name : Service → String
  | balance => "balance"
  | nonce => "nonce"
  | code => "code"
  | storage => "storage"
  | commit => "commit"
  | erc20 => "erc20"
  | erc721 => "erc721"

/-- The service of a name. -/
def ofName? (s : String) : Option Service :=
  [balance, nonce, code, storage, commit, erc20, erc721].find? (·.name = s)

end Service

/-- The services that are out, each at an address. -/
abbrev Outages := List (Service × Address)

namespace Outages

/-- Fails if the service is out at the address. -/
def check (outages : Outages) (service : Service) (address : Address) : Except Fault Unit :=
  if outages.contains (service, address) then
    .error ⟨"broken " ++ service.name ++ " " ++ address.hex⟩
  else .ok ()

end Outages

/-- A source of account state, some services of which may be out. -/
structure Unreliable (σ : Type) where
  inner : σ
  outages : Outages := []

namespace Unreliable

variable {σ : Type}

/-- Takes a service out; tells whether it was in before. -/
def takeOut (u : Unreliable σ) (service : Service) (address : Address) : Bool × Unreliable σ :=
  if u.outages.contains (service, address) then (false, u)
  else (true, { u with outages := (service, address) :: u.outages })

/-- Puts a service back; tells whether it was out before. -/
def restore (u : Unreliable σ) (service : Service) (address : Address) : Bool × Unreliable σ :=
  (u.outages.contains (service, address),
    { u with outages := u.outages.filter (· ≠ (service, address)) })

/-- Batches are taken for no address in particular; their outage is noted at the zero address. -/
instance [Sink σ] : Sink (Unreliable σ) where
  balance u a := do
    u.outages.check .balance a
    Source.balance u.inner a
  nonce u a := do
    u.outages.check .nonce a
    Source.nonce u.inner a
  code u a := do
    u.outages.check .code a
    Source.code u.inner a
  storage u a k := do
    u.outages.check .storage a
    Source.storage u.inner a k
  applyBatch u updates := do
    u.outages.check .commit ⟨0⟩
    return { u with inner := ← Sink.applyBatch u.inner updates }

end Unreliable
end MutationGuard
