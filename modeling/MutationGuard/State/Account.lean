import MutationGuard.Serial

/-!
Accounts, the updates applied to them, and what a source of account state answers. An account that
was never written reads as zero balance, zero nonce, empty code and all-zero storage; a source may
also fail to answer.
-/

namespace MutationGuard

/-- Account code. -/
abbrev Code := Bytes

/-- A read or write that the state behind a transaction could not carry out. -/
structure Fault where
  /-- What went wrong, in the words of the failing source. -/
  text : String
  deriving DecidableEq, Inhabited

/-- The fields of an account besides its storage. -/
structure Account where
  nonce : UInt64 := 0
  balance : Word := 0
  code : Code := []
  deriving DecidableEq, Inhabited

instance : Serial Account :=
  ⟨fun a => Serial.serialize a.nonce ++ Serial.serialize a.balance ++ Serial.serialize a.code⟩

/-- The hash that identifies code. -/
def Code.hash (code : Code) : Hash := Sha256.digest code

/-- One update of a batch. -/
inductive Update where
  | balance (address : Address) (value : Word)
  | nonce (address : Address) (value : UInt64)
  | code (address : Address) (value : Code)
  /-- Sets a slot of persistent storage; zero clears it. -/
  | storage (address : Address) (key : Key) (value : Word)
  /-- Erases an account with all of its storage. -/
  | destroy (address : Address)

/-- Sources of account state. -/
class Source (σ : Type) where
  balance : σ → Address → Except Fault Word
  nonce : σ → Address → Except Fault UInt64
  code : σ → Address → Except Fault Code
  storage : σ → Address → Key → Except Fault Word

/-- Sources that can take a batch of updates, all of them in order or none. -/
class Sink (σ : Type) extends Source σ where
  applyBatch : σ → List Update → Except Fault σ

end MutationGuard
