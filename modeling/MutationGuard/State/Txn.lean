import MutationGuard.State.Overlay

/-!
A transaction: pending writes over a source of account state. Reads see the pending writes first and
go to the source only for what was not written. Nothing reaches the source before `commit`.
-/

namespace MutationGuard

/-- A transaction over a source of account state. -/
structure Txn (σ : Type) where
  base : σ
  pending : Overlay := ∅

namespace Txn

variable {σ : Type}

/-- The pending writes as they stand. -/
def snapshot (t : Txn σ) : Overlay := t.pending

/-- Puts the pending writes back to an earlier snapshot. -/
def rollbackTo (t : Txn σ) (snapshot : Overlay) : Txn σ := { t with pending := snapshot }

/-- Discards every pending write. -/
def rollback (t : Txn σ) : Txn σ := t.rollbackTo ∅

def setBalance (t : Txn σ) (a : Address) (value : Word) : Txn σ :=
  { t with pending := t.pending.setBalance a value }

def setNonce (t : Txn σ) (a : Address) (value : UInt64) : Txn σ :=
  { t with pending := t.pending.setNonce a value }

def setCode (t : Txn σ) (a : Address) (value : Code) : Txn σ :=
  { t with pending := t.pending.setCode a value }

def setStorage (t : Txn σ) (a : Address) (k : Key) (value : Word) : Txn σ :=
  { t with pending := t.pending.setStorage a k value }

def setTransient (t : Txn σ) (a : Address) (k : Key) (value : Word) : Txn σ :=
  { t with pending := t.pending.setTransient a k value }

/-- Erases an account, its code and its persistent storage. -/
def destroy (t : Txn σ) (a : Address) : Txn σ :=
  { t with pending := t.pending.destroy a }

/-- The value of a slot of transient storage, which never leaves the transaction. -/
def transient (t : Txn σ) (a : Address) (k : Key) : Word := t.pending.transientSlot a k

theorem transient_setTransient (t : Txn σ) (a b : Address) (k l : Key) (value : Word) :
    (t.setTransient a k value).transient b l =
      if a = b ∧ k = l then value else t.transient b l :=
  Overlay.transientSlot_setTransient ..

section Reads

variable [Source σ]

def balance (t : Txn σ) (a : Address) : Except Fault Word :=
  match t.pending.balances[a]? with
  | some value => .ok value
  | none => Source.balance t.base a

def nonce (t : Txn σ) (a : Address) : Except Fault UInt64 :=
  match t.pending.nonces[a]? with
  | some value => .ok value
  | none => Source.nonce t.base a

def code (t : Txn σ) (a : Address) : Except Fault Code :=
  match t.pending.codes[a]? with
  | some value => .ok value
  | none => Source.code t.base a

/-- The hash of an account's code. -/
def codeHash (t : Txn σ) (a : Address) : Except Fault Hash := Code.hash <$> t.code a

/-- A slot of persistent storage. The slots that a destroyed account had below no longer show. -/
def storage (t : Txn σ) (a : Address) (k : Key) : Except Fault Word :=
  match t.pending.storage? a k with
  | some value => .ok value
  | none => if t.pending.destroyed.contains a then .ok 0 else Source.storage t.base a k

theorem balance_setBalance (t : Txn σ) (a b : Address) (value : Word) :
    (t.setBalance a value).balance b = if a = b then .ok value else t.balance b := by
  simp only [balance, setBalance, Overlay.setBalance, Std.ExtTreeMap.getElem?_insert,
    Std.LawfulEqOrd.compare_eq_iff_eq]
  by_cases hab : a = b <;> simp [hab]

theorem nonce_setNonce (t : Txn σ) (a b : Address) (value : UInt64) :
    (t.setNonce a value).nonce b = if a = b then .ok value else t.nonce b := by
  simp only [nonce, setNonce, Overlay.setNonce, Std.ExtTreeMap.getElem?_insert,
    Std.LawfulEqOrd.compare_eq_iff_eq]
  by_cases hab : a = b <;> simp [hab]

theorem code_setCode (t : Txn σ) (a b : Address) (value : Code) :
    (t.setCode a value).code b = if a = b then .ok value else t.code b := by
  simp only [code, setCode, Overlay.setCode, Std.ExtTreeMap.getElem?_insert,
    Std.LawfulEqOrd.compare_eq_iff_eq]
  by_cases hab : a = b <;> simp [hab]

theorem storage_setStorage (t : Txn σ) (a b : Address) (k l : Key) (value : Word) :
    (t.setStorage a k value).storage b l =
      if a = b ∧ k = l then .ok value else t.storage b l := by
  simp only [storage, setStorage, Overlay.storage?_setStorage]
  by_cases h : a = b ∧ k = l
  · simp [h]
  · simp [h, Overlay.setStorage]

theorem balance_destroy (t : Txn σ) (a b : Address) :
    (t.destroy a).balance b = if a = b then .ok 0 else t.balance b :=
  balance_setBalance t a b 0

theorem nonce_destroy (t : Txn σ) (a b : Address) :
    (t.destroy a).nonce b = if a = b then .ok 0 else t.nonce b :=
  nonce_setNonce t a b 0

theorem code_destroy (t : Txn σ) (a b : Address) :
    (t.destroy a).code b = if a = b then .ok [] else t.code b :=
  code_setCode t a b []

theorem storage_destroy (t : Txn σ) (a b : Address) (k : Key) :
    (t.destroy a).storage b k = if a = b then .ok 0 else t.storage b k := by
  simp only [storage, destroy, Overlay.storage?_destroy]
  by_cases hab : a = b
  · simp [hab, Overlay.destroy]
  · simp [hab, Overlay.destroy, Std.ExtTreeSet.contains_insert]

/-- Moves value between accounts. A transfer is refused, and writes nothing, if the sender cannot
cover it or the recipient's balance would pass the largest word. -/
def transfer? (t : Txn σ) (sender recipient : Address) (value : Word) :
    Except Fault (Option (Txn σ)) := do
  match (← t.balance sender).sub? value with
  | none => return none
  | some senderLeft =>
    if sender = recipient ∨ value = 0 then return some t
    match (← t.balance recipient).add? value with
    | none => return none
    | some recipientNow =>
      return some ((t.setBalance sender senderLeft).setBalance recipient recipientNow)

end Reads

/-- Hands a batch to the source. If it takes the batch, the transaction starts over with nothing
pending; if it fails, the writes stay pending. -/
def commitBatch [Sink σ] (t : Txn σ) (batch : List Update) : Except Fault (Txn σ) := do
  return ⟨← Sink.applyBatch t.base batch, ∅⟩

/-- Hands the pending writes to the source. -/
def commit [Sink σ] (t : Txn σ) : Except Fault (Txn σ) := t.commitBatch t.pending.updates

end Txn

instance {σ : Type} [Source σ] : Source (Txn σ) where
  balance := Txn.balance
  nonce := Txn.nonce
  code := Txn.code
  storage := Txn.storage

end MutationGuard
