import MutationGuard.State.Txn

/-!
Transactions as proofs see them: what putting back a snapshot gives, and what a transfer that was
not refused has written.
-/

namespace MutationGuard.Txn

variable {σ : Type}

/-- Nothing but the pending writes has to be put back, as long as the source is the same. -/
theorem rollbackTo_snapshot {t t' : Txn σ} (h : t'.base = t.base) :
    t'.rollbackTo t.snapshot = t := by
  cases t
  cases t'
  cases h
  rfl

variable [Source σ]

/-- What a transfer that was not refused has done. -/
inductive Transferred (t : Txn σ) (sender recipient : Address) (value : Word) : Txn σ → Prop
  /-- There was nothing to move. -/
  | idle (h : sender = recipient ∨ value = 0) : Transferred t sender recipient value t
  | moved {had left held now : Word} (h : ¬ (sender = recipient ∨ value = 0))
    (hs : t.balance sender = .ok had) (hl : had.sub? value = some left)
    (hr : t.balance recipient = .ok held) (hn : held.add? value = some now) :
    Transferred t sender recipient value ((t.setBalance sender left).setBalance recipient now)

theorem transferred_of_transfer? {t t' : Txn σ} {sender recipient : Address} {value : Word}
    (ht : t.transfer? sender recipient value = .ok (some t')) :
    Transferred t sender recipient value t' := by
  simp only [transfer?, bind, Except.bind] at ht
  cases hs : t.balance sender with
  | error fault => rw [hs] at ht; cases ht
  | ok had =>
    cases hl : had.sub? value with
    | none => simp only [hs, hl] at ht; cases ht
    | some left =>
      simp only [hs, hl] at ht
      by_cases h : sender = recipient ∨ value = 0
      · rw [if_pos h] at ht
        cases ht
        exact .idle h
      · rw [if_neg h] at ht
        cases hr : t.balance recipient with
        | error fault => rw [hr] at ht; cases ht
        | ok held =>
          cases hn : held.add? value with
          | none => simp only [hr, hn] at ht; cases ht
          | some now =>
            simp only [hr, hn] at ht
            cases ht
            exact .moved h hs hl hr hn

/-- One write to the transaction that erases no account. -/
inductive Write (t : Txn σ) : Txn σ → Prop
  | storage (a : Address) (k : Key) (value : Word) : Write t (t.setStorage a k value)
  | transient (a : Address) (k : Key) (value : Word) : Write t (t.setTransient a k value)
  | nonce (a : Address) (value : UInt64) : Write t (t.setNonce a value)
  | code (a : Address) (value : Code) : Write t (t.setCode a value)
  | transfer {sender recipient : Address} {value : Word} {t' : Txn σ}
    (h : t.transfer? sender recipient value = .ok (some t')) : Write t t'

theorem base_of_transfer? {t t' : Txn σ} {sender recipient : Address} {value : Word}
    (h : t.transfer? sender recipient value = .ok (some t')) : t'.base = t.base := by
  cases transferred_of_transfer? h <;> rfl

/-- Whether a transfer is refused or not, it only adds to the pending writes. -/
theorem base_getD_of_transfer? {t : Txn σ} {moved : Option (Txn σ)} {sender recipient : Address}
    {value : Word} (h : t.transfer? sender recipient value = .ok moved) :
    (moved.getD t).base = t.base := by
  cases moved with
  | none => rfl
  | some t' => exact base_of_transfer? h

/-- Writes stay pending. -/
theorem Write.base {t t' : Txn σ} (h : Write t t') : t'.base = t.base := by
  cases h with
  | storage | transient | nonce | code => rfl
  | transfer h => exact base_of_transfer? h

/-- A relation between an earlier and a later transaction that doing one thing after the other and
rolling back keep. -/
structure Composes (R : Txn σ → Txn σ → Prop) : Prop where
  refl (t : Txn σ) : R t t
  trans {t t' t'' : Txn σ} : R t t' → R t' t'' → R t t''
  rollback {t t' : Txn σ} : R t t' → R t (t'.rollbackTo t.snapshot)

/-- The same, if every write keeps it as well. -/
structure Kept (R : Txn σ → Txn σ → Prop) : Prop extends Composes R where
  write {t t' : Txn σ} : Write t t' → R t t'

end MutationGuard.Txn
