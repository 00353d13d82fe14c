import MutationGuard.State.Table

/-!
What a batch of updates leaves in a table. An update writes to some of what can be read and leaves
the rest alone. So after a batch, what is read is the last value that an update of the batch wrote
there, and what it was before if none did (`read_foldl_apply`).
-/

namespace MutationGuard

namespace Update

/-- The balance that the update writes to an address, if it writes one. -/
def balance? (a : Address) : Update → Option Word
  | .balance b value => if b = a then some value else none
  | .destroy b => if b = a then some 0 else none
  | _ => none

/-- The nonce that the update writes to an address, if it writes one. -/
def nonce? (a : Address) : Update → Option UInt64
  | .nonce b value => if b = a then some value else none
  | .destroy b => if b = a then some 0 else none
  | _ => none

/-- The code that the update writes to an address, if it writes one. -/
def code? (a : Address) : Update → Option Code
  | .code b value => if b = a then some value else none
  | .destroy b => if b = a then some [] else none
  | _ => none

/-- The value that the update writes to a slot, if it writes one. -/
def slot? (a : Address) (k : Key) : Update → Option Word
  | .storage b l value => if b = a ∧ l = k then some value else none
  | .destroy b => if b = a then some 0 else none
  | _ => none

end Update

namespace Table

theorem account_insertSlot (t : Table) (a b : Address) (k : Key) (value : Word) :
    (t.insertSlot a k value).account b = t.account b := by
  unfold insertSlot
  split <;> rfl

theorem balance_apply (t : Table) (u : Update) (a : Address) :
    ((t.apply u).account a).balance = (u.balance? a).getD (t.account a).balance := by
  cases u with
  | storage b k value => exact congrArg Account.balance (t.account_insertSlot b a k value)
  | destroy b =>
    rw [apply, account_destroy, Update.balance?]
    split <;> rfl
  | balance b value | nonce b value | code b value =>
    simp only [apply, account_insertAccount, Update.balance?]
    split <;> simp_all

theorem nonce_apply (t : Table) (u : Update) (a : Address) :
    ((t.apply u).account a).nonce = (u.nonce? a).getD (t.account a).nonce := by
  cases u with
  | storage b k value => exact congrArg Account.nonce (t.account_insertSlot b a k value)
  | destroy b =>
    rw [apply, account_destroy, Update.nonce?]
    split <;> rfl
  | balance b value | nonce b value | code b value =>
    simp only [apply, account_insertAccount, Update.nonce?]
    split <;> simp_all

theorem code_apply (t : Table) (u : Update) (a : Address) :
    ((t.apply u).account a).code = (u.code? a).getD (t.account a).code := by
  cases u with
  | storage b k value => exact congrArg Account.code (t.account_insertSlot b a k value)
  | destroy b =>
    rw [apply, account_destroy, Update.code?]
    split <;> rfl
  | balance b value | nonce b value | code b value =>
    simp only [apply, account_insertAccount, Update.code?]
    split <;> simp_all

theorem slot_apply (t : Table) (u : Update) (a : Address) (k : Key) :
    (t.apply u).slot a k = (u.slot? a k).getD (t.slot a k) := by
  cases u with
  | balance | nonce | code => rfl
  | storage b l value =>
    rw [apply, slot_insertSlot, Update.slot?]
    split <;> rfl
  | destroy b =>
    rw [apply, slot_destroy, Update.slot?]
    split <;> rfl

/-- If what is read after an update is the value that the update wrote there, or what it was before
where it wrote none, then what is read after a batch is the last value written. -/
theorem read_foldl_apply {β : Type} (read : Table → β) (written : Update → Option β)
    (h : ∀ t u, read (t.apply u) = (written u).getD (read t)) (updates : List Update) (t : Table) :
    read (updates.foldl apply t) = (updates.filterMap written).getLast?.getD (read t) := by
  induction updates generalizing t with
  | nil => rfl
  | cons u updates ih =>
    rw [List.foldl_cons, ih, h]
    cases hu : written u with
    | none => rw [List.filterMap_cons_none hu, Option.getD_none]
    | some value =>
      rw [List.filterMap_cons_some hu, List.getLast?_cons]
      cases (updates.filterMap written).getLast? <;> rfl

end Table
end MutationGuard
