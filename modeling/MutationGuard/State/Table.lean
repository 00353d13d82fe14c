import MutationGuard.State.Account

/-!
Account state held in two tables: the accounts, and the slots of each address that are not zero. An
address without such slots has no entry in the second table.
-/

namespace MutationGuard

/-- The slots of one address. -/
abbrev Slots := Std.ExtTreeMap Key Word

/-- Accounts and their storage. -/
structure Table where
  accounts : Std.ExtTreeMap Address Account
  storage : Std.ExtTreeMap Address Slots

namespace Table

/-- The table without accounts and slots. -/
def empty : Table := ⟨∅, ∅⟩

instance : EmptyCollection Table := ⟨empty⟩

instance : Inhabited Table := ⟨∅⟩

/-- The account at an address; the default one if there is none. -/
def account (t : Table) (a : Address) : Account := t.accounts.getD a {}

/-- The slots of an address that are not zero. -/
def slots (t : Table) (a : Address) : Slots := t.storage.getD a ∅

/-- The value of a slot. -/
def slot (t : Table) (a : Address) (k : Key) : Word := (t.slots a).getD k 0

/-- The number of slots of an address that are not zero. -/
def slotCount (t : Table) (a : Address) : Nat := (t.slots a).size

/-- Puts an account in place of what was there. Its storage stays as it is. -/
def insertAccount (t : Table) (a : Address) (account : Account) : Table :=
  { t with accounts := t.accounts.insert a account }

/-- Sets a slot. Zero clears it, and an address that loses its last slot loses its entry. -/
def insertSlot (t : Table) (a : Address) (k : Key) (value : Word) : Table :=
  if value = 0 then
    let left := (t.slots a).erase k
    { t with storage := if left.isEmpty then t.storage.erase a else t.storage.insert a left }
  else
    { t with storage := t.storage.insert a ((t.slots a).insert k value) }

/-- Erases an account and its storage. -/
def destroy (t : Table) (a : Address) : Table :=
  ⟨t.accounts.erase a, t.storage.erase a⟩

/-- The table after one update. -/
def apply (t : Table) : Update → Table
  | .balance a value => t.insertAccount a { t.account a with balance := value }
  | .nonce a value => t.insertAccount a { t.account a with nonce := value }
  | .code a value => t.insertAccount a { t.account a with code := value }
  | .storage a k value => t.insertSlot a k value
  | .destroy a => t.destroy a

theorem account_insertAccount (t : Table) (a b : Address) (account : Account) :
    (t.insertAccount a account).account b = if a = b then account else t.account b := by
  simp only [insertAccount, Table.account, Std.ExtTreeMap.getD_insert,
    Std.LawfulEqOrd.compare_eq_iff_eq]

theorem account_destroy (t : Table) (a b : Address) :
    (t.destroy a).account b = if a = b then {} else t.account b := by
  simp only [destroy, Table.account, Std.ExtTreeMap.getD_erase,
    Std.LawfulEqOrd.compare_eq_iff_eq]

theorem slot_destroy (t : Table) (a b : Address) (k : Key) :
    (t.destroy a).slot b k = if a = b then 0 else t.slot b k := by
  simp only [destroy, slot, slots, Std.ExtTreeMap.getD_erase, Std.LawfulEqOrd.compare_eq_iff_eq]
  split
  · exact Std.ExtTreeMap.getD_empty
  · rfl

/-- The slots of an address after a slot was set. -/
theorem slots_insertSlot (t : Table) (a b : Address) (k : Key) (value : Word) :
    (t.insertSlot a k value).slots b =
      if a = b then
        if value = 0 then (t.slots a).erase k else (t.slots a).insert k value
      else t.slots b := by
  by_cases hv : value = 0
  · by_cases hab : a = b
    · subst hab
      by_cases he : ((t.slots a).erase k).isEmpty
      · have hempty : (t.slots a).erase k = ∅ := Std.ExtTreeMap.isEmpty_iff.1 he
        simp [insertSlot, slots, hv] at hempty ⊢
        simp [hempty]
      · simp only [slots, hv] at he ⊢
        simp [insertSlot, slots, he]
    · simp only [insertSlot, hv, if_true, hab, if_false]
      split <;> simp [slots, Std.ExtTreeMap.getD_erase, Std.ExtTreeMap.getD_insert, hab]
  · simp only [insertSlot, hv, if_false, slots, Std.ExtTreeMap.getD_insert,
      Std.LawfulEqOrd.compare_eq_iff_eq]

theorem slot_insertSlot (t : Table) (a b : Address) (k l : Key) (value : Word) :
    (t.insertSlot a k value).slot b l = if a = b ∧ k = l then value else t.slot b l := by
  rw [slot, slots_insertSlot]
  by_cases hab : a = b
  · subst hab
    by_cases hv : value = 0
    · subst hv
      by_cases hkl : k = l <;> simp [slot, hkl, Std.ExtTreeMap.getD_erase]
    · rw [if_pos rfl, if_neg hv]
      by_cases hkl : k = l <;> simp [slot, hkl, Std.ExtTreeMap.getD_insert]
  · simp [slot, hab]

instance : Sink Table where
  balance t a := .ok (t.account a).balance
  nonce t a := .ok (t.account a).nonce
  code t a := .ok (t.account a).code
  storage t a k := .ok (t.slot a k)
  applyBatch t updates := .ok (updates.foldl apply t)

end Table
end MutationGuard
