import MutationGuard.State.Account

/-!
The writes a transaction has made but not yet committed. An overlay is a value: keeping one is
taking a snapshot, and putting it back is rolling back.
-/

namespace MutationGuard

/-- Pending writes on top of a source of account state. -/
structure Overlay where
  balances : Std.ExtTreeMap Address Word := ∅
  nonces : Std.ExtTreeMap Address UInt64 := ∅
  codes : Std.ExtTreeMap Address Code := ∅
  /-- Slots of persistent storage written since their account was last destroyed. -/
  storage : Std.ExtTreeMap Address (Std.ExtTreeMap Key Word) := ∅
  /-- Accounts that were destroyed, whose slots below no longer show. -/
  destroyed : Std.ExtTreeSet Address := ∅
  transient : Std.ExtTreeMap Address (Std.ExtTreeMap Key Word) := ∅

namespace Overlay

instance : EmptyCollection Overlay := ⟨{}⟩

instance : Inhabited Overlay := ⟨∅⟩

def setBalance (o : Overlay) (a : Address) (value : Word) : Overlay :=
  { o with balances := o.balances.insert a value }

def setNonce (o : Overlay) (a : Address) (value : UInt64) : Overlay :=
  { o with nonces := o.nonces.insert a value }

def setCode (o : Overlay) (a : Address) (value : Code) : Overlay :=
  { o with codes := o.codes.insert a value }

def setStorage (o : Overlay) (a : Address) (k : Key) (value : Word) : Overlay :=
  { o with storage := o.storage.insert a ((o.storage.getD a ∅).insert k value) }

def setTransient (o : Overlay) (a : Address) (k : Key) (value : Word) : Overlay :=
  { o with transient := o.transient.insert a ((o.transient.getD a ∅).insert k value) }

/-- The written value of a slot of persistent storage, if it was written. -/
def storage? (o : Overlay) (a : Address) (k : Key) : Option Word :=
  o.storage[a]?.bind (·[k]?)

/-- The value of a slot of transient storage. -/
def transientSlot (o : Overlay) (a : Address) (k : Key) : Word :=
  (o.transient[a]?.bind (·[k]?)).getD 0

/-- Erases the account, its code and its persistent storage. Transient storage stays. -/
def destroy (o : Overlay) (a : Address) : Overlay :=
  { o with
    balances := o.balances.insert a 0
    nonces := o.nonces.insert a 0
    codes := o.codes.insert a []
    storage := o.storage.erase a
    destroyed := o.destroyed.insert a }

/-- The writes as a batch. Erasures come first, so that writes made after one survive it. -/
def updates (o : Overlay) : List Update :=
  o.destroyed.toList.map .destroy ++
    o.balances.toList.map (fun (a, value) => .balance a value) ++
    o.nonces.toList.map (fun (a, value) => .nonce a value) ++
    o.codes.toList.map (fun (a, value) => .code a value) ++
    o.storage.toList.flatMap fun (a, slots) =>
      slots.toList.map fun (k, value) => .storage a k value

theorem storage?_setStorage (o : Overlay) (a b : Address) (k l : Key) (value : Word) :
    (o.setStorage a k value).storage? b l =
      if a = b ∧ k = l then some value else o.storage? b l := by
  simp only [setStorage, storage?, Std.ExtTreeMap.getElem?_insert,
    Std.LawfulEqOrd.compare_eq_iff_eq]
  by_cases hab : a = b
  · subst hab
    by_cases hkl : k = l
    · simp [hkl]
    · cases h : o.storage[a]? <;>
        simp [hkl, h, Std.ExtTreeMap.getElem?_insert, Std.ExtTreeMap.getD_eq_getD_getElem?]
  · simp [hab]

theorem storage?_destroy (o : Overlay) (a b : Address) (k : Key) :
    (o.destroy a).storage? b k = if a = b then none else o.storage? b k := by
  simp only [destroy, storage?, Std.ExtTreeMap.getElem?_erase, Std.LawfulEqOrd.compare_eq_iff_eq]
  split <;> rfl

theorem transientSlot_setTransient (o : Overlay) (a b : Address) (k l : Key) (value : Word) :
    (o.setTransient a k value).transientSlot b l =
      if a = b ∧ k = l then value else o.transientSlot b l := by
  simp only [setTransient, transientSlot, Std.ExtTreeMap.getElem?_insert,
    Std.LawfulEqOrd.compare_eq_iff_eq]
  by_cases hab : a = b
  · subst hab
    by_cases hkl : k = l
    · simp [hkl]
    · cases h : o.transient[a]? <;>
        simp [hkl, h, Std.ExtTreeMap.getElem?_insert, Std.ExtTreeMap.getD_eq_getD_getElem?]
  · simp [hab]

end Overlay
end MutationGuard
