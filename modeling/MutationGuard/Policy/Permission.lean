import MutationGuard.Policy.Basic

/-!
Declarations resolved to what may be mutated. Entries apply in order, so for one address and
category the last one wins, also across repeated grants. Sets of permissions are extensional: two
sets that name the same addresses with the same permissions are equal.
-/

namespace MutationGuard

/-- The slots that may be written, in ascending order. -/
abbrev SlotSet := Std.ExtTreeSet Key

/-- The mutations permitted on one address. A storage category without a slot set denies every
write; with one, the listed slots alone may be written. -/
structure AccountPermissions where
  code : Bool := false
  nonce : Bool := false
  balance : Bool := false
  storage : Option SlotSet := none
  transientStorage : Option SlotSet := none
  deriving DecidableEq

namespace AccountPermissions

/-- Nothing is permitted. -/
def denied : AccountPermissions := {}

/-- The permissions after one more entry. -/
def apply (p : AccountPermissions) (e : Entry) : AccountPermissions :=
  let slots : Option SlotSet := if e.allowed then some (Std.ExtTreeSet.ofList e.slots) else none
  match e.category with
  | .code => { p with code := e.allowed }
  | .nonce => { p with nonce := e.allowed }
  | .balance => { p with balance := e.allowed }
  | .storage => { p with storage := slots }
  | .transientStorage => { p with transientStorage := slots }

/-- Whether the category may be mutated; for a storage category, whether it has a slot set. -/
def allows (p : AccountPermissions) : Category → Bool
  | .code => p.code
  | .nonce => p.nonce
  | .balance => p.balance
  | .storage => p.storage.isSome
  | .transientStorage => p.transientStorage.isSome

/-- Whether the slot of persistent storage may be written. -/
def allowsSlot (p : AccountPermissions) (k : Key) : Bool :=
  p.storage.any (·.contains k)

/-- Whether the slot of transient storage may be written. -/
def allowsTransientSlot (p : AccountPermissions) (k : Key) : Bool :=
  p.transientStorage.any (·.contains k)

/-- The slots in both sets, where both are there. -/
def commonSlots : Option SlotSet → Option SlotSet → Option SlotSet
  | some a, some b => some (a ∩ b)
  | _, _ => none

/-- What both permit. -/
def intersect (p q : AccountPermissions) : AccountPermissions where
  code := p.code && q.code
  nonce := p.nonce && q.nonce
  balance := p.balance && q.balance
  storage := commonSlots p.storage q.storage
  transientStorage := commonSlots p.transientStorage q.transientStorage

end AccountPermissions

/-- The mutations that a frame may perform, by address. -/
structure PermissionSet where
  accounts : Std.ExtTreeMap Address AccountPermissions
  deriving DecidableEq

namespace PermissionSet

/-- The set that names no address. -/
def empty : PermissionSet := ⟨∅⟩

instance : EmptyCollection PermissionSet := ⟨empty⟩

instance : Inhabited PermissionSet := ⟨∅⟩

/-- The permissions of an address, if the set names it. -/
def get? (s : PermissionSet) (a : Address) : Option AccountPermissions := s.accounts[a]?

/-- Whether the set names no address. -/
def isEmpty (s : PermissionSet) : Bool := s.accounts.isEmpty

/-- The set after one more grant. An address is named even by a grant without entries. -/
def apply (s : PermissionSet) (g : Grant) : PermissionSet :=
  ⟨s.accounts.insert g.address
    (g.entries.foldl AccountPermissions.apply ((s.get? g.address).getD .denied))⟩

/-- The set that a declaration resolves to. -/
def ofDeclaration (d : Declaration) : PermissionSet := d.grants.foldl apply ∅

/-- The set permitting what both permit. It names the addresses that both name. -/
def intersect (s t : PermissionSet) : PermissionSet :=
  ⟨s.accounts.filterMap fun a p => (t.get? a).map p.intersect⟩

/-- Whether the category may be mutated for the address. -/
def allows (s : PermissionSet) (a : Address) (c : Category) : Bool :=
  (s.get? a).any (·.allows c)

/-- Whether the slot of persistent storage may be written. -/
def allowsSlot (s : PermissionSet) (a : Address) (k : Key) : Bool :=
  (s.get? a).any (·.allowsSlot k)

/-- Whether the slot of transient storage may be written. -/
def allowsTransientSlot (s : PermissionSet) (a : Address) (k : Key) : Bool :=
  (s.get? a).any (·.allowsTransientSlot k)

@[simp] theorem get?_empty (a : Address) : (∅ : PermissionSet).get? a = none := by
  change (∅ : Std.ExtTreeMap Address AccountPermissions)[a]? = none
  simp

/-- Sets are equal when they give every address the same permissions. -/
theorem ext_get? {s t : PermissionSet} (h : ∀ a, s.get? a = t.get? a) : s = t := by
  cases s
  cases t
  exact congrArg PermissionSet.mk (Std.ExtTreeMap.ext_getElem? h)

theorem get?_apply (s : PermissionSet) (g : Grant) (a : Address) :
    (s.apply g).get? a =
      if g.address = a then
        some (g.entries.foldl AccountPermissions.apply ((s.get? a).getD .denied))
      else s.get? a := by
  simp only [apply, get?, Std.ExtTreeMap.getElem?_insert]
  by_cases h : g.address = a
  · subst h; simp
  · simp [h]

theorem get?_intersect (s t : PermissionSet) (a : Address) :
    (s.intersect t).get? a =
      match s.get? a, t.get? a with
      | some p, some q => some (p.intersect q)
      | _, _ => none := by
  simp only [intersect, get?, Std.ExtTreeMap.getElem?_filterMap']
  cases hs : s.accounts[a]? <;> cases ht : t.accounts[a]? <;> simp_all

end PermissionSet
end MutationGuard
