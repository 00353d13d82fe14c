import MutationGuard.Serial

/-!
What a frame may declare about the state it is going to change: for each address, entries that allow
or deny one category of mutation, with the writable slots where the category is a kind of storage.
-/

namespace MutationGuard

/-- A category of account state that a frame may be permitted to mutate. -/
inductive Category where
  /-- Replacing the account's code. -/
  | code
  /-- Bumping the account's nonce. -/
  | nonce
  /-- Moving value into or out of the account. -/
  | balance
  /-- Writing persistent storage slots. -/
  | storage
  /-- Writing transient storage slots. -/
  | transientStorage
  deriving DecidableEq, Repr, Inhabited

namespace Category

/-- Every category, in the order of the tags. -/
def all : List Category := [code, nonce, balance, storage, transientStorage]

/-- The byte that stands for the category. -/
def tag : Category → UInt8
  | code => 0
  | nonce => 1
  | balance => 2
  | storage => 3
  | transientStorage => 4

/-- The category that a byte stands for. -/
def ofTag? : UInt8 → Option Category
  | 0 => some code
  | 1 => some nonce
  | 2 => some balance
  | 3 => some storage
  | 4 => some transientStorage
  | _ => none

/-- The name of the category. -/
def name : Category → String
  | code => "Code"
  | nonce => "Nonce"
  | balance => "Balance"
  | storage => "Storage"
  | transientStorage => "TransientStorage"

/-- The category of a name. -/
def ofName? (s : String) : Option Category := all.find? (·.name = s)

/-- Whether an entry of the category carries a list of slots. -/
def hasSlots : Category → Bool
  | storage | transientStorage => true
  | code | nonce | balance => false

/-- Tags and categories stand for each other one to one. -/
theorem ofTag?_eq_some_iff (b : UInt8) (c : Category) : ofTag? b = some c ↔ b = c.tag := by
  constructor
  · intro h
    unfold ofTag? at h
    split at h <;> simp_all <;> subst h <;> rfl
  · rintro rfl
    cases c <;> rfl

end Category

/-- Whether a category of mutation is allowed for an address. The slots are the only writable ones
of a storage category, and empty otherwise. -/
structure Entry where
  category : Category
  allowed : Bool
  slots : List Key
  deriving DecidableEq, Inhabited

namespace Entry

/-- An entry that allows a category without slots. -/
def allow (category : Category) : Entry := ⟨category, true, []⟩

/-- An entry that allows writes to the given slots of persistent storage. -/
def storage (slots : List Key) : Entry := ⟨.storage, true, slots⟩

/-- An entry that allows writes to the given slots of transient storage. -/
def transientStorage (slots : List Key) : Entry := ⟨.transientStorage, true, slots⟩

/-- Only entries of the storage categories carry slots. -/
def WellFormed (e : Entry) : Prop := e.category.hasSlots = false → e.slots = []

instance (e : Entry) : Decidable e.WellFormed :=
  inferInstanceAs (Decidable (e.category.hasSlots = false → e.slots = []))

end Entry

/-- The entries declared for one address. -/
structure Grant where
  address : Address
  entries : List Entry
  deriving DecidableEq, Inhabited

/-- The whole list that one restriction declares. -/
structure Declaration where
  grants : List Grant
  deriving DecidableEq, Inhabited

instance : Serial Category := ⟨fun c => Serial.number c.tag.toNat⟩

instance : Serial Entry :=
  ⟨fun e => Serial.serialize e.category ++ Serial.serialize e.allowed ++ Serial.serialize e.slots⟩

instance : Serial Grant := ⟨fun g => Serial.serialize g.address ++ Serial.serialize g.entries⟩

instance : Serial Declaration := ⟨fun d => Serial.serialize d.grants⟩

end MutationGuard
