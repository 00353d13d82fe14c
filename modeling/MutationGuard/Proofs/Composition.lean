import MutationGuard.Proofs.Resolution
import MutationGuard.Proofs.Restriction

/-!
Sets of permissions as they are put together, from declarations by intersection, and the two ways to ask
them about storage: whether the category is allowed, and whether a slot is. The first looks for a set of
slots, the second for a slot in it, and a set of slots can be empty. Both questions are traced back to the
declarations, by induction on how the set is put together. Main statement:
`allows_iff_exists_slot_iff`, by which the answers agree exactly if the declarations that all allow the
category also list a slot in common. They need not: `allows_without_slot`.
-/

namespace MutationGuard

namespace AccountPermissions

/-- The slot set of a storage category. -/
def slots? (p : AccountPermissions) : Category → Option SlotSet
  | .storage => p.storage
  | .transientStorage => p.transientStorage
  | .code | .nonce | .balance => none

theorem slots?_intersect (p q : AccountPermissions) (c : Category) :
    (p.intersect q).slots? c = commonSlots (p.slots? c) (q.slots? c) := by
  cases c <;> rfl

theorem isSome_commonSlots (o o' : Option SlotSet) :
    (commonSlots o o').isSome = (o.isSome && o'.isSome) := by
  cases o <;> cases o' <;> rfl

end AccountPermissions

namespace PermissionSet

/-- The slot set of a storage category at an address. -/
def slots? (s : PermissionSet) (a : Address) (c : Category) : Option SlotSet :=
  (s.get? a).bind (·.slots? c)

theorem allows_eq_isSome_slots? (s : PermissionSet) (a : Address) {c : Category}
    (hc : c.hasSlots = true) : s.allows a c = (s.slots? a c).isSome := by
  unfold allows slots?
  cases s.get? a with
  | none => rfl
  | some p => cases c <;> first | rfl | cases hc

theorem allowsSlot_eq_slots? (s : PermissionSet) (a : Address) (k : Key) :
    s.allowsSlot a k = (s.slots? a .storage).any (·.contains k) := by
  unfold allowsSlot slots?
  cases s.get? a <;> rfl

theorem allowsTransientSlot_eq_slots? (s : PermissionSet) (a : Address) (k : Key) :
    s.allowsTransientSlot a k = (s.slots? a .transientStorage).any (·.contains k) := by
  unfold allowsTransientSlot slots?
  cases s.get? a <;> rfl

theorem slots?_intersect (s t : PermissionSet) (a : Address) (c : Category) :
    (s.intersect t).slots? a c =
      AccountPermissions.commonSlots (s.slots? a c) (t.slots? a c) := by
  unfold slots?
  rw [get?_intersect]
  cases s.get? a with
  | none => rfl
  | some p =>
    cases t.get? a with
    | none =>
      change none = AccountPermissions.commonSlots (p.slots? c) none
      cases p.slots? c <;> rfl
    | some q => exact p.slots?_intersect q c

theorem slots?_ofDeclaration (d : Declaration) (a : Address) {c : Category}
    (hc : c.hasSlots = true) :
    (ofDeclaration d).slots? a c = (d.lastEntry? a c).bind Entry.slotSet? := by
  unfold slots?
  rw [get?_ofDeclaration]
  by_cases ha : d.Names a
  · rw [if_pos ha]
    cases c <;> first | rfl | cases hc
  · rw [if_neg ha, lastEntry?_of_not_names ha]
    rfl

end PermissionSet

/-- How a set of permissions is put together. -/
inductive Composition where
  /-- A declaration is resolved. -/
  | declared (d : Declaration)
  /-- Two sets are intersected. -/
  | both (x y : Composition)

namespace Composition

/-- The set that comes out. -/
def resolve : Composition → PermissionSet
  | declared d => .ofDeclaration d
  | both x y => x.resolve.intersect y.resolve

/-- The declarations that go in. -/
def declarations : Composition → List Declaration
  | declared d => [d]
  | both x y => x.declarations ++ y.declarations

/-- In every declaration the last entry for the address and the category allows it. -/
def Allows (x : Composition) (a : Address) (c : Category) : Prop :=
  ∀ d ∈ x.declarations, ∃ e, d.lastEntry? a c = some e ∧ e.allowed = true

/-- In every declaration the last entry for the address and the category allows it and lists the slot. -/
def Lists (x : Composition) (a : Address) (c : Category) (k : Key) : Prop :=
  ∀ d ∈ x.declarations, ∃ e, d.lastEntry? a c = some e ∧ e.allowed = true ∧ k ∈ e.slots

variable (x : Composition) (a : Address) {c : Category} (hc : c.hasSlots = true)

include hc

theorem isSome_slots?_resolve : (x.resolve.slots? a c).isSome = true ↔ x.Allows a c := by
  induction x with
  | declared d =>
    rw [resolve, PermissionSet.slots?_ofDeclaration d a hc, Entry.isSome_bind_slotSet?]
    simp only [Allows, declarations, List.forall_mem_singleton]
  | both x y ihx ihy =>
    rw [resolve, PermissionSet.slots?_intersect, AccountPermissions.isSome_commonSlots,
      Bool.and_eq_true, ihx, ihy]
    simp only [Allows, declarations, List.forall_mem_append]

theorem contains_slots?_resolve (k : Key) :
    (x.resolve.slots? a c).any (·.contains k) = true ↔ x.Lists a c k := by
  induction x with
  | declared d =>
    rw [resolve, PermissionSet.slots?_ofDeclaration d a hc, Entry.contains_bind_slotSet?]
    simp only [Lists, declarations, List.forall_mem_singleton]
  | both x y ihx ihy =>
    rw [resolve, PermissionSet.slots?_intersect, AccountPermissions.contains_commonSlots,
      Bool.and_eq_true, ihx, ihy]
    simp only [Lists, declarations, List.forall_mem_append]

omit hc

variable {x a}

/-- What lists a slot allows its category. -/
theorem Lists.allows {k : Key} (h : x.Lists a c k) : x.Allows a c := by
  intro d hd
  obtain ⟨e, he, hallowed, -⟩ := h d hd
  exact ⟨e, he, hallowed⟩

/-- A category that is allowed has a slot exactly if, where all declarations allow it, they list a slot
in common. -/
theorem allows_iff_exists_lists_iff :
    (x.Allows a c ↔ ∃ k, x.Lists a c k) ↔ (x.Allows a c → ∃ k, x.Lists a c k) :=
  ⟨Iff.mp, fun h => ⟨h, fun ⟨_, hk⟩ => hk.allows⟩⟩

/-- The two questions about storage, for a set put together in any way. The category is allowed exactly
if the last entries for it in all declarations allow it, and a slot exactly if they also list it. So the
category is allowed where a slot is; the converse, by which the answers agree, holds exactly if entries
that all allow the category list a slot in common. -/
theorem allows_iff_exists_slot_iff (x : Composition) (a : Address) :
    ((x.resolve.allows a .storage = true ↔ x.Allows a .storage) ∧
      (∀ k, x.resolve.allowsSlot a k = true ↔ x.Lists a .storage k) ∧
      ((x.resolve.allows a .storage = true ↔ ∃ k, x.resolve.allowsSlot a k = true) ↔
        (x.Allows a .storage → ∃ k, x.Lists a .storage k))) ∧
    (x.resolve.allows a .transientStorage = true ↔ x.Allows a .transientStorage) ∧
    (∀ k, x.resolve.allowsTransientSlot a k = true ↔ x.Lists a .transientStorage k) ∧
    ((x.resolve.allows a .transientStorage = true ↔
        ∃ k, x.resolve.allowsTransientSlot a k = true) ↔
      (x.Allows a .transientStorage → ∃ k, x.Lists a .transientStorage k)) := by
  have hstorage : x.resolve.allows a .storage = true ↔ x.Allows a .storage := by
    rw [PermissionSet.allows_eq_isSome_slots? _ _ rfl, isSome_slots?_resolve x a rfl]
  have hslot : ∀ k, x.resolve.allowsSlot a k = true ↔ x.Lists a .storage k := fun k => by
    rw [PermissionSet.allowsSlot_eq_slots?, contains_slots?_resolve x a rfl]
  have htransient : x.resolve.allows a .transientStorage = true ↔ x.Allows a .transientStorage := by
    rw [PermissionSet.allows_eq_isSome_slots? _ _ rfl, isSome_slots?_resolve x a rfl]
  have htransientSlot : ∀ k, x.resolve.allowsTransientSlot a k = true ↔
      x.Lists a .transientStorage k := fun k => by
    rw [PermissionSet.allowsTransientSlot_eq_slots?, contains_slots?_resolve x a rfl]
  refine ⟨⟨hstorage, hslot, ?_⟩, htransient, htransientSlot, ?_⟩
  · simp only [hstorage, hslot]
    exact allows_iff_exists_lists_iff
  · simp only [htransient, htransientSlot]
    exact allows_iff_exists_lists_iff

/-- A declaration that lists no slots, and two that list different ones: each time storage is allowed,
and no slot of it. -/
theorem allows_without_slot :
    let unlisted : Composition := .declared (Sample.slots [])
    let different : Composition := .both (.declared (Sample.slots [1])) (.declared (Sample.slots [2]))
    (unlisted.resolve.allows Sample.guarded .storage = true ∧
      ¬ ∃ k, unlisted.resolve.allowsSlot Sample.guarded k = true) ∧
    different.resolve.allows Sample.guarded .storage = true ∧
      ¬ ∃ k, different.resolve.allowsSlot Sample.guarded k = true := by
  intro unlisted different
  refine ⟨⟨by decide, ?_⟩, by decide +kernel, ?_⟩
  · rintro ⟨k, hk⟩
    rw [PermissionSet.allowsSlot_eq_slots?, contains_slots?_resolve unlisted _ rfl] at hk
    obtain ⟨e, he, -, hlisted⟩ := hk _ (.head _)
    cases he
    cases hlisted
  · rintro ⟨k, hk⟩
    rw [PermissionSet.allowsSlot_eq_slots?, contains_slots?_resolve different _ rfl] at hk
    obtain ⟨e, he, -, hone⟩ := hk _ (.head _)
    obtain ⟨f, hf, -, htwo⟩ := hk _ (.tail _ (.head _))
    cases he
    cases hf
    rw [List.mem_singleton.mp hone] at htwo
    exact absurd htwo (by decide)

end Composition
end MutationGuard
