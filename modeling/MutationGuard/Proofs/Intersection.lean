import Mathlib.Data.List.Perm.Basic
import Mathlib.Data.Option.NAry
import MutationGuard.Proofs.Restriction

/-!
Intersecting sets of permissions, as an operation on the sets themselves. It combines what two maps hold
for an address, and within that two optional sets of slots, both in the same way: something comes out
where something is on either side (`Option.map₂`). So the laws of the intersection of slot sets carry over
to permissions and then to whole sets, with an empty set of slots kept apart from none and an address
named without rights kept apart from one that is not named. Main statement: `PermissionSet.intersect_meet`.
-/

namespace MutationGuard

namespace AccountPermissions

theorem commonSlots_eq (o o' : Option SlotSet) : commonSlots o o' = Option.map₂ (· ∩ ·) o o' := by
  cases o <;> cases o' <;> rfl

theorem commonSlots_comm (o o' : Option SlotSet) : commonSlots o o' = commonSlots o' o := by
  rw [commonSlots_eq, commonSlots_eq]
  refine Option.map₂_comm fun x y => Std.ExtTreeSet.ext_mem fun k => ?_
  rw [Std.ExtTreeSet.mem_inter_iff, Std.ExtTreeSet.mem_inter_iff, and_comm]

theorem commonSlots_assoc (o o' o'' : Option SlotSet) :
    commonSlots (commonSlots o o') o'' = commonSlots o (commonSlots o' o'') := by
  simp only [commonSlots_eq]
  refine Option.map₂_assoc fun x y z => Std.ExtTreeSet.ext_mem fun k => ?_
  simp only [Std.ExtTreeSet.mem_inter_iff, and_assoc]

theorem commonSlots_self (o : Option SlotSet) : commonSlots o o = o := by
  cases o with
  | none => rfl
  | some slots =>
    refine congrArg some (Std.ExtTreeSet.ext_mem fun k => ?_)
    rw [Std.ExtTreeSet.mem_inter_iff, and_self_iff]

theorem intersect_comm (p q : AccountPermissions) : p.intersect q = q.intersect p := by
  simp only [intersect, Bool.and_comm p.code, Bool.and_comm p.nonce, Bool.and_comm p.balance,
    commonSlots_comm p.storage, commonSlots_comm p.transientStorage]

theorem intersect_assoc (p q r : AccountPermissions) :
    (p.intersect q).intersect r = p.intersect (q.intersect r) := by
  simp only [intersect, Bool.and_assoc, commonSlots_assoc]

theorem intersect_self (p : AccountPermissions) : p.intersect p = p := by
  simp only [intersect, Bool.and_self, commonSlots_self]

end AccountPermissions

namespace PermissionSet

theorem get?_intersect_eq (s t : PermissionSet) (a : Address) :
    (s.intersect t).get? a = Option.map₂ AccountPermissions.intersect (s.get? a) (t.get? a) := by
  rw [get?_intersect]
  cases s.get? a <;> cases t.get? a <;> rfl

theorem isSome_get?_intersect (s t : PermissionSet) (a : Address) :
    ((s.intersect t).get? a).isSome = ((s.get? a).isSome && (t.get? a).isSome) := by
  rw [get?_intersect_eq]
  cases s.get? a <;> cases t.get? a <;> rfl

theorem intersect_comm (s t : PermissionSet) : s.intersect t = t.intersect s := by
  refine ext_get? fun a => ?_
  rw [get?_intersect_eq, get?_intersect_eq]
  exact Option.map₂_comm AccountPermissions.intersect_comm

theorem intersect_assoc (s t u : PermissionSet) :
    (s.intersect t).intersect u = s.intersect (t.intersect u) := by
  refine ext_get? fun a => ?_
  simp only [get?_intersect_eq]
  exact Option.map₂_assoc AccountPermissions.intersect_assoc

theorem intersect_self (s : PermissionSet) : s.intersect s = s := by
  refine ext_get? fun a => ?_
  rw [get?_intersect_eq]
  cases s.get? a with
  | none => rfl
  | some p => exact congrArg some p.intersect_self

theorem intersect_right_comm (s t u : PermissionSet) :
    (s.intersect t).intersect u = (s.intersect u).intersect t := by
  rw [intersect_assoc, intersect_comm t, ← intersect_assoc]

end PermissionSet

/-! ## Chains of restrictions -/

namespace FrameGuard

/-- The restriction at the end of a chain of frames, each of which declares a set and calls the next. -/
def nested (g : FrameGuard) (sets : List PermissionSet) : FrameGuard :=
  sets.foldl (fun g set => (g.enable set).child) g

theorem nested_inherited (p : PermissionSet) (sets : List PermissionSet) :
    (inherited p).nested sets = .inherited (sets.foldl PermissionSet.intersect p) := by
  induction sets generalizing p with
  | nil => rfl
  | cons set sets ih => exact ih (p.intersect set)

/-- Two frames in a row may declare each what the other one declares. -/
theorem child_enable_comm (g : FrameGuard) (s t : PermissionSet) :
    ((g.enable s).child.enable t).child = ((g.enable t).child.enable s).child := by
  cases g with
  | unrestricted | declared => exact congrArg inherited (PermissionSet.intersect_comm s t)
  | inherited p => exact congrArg inherited (PermissionSet.intersect_right_comm p s t)

theorem nested_perm (g : FrameGuard) {sets sets' : List PermissionSet} (h : sets.Perm sets') :
    g.nested sets = g.nested sets' :=
  h.foldl_eq' (fun s _ t _ g => child_enable_comm g s t) g

end FrameGuard

namespace PermissionSet

/-- Intersection is a meet. It names the addresses that both sets name and allows what both allow, it is
commutative, associative and idempotent, and a chain of restrictions is the intersection of what its
frames declared, in whatever order they did. -/
theorem intersect_meet (s t : PermissionSet) :
    (∀ a, ((s.intersect t).get? a).isSome = true ↔
      (s.get? a).isSome = true ∧ (t.get? a).isSome = true) ∧
    (∀ a c, c.hasSlots = false →
      ((s.intersect t).allows a c = true ↔ s.allows a c = true ∧ t.allows a c = true)) ∧
    (∀ a k, (s.intersect t).allowsSlot a k = true ↔
      s.allowsSlot a k = true ∧ t.allowsSlot a k = true) ∧
    (∀ a k, (s.intersect t).allowsTransientSlot a k = true ↔
      s.allowsTransientSlot a k = true ∧ t.allowsTransientSlot a k = true) ∧
    s.intersect t = t.intersect s ∧
    (∀ u, (s.intersect t).intersect u = s.intersect (t.intersect u)) ∧
    s.intersect s = s ∧
    (∀ sets, FrameGuard.unrestricted.nested (s :: sets) = .inherited (sets.foldl intersect s)) ∧
    ∀ (g : FrameGuard) (sets sets' : List PermissionSet), sets.Perm sets' →
      g.nested sets = g.nested sets' := by
  refine ⟨fun a => ?_, fun a c hc => ?_, fun a k => ?_, fun a k => ?_, intersect_comm s t,
    intersect_assoc s t, intersect_self s, FrameGuard.nested_inherited s,
    fun g _ _ h => g.nested_perm h⟩
  · rw [isSome_get?_intersect, Bool.and_eq_true]
  · have h : (s.intersect t).allows a c = (s.allows a c && t.allows a c) := by
      cases c with
      | code => exact permits_intersect s t (.code a)
      | nonce => exact permits_intersect s t (.nonce a)
      | balance => exact permits_intersect s t (.balance a)
      | storage | transientStorage => cases hc
    rw [h, Bool.and_eq_true]
  · have h : (s.intersect t).allowsSlot a k = (s.allowsSlot a k && t.allowsSlot a k) :=
      permits_intersect s t (.storage a k)
    rw [h, Bool.and_eq_true]
  · have h : (s.intersect t).allowsTransientSlot a k =
        (s.allowsTransientSlot a k && t.allowsTransientSlot a k) :=
      permits_intersect s t (.transientStorage a k)
    rw [h, Bool.and_eq_true]

/-- Three frames declare slots that overlap in one, and only the first and the last of them also allow
code: it does not matter which of them comes first. -/
theorem intersect_meet_slots :
    let declared (keys : List Nat) (categories : List Category) : PermissionSet :=
      .ofDeclaration ⟨[⟨Sample.guarded, .storage (keys.map .ofNat) :: categories.map .allow⟩]⟩
    let s := declared [1, 2] [.code]
    let t := declared [2, 3] []
    let u := declared [0, 2, 4] [.code]
    Category.code.hasSlots = false ∧ (s.intersect t).allows Sample.guarded .code = false ∧
      (s.intersect u).allows Sample.guarded .code = true ∧
      (s.intersect t).allowsSlot Sample.guarded (.ofNat 2) = true ∧
      [s, t, u].Perm [u, s, t] ∧
      FrameGuard.unrestricted.nested [s, t, u] = FrameGuard.unrestricted.nested [u, s, t] := by
  intro declared s t u
  obtain ⟨-, hcode, hslots, -, -, -, -, -, horder⟩ := intersect_meet s t
  obtain ⟨-, hcode', -⟩ := intersect_meet s u
  have hperm : ([s, t] ++ [u]).Perm ([u] ++ [s, t]) := List.perm_append_comm
  refine ⟨rfl, Bool.eq_false_iff.mpr fun h => ?_,
    (hcode' Sample.guarded .code rfl).mpr ⟨by decide, by decide⟩,
    (hslots Sample.guarded (.ofNat 2)).mpr ⟨by decide, by decide⟩, hperm,
    horder .unrestricted _ _ hperm⟩
  have ht := ((hcode Sample.guarded .code rfl).mp h).2
  exact absurd ht (by decide)

end PermissionSet
end MutationGuard
