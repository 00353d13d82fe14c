import MutationGuard.Machine.FrameGuard
import MutationGuard.Scenario.Sample

/-!
How a restriction changes on its way down the frames. A frame below a restricted one can hand its
restriction on, try to lift it, or declare a set of its own, in any order and any number of times.
What is left then is the restriction from above cut down by every set declared since, and nothing
that was denied above is permitted again (`child_narrows`).
-/

namespace MutationGuard

namespace AccountPermissions

/-- A slot is in the common slots if it is on both sides. -/
theorem contains_commonSlots (o o' : Option SlotSet) (k : Key) :
    (commonSlots o o').any (·.contains k) = (o.any (·.contains k) && o'.any (·.contains k)) := by
  cases o <;> cases o' <;> simp [commonSlots, Std.ExtTreeSet.contains_inter]

theorem allowsSlot_intersect (p q : AccountPermissions) (k : Key) :
    (p.intersect q).allowsSlot k = (p.allowsSlot k && q.allowsSlot k) :=
  contains_commonSlots p.storage q.storage k

theorem allowsTransientSlot_intersect (p q : AccountPermissions) (k : Key) :
    (p.intersect q).allowsTransientSlot k =
      (p.allowsTransientSlot k && q.allowsTransientSlot k) :=
  contains_commonSlots p.transientStorage q.transientStorage k

end AccountPermissions

namespace PermissionSet

/-- A question that distributes over the permissions of one account does so over whole sets. -/
theorem any_get?_intersect (s t : PermissionSet) (a : Address) {ask : AccountPermissions → Bool}
    (h : ∀ p q : AccountPermissions, ask (p.intersect q) = (ask p && ask q)) :
    ((s.intersect t).get? a).any ask = ((s.get? a).any ask && (t.get? a).any ask) := by
  rw [get?_intersect]
  cases s.get? a with
  | none => rfl
  | some p =>
    cases t.get? a with
    | none => simp
    | some q => exact h p q

/-- The intersection permits what both sets permit, mutation by mutation. -/
theorem permits_intersect (s t : PermissionSet) (m : Mutation) :
    (s.intersect t).permits m = (s.permits m && t.permits m) := by
  cases m with
  | code a => exact any_get?_intersect s t a fun _ _ => rfl
  | nonce a => exact any_get?_intersect s t a fun _ _ => rfl
  | balance a => exact any_get?_intersect s t a fun _ _ => rfl
  | storage a k =>
    exact any_get?_intersect s t a fun p q => AccountPermissions.allowsSlot_intersect p q k
  | transientStorage a k =>
    exact any_get?_intersect s t a fun p q => AccountPermissions.allowsTransientSlot_intersect p q k
  | delegateCall => rfl
  | selfDestruct a => rfl

/-- Intersecting in turn permits what the first set and each one after it permit. -/
theorem permits_foldl_intersect (sets : List PermissionSet) (s : PermissionSet) (m : Mutation) :
    (sets.foldl intersect s).permits m = true ↔
      s.permits m = true ∧ ∀ t ∈ sets, t.permits m = true := by
  induction sets generalizing s with
  | nil => simp
  | cons t sets ih =>
    rw [List.foldl_cons, ih, permits_intersect, Bool.and_eq_true, List.forall_mem_cons, and_assoc]

end PermissionSet

namespace FrameGuard

theorem check_eq_ok_iff (g : FrameGuard) (m : Mutation) :
    g.check m = .ok () ↔ g.permits m = true := by
  unfold check
  split <;> simp_all

theorem checkAll_cons (g : FrameGuard) (m : Mutation) (ms : List Mutation) :
    g.checkAll (m :: ms) = g.check m >>= fun _ => g.checkAll ms := rfl

theorem checkAll_eq_ok_iff (g : FrameGuard) (ms : List Mutation) :
    g.checkAll ms = .ok () ↔ ∀ m ∈ ms, g.permits m = true := by
  induction ms with
  | nil => exact ⟨fun _ _ hm => absurd hm List.not_mem_nil, fun _ => rfl⟩
  | cons m ms ih =>
    rw [checkAll_cons, List.forall_mem_cons, ← ih, ← check_eq_ok_iff]
    cases g.check m with
    | ok _ => exact ⟨fun h => ⟨rfl, h⟩, fun h => h.2⟩
    | error _ => exact ⟨nofun, fun h => nomatch h.1⟩

theorem permits_of_isActive {g : FrameGuard} (hg : g.isActive = true) (m : Mutation) :
    g.permits m = g.permissions.permits m := by
  cases g with
  | unrestricted => cases hg
  | declared p => rfl
  | inherited p => rfl

theorem child_of_isActive {g : FrameGuard} (hg : g.isActive = true) :
    g.child = .inherited g.permissions := by
  cases g with
  | unrestricted => cases hg
  | declared p => rfl
  | inherited p => rfl

/-! ## Below a restricted frame -/

/-- What can become of a restriction below the frame it came from. -/
inductive Move where
  /-- It is handed down to a frame called. -/
  | child
  /-- A frame tries to lift it. -/
  | disable
  /-- A frame declares a set. -/
  | enable (set : PermissionSet)

namespace Move

/-- The restriction after the move. -/
def apply (g : FrameGuard) : Move → FrameGuard
  | child => g.child
  | disable => g.disable
  | enable set => g.enable set

/-- The set that the move declares, if it declares one. -/
def set? : Move → Option PermissionSet
  | child | disable => none
  | enable set => some set

/-- Only a declaration has an effect on an inherited restriction. -/
theorem apply_inherited (p : PermissionSet) (move : Move) :
    move.apply (.inherited p) = .inherited (move.set?.toList.foldl PermissionSet.intersect p) := by
  cases move <;> rfl

end Move

/-- The restriction after moves, made in order. -/
def after (g : FrameGuard) (moves : List Move) : FrameGuard := moves.foldl Move.apply g

/-- The sets that moves declare, in order. -/
def declaredBy (moves : List Move) : List PermissionSet := moves.filterMap Move.set?

/-- An inherited restriction stays inherited, and every set declared cuts it down. -/
theorem after_inherited (p : PermissionSet) (moves : List Move) :
    (inherited p).after moves =
      .inherited ((declaredBy moves).foldl PermissionSet.intersect p) := by
  induction moves generalizing p with
  | nil => rfl
  | cons move moves ih =>
    have hstep : (inherited p).after (move :: moves) = (move.apply (.inherited p)).after moves := rfl
    rw [hstep, Move.apply_inherited, ih]
    cases move <;> rfl

/-- Below a restricted frame the restriction is inherited, holds the permissions from above
intersected in turn with every set declared since, and permits exactly what was permitted above and
is permitted by every one of those sets. Delegated calls and self-destruction are never permitted. -/
theorem child_narrows (g : FrameGuard) (hg : g.isActive = true) (moves : List Move) :
    g.child.after moves =
        .inherited ((declaredBy moves).foldl PermissionSet.intersect g.permissions) ∧
      (∀ m, (g.child.after moves).check m = .ok () ↔
        g.check m = .ok () ∧ ∀ set ∈ declaredBy moves, set.permits m = true) ∧
      (g.child.after moves).check .delegateCall = .error ⟨.delegateCall⟩ ∧
      ∀ a, (g.child.after moves).check (.selfDestruct a) = .error ⟨.selfDestruct a⟩ := by
  have hguard : g.child.after moves =
      .inherited ((declaredBy moves).foldl PermissionSet.intersect g.permissions) := by
    rw [child_of_isActive hg, after_inherited]
  rw [hguard]
  refine ⟨rfl, fun m => ?_, rfl, fun _ => rfl⟩
  rw [check_eq_ok_iff, check_eq_ok_iff, permits_of_isActive hg]
  exact PermissionSet.permits_foldl_intersect _ _ m

/-- Two sets of slots have one slot in common, and neither lifting nor handing down brings back the
others. -/
theorem child_narrows_slots :
    let g : FrameGuard := .declared (.ofDeclaration (Sample.slots [1, 2]))
    let moves : List Move := [.disable, .enable (.ofDeclaration (Sample.slots [2, 3])), .child]
    g.isActive = true ∧ (g.child.after moves).check (.storage Sample.guarded ⟨2⟩) = .ok () ∧
      (g.child.after moves).check (.storage Sample.guarded ⟨1⟩) ≠ .ok () := by
  intro g moves
  have hnarrow := (child_narrows g rfl moves).2.1
  refine ⟨rfl, (hnarrow _).mpr ⟨rfl, by decide⟩, fun h => ?_⟩
  exact absurd ((hnarrow _).mp h).2 (by decide)

end FrameGuard
end MutationGuard
