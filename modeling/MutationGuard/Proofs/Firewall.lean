import MutationGuard.Machine.Fragment
import MutationGuard.Proofs.Effect
import MutationGuard.Scenario.Sample

/-!
A restriction holds. Under a permission set in force, a step of a frame, with everything that the
frames it calls do, changes what the set permits and nothing else. If the restriction is inherited,
no operation below can widen it, and the same holds of whole runs (`restricted_confines`).
-/

namespace MutationGuard

variable {σ : Type} [Source σ]

namespace PermissionSet

/-- Two states of a transaction that differ only where the set permits a change. -/
structure Confines (P : PermissionSet) (t t' : Txn σ) : Prop where
  base : t'.base = t.base
  code (a : Address) (h : P.allows a .code = false) : t'.code a = t.code a
  nonce (a : Address) (h : P.allows a .nonce = false) : t'.nonce a = t.nonce a
  balance (a : Address) (h : P.allows a .balance = false) : t'.balance a = t.balance a
  storage (a : Address) (k : Key) (h : P.allowsSlot a k = false) : t'.storage a k = t.storage a k
  transient (a : Address) (k : Key) (h : P.allowsTransientSlot a k = false) :
    t'.transient a k = t.transient a k

namespace Confines

variable {P : PermissionSet} {t t' t'' : Txn σ}

theorem refl (P : PermissionSet) (t : Txn σ) : P.Confines t t :=
  ⟨rfl, fun _ _ => rfl, fun _ _ => rfl, fun _ _ => rfl, fun _ _ _ => rfl, fun _ _ _ => rfl⟩

theorem trans (h : P.Confines t t') (h' : P.Confines t' t'') : P.Confines t t'' where
  base := h'.base.trans h.base
  code a ha := (h'.code a ha).trans (h.code a ha)
  nonce a ha := (h'.nonce a ha).trans (h.nonce a ha)
  balance a ha := (h'.balance a ha).trans (h.balance a ha)
  storage a k ha := (h'.storage a k ha).trans (h.storage a k ha)
  transient a k ha := (h'.transient a k ha).trans (h.transient a k ha)

/-! ### Writes that the set permits -/

theorem setBalance {a : Address} (h : P.permits (.balance a) = true) (t : Txn σ) (value : Word) :
    P.Confines t (t.setBalance a value) :=
  { refl P t with
    balance := fun b hb => by
      rw [Txn.balance_setBalance, if_neg]
      rintro rfl
      exact Bool.false_ne_true (hb.symm.trans h) }

theorem setNonce {a : Address} (h : P.permits (.nonce a) = true) (t : Txn σ) (value : UInt64) :
    P.Confines t (t.setNonce a value) :=
  { refl P t with
    nonce := fun b hb => by
      rw [Txn.nonce_setNonce, if_neg]
      rintro rfl
      exact Bool.false_ne_true (hb.symm.trans h) }

theorem setCode {a : Address} (h : P.permits (.code a) = true) (t : Txn σ) (value : Code) :
    P.Confines t (t.setCode a value) :=
  { refl P t with
    code := fun b hb => by
      rw [Txn.code_setCode, if_neg]
      rintro rfl
      exact Bool.false_ne_true (hb.symm.trans h) }

theorem setStorage {a : Address} {k : Key} (h : P.permits (.storage a k) = true) (t : Txn σ)
    (value : Word) : P.Confines t (t.setStorage a k value) :=
  { refl P t with
    storage := fun b l hb => by
      rw [Txn.storage_setStorage, if_neg]
      rintro ⟨rfl, rfl⟩
      exact Bool.false_ne_true (hb.symm.trans h) }

theorem setTransient {a : Address} {k : Key} (h : P.permits (.transientStorage a k) = true)
    (t : Txn σ) (value : Word) : P.Confines t (t.setTransient a k value) :=
  { refl P t with
    transient := fun b l hb => by
      rw [Txn.transient_setTransient, if_neg]
      rintro ⟨rfl, rfl⟩
      exact Bool.false_ne_true (hb.symm.trans h) }

/-- Value moves between accounts whose balances both may change. -/
theorem transfer {sender recipient : Address} {value : Word}
    (hp : ∀ m ∈ Mutation.ofValueCall sender recipient value, P.permits m = true)
    (h : t.transfer? sender recipient value = .ok (some t')) : P.Confines t t' := by
  cases Txn.transferred_of_transfer? h with
  | idle _ => exact refl P t
  | moved hne _ _ _ _ =>
    have hms : Mutation.ofValueCall sender recipient value = [.balance sender, .balance recipient] :=
      if_neg fun hv => hne (.inr hv)
    rw [hms] at hp
    have hsender : P.permits (.balance sender) = true := hp _ (by simp)
    have hrecipient : P.permits (.balance recipient) = true := hp _ (by simp)
    exact (setBalance hsender t _).trans (setBalance hrecipient _ _)

end Confines
end PermissionSet

/-! ## Operations -/

namespace FrameGuard

/-- The restriction came from above and permits nothing that the set does not. -/
def Within (g : FrameGuard) (P : PermissionSet) : Prop :=
  ∃ Q, g = .inherited Q ∧ ∀ m, Q.permits m = true → P.permits m = true

theorem Within.permits {g : FrameGuard} {P : PermissionSet} (h : g.Within P) {m : Mutation}
    (hm : g.permits m = true) : P.permits m = true := by
  obtain ⟨Q, rfl, hQ⟩ := h
  exact hQ m hm

theorem Within.child {g : FrameGuard} {P : PermissionSet} (h : g.Within P) : g.child.Within P := by
  obtain ⟨Q, rfl, hQ⟩ := h
  exact ⟨Q, rfl, hQ⟩

theorem Within.disable {g : FrameGuard} {P : PermissionSet} (h : g.Within P) :
    g.disable.Within P := by
  obtain ⟨Q, rfl, hQ⟩ := h
  exact ⟨Q, rfl, hQ⟩

theorem Within.enable {g : FrameGuard} {P : PermissionSet} (h : g.Within P) (set : PermissionSet) :
    (g.enable set).Within P := by
  obtain ⟨Q, rfl, hQ⟩ := h
  refine ⟨Q.intersect set, rfl, fun m hm => hQ m ?_⟩
  rw [PermissionSet.permits_intersect, Bool.and_eq_true] at hm
  exact hm.1

end FrameGuard

namespace Exec

open PermissionSet (Confines)

variable {P : PermissionSet} {run : Runner σ} {f f' : Frame} {t t' : Txn σ}

theorem Entered.confined {child : Frame} {code : Code}
    {prepare : Txn σ → Except Fault (Option (Txn σ))} {outcome : Option Outcome}
    (h : Entered run child code prepare t outcome t')
    (hprepare : ∀ prepared, prepare t = .ok (some prepared) → P.Confines t prepared)
    (hrun : ∀ gas t, P.Confines t (run child code gas t).state) : P.Confines t t' := by
  refine h.preserves (R := P.Confines t) (.refl P t) (fun _ ht' => ht'.base) ?_
  intro gas prepared hp
  exact (hprepare prepared hp).trans (hrun gas prepared)

namespace Creating

variable {nonce : UInt64} {value : Word}

theorem permits (hc : Creating f t nonce value)
    (hP : ∀ m, f.guard.permits m = true → P.permits m = true) {m : Mutation}
    (hm : m ∈ Mutation.ofCreate f.address (f.address.created nonce) value) : P.permits m = true :=
  hP m (hc.permitted m hm)

/-- Bumping the creator's nonce is permitted. -/
theorem confines_bumped (hc : Creating f t nonce value)
    (hP : ∀ m, f.guard.permits m = true → P.permits m = true) :
    P.Confines t (bumped f t nonce) :=
  .setNonce (hc.permits hP (by simp [Mutation.ofCreate])) t (nonce + 1)

/-- So is everything on the way into the code that makes the account, and installing its output. -/
theorem confines_prepare (hc : Creating f t nonce value)
    (hP : ∀ m, f.guard.permits m = true → P.permits m = true) {prepared : Txn σ}
    (hp : prepare f nonce value t' = .ok (some prepared)) : P.Confines t' prepared := by
  have hnonce : P.Confines t' (t'.setNonce (f.address.created nonce) 1) :=
    .setNonce (hc.permits hP (by simp [Mutation.ofCreate])) t' 1
  exact hnonce.trans (.transfer (fun m hm => hc.permits hP (List.mem_append_right _ hm)) hp)

theorem confines_setCode (hc : Creating f t nonce value)
    (hP : ∀ m, f.guard.permits m = true → P.permits m = true) (output : Bytes) :
    P.Confines t' (t'.setCode (f.address.created nonce) output) :=
  .setCode (hc.permits hP (by simp [Mutation.ofCreate])) t' output

end Creating

/-- An operation stays within the set that is in force, if the frames below it do. -/
theorem Effect.confined (h : Effect run f t f' t')
    (hP : ∀ m, f.guard.permits m = true → P.permits m = true) (hchild : f.guard.child.Within P)
    (hrun : ∀ child code gas t, child.guard.Within P → P.Confines t (run child code gas t).state) :
    P.Confines t t' := by
  have hfree : ∀ prepared, (fun t => .ok (some t) : Txn σ → Except Fault _) t = .ok (some prepared) →
      P.Confines t prepared := by
    intro prepared hp
    cases hp
    exact .refl P t
  obtain ⟨op, h⟩ := h
  cases h with
  | none | lifted | declared => exact .refl P t
  | stored k value _ hp => exact .setStorage (hP _ hp) t value
  | storedTransient k value _ hp => exact .setTransient (hP _ hp) t value
  | destroyed _ hp _ _ => exact absurd (hP _ hp) Bool.false_ne_true
  | called _ hp _ _ he =>
    exact he.confined (fun _ => .transfer fun m hm => hP m (hp m hm)) fun _ _ => hrun _ _ _ _ hchild
  | calledStatic _ _ he => exact he.confined hfree fun _ _ => hrun _ _ _ _ hchild
  | delegated _ _ _ he => exact he.confined hfree fun _ _ => hrun _ _ _ _ hchild
  | bumped hc => exact hc.confines_bumped hP
  | created hc _ _ he =>
    have hentered := he.confined (fun _ => hc.confines_prepare hP) fun _ _ => hrun _ _ _ _ hchild
    exact (hc.confines_bumped hP).trans hentered
  | installed hc _ _ he =>
    have hentered := he.confined (fun _ => hc.confines_prepare hP) fun _ _ => hrun _ _ _ _ hchild
    exact ((hc.confines_bumped hP).trans hentered).trans (hc.confines_setCode hP _)

end Exec

/-! ## Steps and runs -/

/-- A run under an inherited restriction stays within the set, whatever is declared or lifted on the
way. -/
theorem Activation.confines_finish (prices : Pricing) (budget : Nat) {P : PermissionSet}
    (r : Activation σ) (hr : r.frame.guard.Within P) :
    P.Confines r.txn (r.finish prices budget).state := by
  refine finish_preserves (G := fun f => f.guard.Within P) (R := P.Confines)
    (fun t => .refl P t) (fun _ _ _ h h' => h.trans h') ?_ budget r hr
  intro run hrun f t f' t' hf he
  refine ⟨?_, he.confined (fun _ hm => hf.permits hm) hf.child hrun⟩
  obtain rfl | rfl | ⟨set, rfl⟩ := he.guard_cases
  · exact hf
  · exact hf.disable
  · exact hf.enable set

/-- Every step of a restricted frame, with all that runs below it, changes only what the permission
set in force permits. Under an inherited restriction so does every whole run, however it ends. -/
theorem restricted_confines (prices : Pricing) (budget : Nat) :
    (∀ r : Activation σ, r.frame.guard.isActive = true →
      r.frame.guard.permissions.Confines r.txn
        (Exec.step prices (Frame.run prices budget) r).state.txn) ∧
    ∀ (f : Frame) (P : PermissionSet) (code : Code) (gasLimit : Nat) (t : Txn σ),
      f.guard = .inherited P → P.Confines t (f.run prices budget code gasLimit t).state := by
  have hrun : ∀ (P : PermissionSet) (f : Frame) (code : Code) (gasLimit : Nat) (t : Txn σ),
      f.guard.Within P → P.Confines t (f.run prices budget code gasLimit t).state :=
    fun P f code gasLimit t hf =>
      Activation.confines_finish prices budget (.start f code gasLimit t) hf
  refine ⟨fun r hr => ?_, fun f P code gasLimit t hf => ?_⟩
  · have hchild : r.frame.guard.child.Within r.frame.guard.permissions :=
      ⟨_, FrameGuard.child_of_isActive hr, fun _ hm => hm⟩
    have hP : ∀ m, r.frame.guard.permits m = true → r.frame.guard.permissions.permits m = true := by
      intro m hm
      rw [← FrameGuard.permits_of_isActive hr]
      exact hm
    exact (Exec.step_effect prices (Frame.run prices budget) r).confined hP hchild (hrun _)
  · exact hrun P f code gasLimit t ⟨P, hf, fun _ hm => hm⟩

/-- The guarded contract may write one slot, and tries another one. -/
theorem restricted_confines_slot :
    let prices := ({} : GasSchedule).pricing
    let P : PermissionSet := .ofDeclaration (Sample.slots [1])
    let t := Sample.withContracts []
    let write := Op.encodeAll (Fragment.writeSlot 2 7)
    let r := Activation.start (Sample.frame (.declared P)) write 10000 t
    (r.frame.guard.isActive = true ∧
        P.Confines t (Exec.step prices (Frame.run prices 9) r).state.txn) ∧
      ((Sample.frame (.inherited P)).guard = .inherited P ∧
        P.Confines t ((Sample.frame (.inherited P)).run prices 9 write 10000 t).state) := by
  intro prices P t write r
  have hheld := restricted_confines (σ := Table) prices 9
  exact ⟨⟨rfl, hheld.1 r rfl⟩, rfl, hheld.2 (Sample.frame (.inherited P)) P write 10000 t rfl⟩

end MutationGuard
