import MutationGuard.Machine.Fragment
import MutationGuard.Proofs.Effect
import MutationGuard.Scenario.Sample

/-!
Static frames change nothing. Every writing operation refuses a static frame, and a static frame
calls static frames only, without value. So each step of such a frame gives back the very transaction
it was given, and so does a whole run, however it ends (`static_readOnly`).
-/

namespace MutationGuard

variable {σ : Type}

namespace Exec

/-- A frame entered as it stands, which gives back what it is given, leaves no trace. -/
theorem Entered.unchanged {run : Runner σ} {child : Frame} {code : Code}
    {prepare : Txn σ → Except Fault (Option (Txn σ))} {t t' : Txn σ} {outcome : Option Outcome}
    (h : Entered run child code prepare t outcome t')
    (hprepare : ∀ prepared, prepare t = .ok (some prepared) → prepared = t)
    (hrun : ∀ gas, (run child code gas t).state = t) : t' = t := by
  refine h.preserves (R := fun t' => t' = t) rfl (fun _ ht' => congrArg Txn.base ht') ?_
  intro gas prepared hp
  rw [hprepare prepared hp]
  exact hrun gas

variable [Source σ]

/-- What an operation of a static frame does to the state: nothing, if the static frames it calls do
nothing. -/
theorem Effect.unchanged {run : Runner σ} {f f' : Frame} {t t' : Txn σ}
    (h : Effect run f t f' t') (hf : f.isStatic = true)
    (hrun : ∀ child code gas t, child.isStatic = true → (run child code gas t).state = t) :
    t' = t := by
  obtain ⟨op, h⟩ := h
  cases h with
  | none | lifted | declared => rfl
  | stored _ _ hs | storedTransient _ _ hs | destroyed hs =>
    rw [hf] at hs
    cases hs
  | called hs _ _ _ he =>
    refine he.unchanged (fun prepared hp => ?_) fun gas => hrun _ _ _ _ hf
    -- without value the transfer on the way in has nothing to move
    cases Txn.transferred_of_transfer? hp with
    | idle _ => rfl
    | moved hne _ _ _ _ => exact absurd (.inr (hs hf)) hne
  | calledStatic _ _ he =>
    exact he.unchanged (fun _ hp => by cases hp; rfl) fun gas => hrun _ _ _ _ rfl
  | delegated _ _ _ he =>
    exact he.unchanged (fun _ hp => by cases hp; rfl) fun gas => hrun _ _ _ _ hf
  | bumped hc | created hc _ _ _ | installed hc _ _ _ =>
    have hs := hc.not_static
    rw [hf] at hs
    cases hs

/-- A static call leaves the state alone in any frame, if static frames do. -/
theorem ensures_staticCall {run : Runner σ} {f : Frame} {t : Txn σ}
    (hrun : ∀ child code gas t, child.isStatic = true → (run child code gas t).state = t) :
    Ensures f t (staticCall run) (fun _ _ t' => t' = t) fun _ t' => t' = t := by
  refine (quiet_onStack _).then (fun (requested, callee) => ?_) rfl
  refine Ensures.bind (ensures_frame ?_)
  refine ensures_callee rfl fun code o t' _ _ he => ?_
  exact he.unchanged (fun _ hp => by cases hp; rfl) fun gas => hrun _ _ _ _ rfl

end Exec

variable [Source σ]

/-- A static frame under way leaves the transaction exactly as it is. -/
theorem Activation.state_finish_of_isStatic (prices : Pricing) (budget : Nat) (r : Activation σ)
    (hr : r.frame.isStatic = true) : (r.finish prices budget).state = r.txn := by
  refine finish_preserves (G := fun f => f.isStatic = true) (R := fun t t' => t' = t)
    (fun _ => rfl) (fun _ _ _ h h' => h'.trans h) ?_ budget r hr
  intro run hrun f t f' t' hf he
  refine ⟨?_, he.unchanged hf hrun⟩
  obtain rfl | rfl | ⟨set, rfl⟩ := he.guard_cases <;> exact hf

/-- A static frame leaves the transaction exactly as it was, however it ends and whatever it calls;
and a static call leaves it so in any frame, whether it succeeds or not. -/
theorem static_readOnly (prices : Pricing) (budget : Nat) :
    (∀ (f : Frame) (code : Code) (gasLimit : Nat) (t : Txn σ), f.isStatic = true →
      (f.run prices budget code gasLimit t).state = t) ∧
    ∀ r : Activation σ, (r.program.access r.pc).1 = some (.ok .staticCall) →
      (Exec.step prices (Frame.run prices budget) r).state.txn = r.txn := by
  have hrun : ∀ (f : Frame) (code : Code) (gasLimit : Nat) (t : Txn σ), f.isStatic = true →
      (f.run prices budget code gasLimit t).state = t := fun f code gasLimit t hf =>
    Activation.state_finish_of_isStatic prices budget (.start f code gasLimit t) hf
  refine ⟨hrun, fun r hr => ?_⟩
  have hcall : Exec.Ensures r.frame r.txn
      (do Exec.charge (prices.opCost .staticCall)
          Exec.perform prices (Frame.run prices budget) .staticCall)
      (fun _ _ t' => t' = r.txn) fun _ t' => t' = r.txn :=
    (Exec.quiet_charge _).then (fun _ => (Exec.ensures_staticCall hrun).andNext) rfl
  rw [Exec.step_of_access _ _ hr]
  exact hcall.state rfl rfl

/-- A static frame that tries to write a slot, and a frame about to make a static call. -/
theorem static_readOnly_write :
    let prices := ({} : GasSchedule).pricing
    let f : Frame := { Sample.frame .unrestricted with isStatic := true }
    let t := Sample.withContracts []
    let write := Op.encodeAll (Fragment.writeSlot 1 7)
    let r := Activation.start (Sample.frame .unrestricted)
      (Op.encodeAll [.callValue, .caller, .staticCall]) 1000 t
    (f.isStatic = true ∧ (f.run prices 9 write 1000 t).state = t) ∧
      ((r.program.access 2).1 = some (.ok .staticCall) ∧
        (Exec.step prices (Frame.run prices 9) { r with pc := 2 }).state.txn = t) := by
  intro prices f t write r
  have hnext : (r.program.access 2).1 = some (.ok .staticCall) := by cbv
  have hsafe := static_readOnly (σ := Table) prices 9
  exact ⟨⟨rfl, hsafe.1 f write 1000 t rfl⟩, hnext, hsafe.2 { r with pc := 2 } hnext⟩

end MutationGuard
