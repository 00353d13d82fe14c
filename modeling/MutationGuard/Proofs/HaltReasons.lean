import MutationGuard.Machine.Fragment
import MutationGuard.Proofs.Calls
import MutationGuard.Proofs.Ledger
import MutationGuard.Scenario.Sample

/-!
A caller cannot tell why its callee was halted. Whatever the callee has done before, and whatever made it
fail, its changes are undone, its output is empty, and all it was handed is spent; so what is left of
the caller is told by the caller alone (`step_of_halted`). Main statement: `halts_indistinguishable`.
-/

namespace MutationGuard

variable {σ ε α : Type}

namespace Exec

variable {run : Runner σ} {child : Frame} {code : Code} {requested : Word}
  {prepare : Txn σ → Except Fault (Option (Txn σ))} {r : Activation σ} {prepared after : Txn σ}
  {outcome : Outcome}

/-- Entering a frame that is halted: what it was handed is spent, its writes are undone, and nothing else
comes back. -/
theorem enter_of_halted (hrun : run.Regular) (hp : prepare r.txn = .ok (some prepared))
    (hr : run child code (min (saturate requested.toNat) r.gas.remaining) prepared =
      .ok outcome after)
    (hs : outcome.status = .halted) :
    enter run child code requested prepare r =
      match r.gas.charge (min (saturate requested.toNat) r.gas.remaining) with
      | .error e => .error (.outOfGas e) r
      | .ok meter =>
        .ok (some ⟨.halted, 0, []⟩) { r with gas := meter, txn := ⟨prepared.base, r.txn.pending⟩ } := by
  cases hrun.halted hr hs
  have hback : after.rollbackTo r.txn.snapshot = ⟨prepared.base, r.txn.pending⟩ := by
    rw [← hrun.base_of_ok hr]
    rfl
  rw [enter_eq]
  dsimp only
  cases r.gas.charge (min (saturate requested.toNat) r.gas.remaining) with
  | error e => rfl
  | ok meter =>
    rw [hp]
    dsimp only
    rw [hr]
    dsimp only
    rw [if_neg nofun, hback]
    rfl

/-- A meter that is sound pays for what is handed over, which is no more than remains. -/
theorem charge_handed {m : GasMeter} (h : m.Sound) (n : Nat) :
    m.charge (min n m.remaining) = .ok { m with spent := m.spent + min n m.remaining } := by
  have hle : m.spent ≤ m.limit := h
  refine GasMeter.charge_eq_ok_iff.mpr ⟨?_, rfl⟩
  unfold GasMeter.remaining
  omega

/-! ## One step -/

theorem txn_onStack (action : Stack.Action α) (r : Activation σ) :
    (onStack action r).state.txn = r.txn := by
  rw [onStack_eq]
  cases action r.stack <;> rfl

theorem andNext_congr {x y : Exec σ Unit} {r s : Activation σ} (h : x r = y s) :
    andNext x r = andNext y s := by
  simp only [andNext, bind, EStateM.bind, h]

/-- An action on the stack does the same on any transaction. -/
theorem andNext_onStack_txn (action : Stack.Action Unit) (r : Activation σ) (t : Txn σ) :
    andNext (onStack action) { r with txn := t } =
      (andNext (onStack action) r).mapState ({ · with txn := t }) := by
  obtain ⟨frame, pc, stack, memory, gas, program, txn⟩ := r
  simp only [andNext, bind, EStateM.bind, onStack]
  cases action stack <;> rfl

theorem push_of_room {w : Word} {r : Activation σ} (h : r.stack.words.length < Stack.sizeLimit) :
    andNext (onStack (Stack.push w)) r =
      .ok (.next (r.pc + 1)) { r with stack := ⟨w :: r.stack.words⟩ } := by
  have hpush : onStack (Stack.push w) r = .ok () { r with stack := ⟨w :: r.stack.words⟩ } := by
    rw [onStack_eq, Stack.push, if_neg (Nat.not_le.mpr h)]
  exact bind_of_ok hpush

/-- An action on the stack does the same without the record. -/
theorem andNext_onStack_plain (action : Stack.Action Unit) (r : Activation (Recorded ε σ)) :
    (andNext (onStack action) r).mapState (fun s => s.plain s.frame.guard) =
      andNext (onStack action) (r.plain r.frame.guard) := by
  obtain ⟨frame, pc, stack, memory, gas, program, txn⟩ := r
  simp only [andNext, bind, EStateM.bind, onStack, Activation.plain]
  cases action stack <;> rfl

theorem txn_bind_onStack {x : Exec σ α} {action : α → Stack.Action Unit} {r : Activation σ} :
    ((x >>= fun a => onStack (action a)) r).state.txn = (x r).state.txn := by
  cases h : x r with
  | ok a s => rw [bind_of_ok h, txn_onStack]; rfl
  | error e s => rw [bind_of_error h]; rfl

section Noting

variable {r : Activation (Recorded Visit σ)} {v : Visit}
  {prepare : Txn (Recorded Visit σ) → Except Fault (Option (Txn (Recorded Visit σ)))}

/-- A frame that is on record was paid for, prepared, and ran to its end. -/
theorem entered_of_visit (hprepare : Txn.Prepares prepare) (hempty : r.txn.events = [])
    (hv : v ∈ (enter run.noting child code requested prepare r).state.txn.events) :
    let handed := min (saturate requested.toNat) r.gas.remaining
    ∃ prepared outcome after, r.gas.spent + handed ≤ r.gas.limit ∧
      prepare r.txn = .ok (some prepared) ∧
      run child code handed prepared.plain = .ok outcome after ∧ v = ⟨child, handed, outcome⟩ := by
  intro handed
  have hnone : v ∉ r.txn.events := by
    rw [hempty]
    exact List.not_mem_nil
  rw [enter_eq] at hv
  dsimp only at hv
  cases hm : r.gas.charge handed with
  | error e =>
    rw [hm] at hv
    exact absurd hv hnone
  | ok meter =>
    rw [hm] at hv
    cases hp : prepare r.txn with
    | error fault =>
      rw [hp] at hv
      exact absurd hv hnone
    | ok found =>
      cases found with
      | none =>
        rw [hp] at hv
        exact absurd hv hnone
      | some prepared =>
        have hevents : prepared.events = [] := by
          rw [Txn.events, hprepare _ _ hp]
          exact hempty
        rw [hp] at hv
        dsimp only [Runner.noting] at hv
        cases hr : run child code handed prepared.plain with
        | error cause after =>
          rw [hr] at hv
          have hv : v ∈ [] ++ prepared.events := hv
          rw [hevents] at hv
          cases hv
        | ok outcome after =>
          rw [hr] at hv
          -- a rollback keeps the record
          have hv : v ∈ [] ++ (prepared.events ++ [⟨child, handed, outcome⟩]) := by
            dsimp only at hv
            split at hv <;> exact hv
          rw [hevents] at hv
          exact ⟨prepared, outcome, after, (GasMeter.charge_eq_ok_iff.mp hm).1, rfl, hr,
            List.mem_singleton.mp hv⟩

/-- A frame that is on record as halted leaves nothing but the record. -/
theorem enter_noting_of_halted (hrun : run.Regular) (hprepare : Txn.Prepares prepare)
    (hempty : r.txn.events = [])
    (hv : v ∈ (enter run.noting child code requested prepare r).state.txn.events)
    (hs : v.outcome.status = .halted) :
    enter run.noting child code requested prepare r =
      .ok (some ⟨.halted, 0, []⟩)
        { r with
          gas :=
            { r.gas with
              spent := r.gas.spent + min (saturate requested.toNat) r.gas.remaining }
          txn := r.txn.record [v] } := by
  obtain ⟨prepared, outcome, after, hpaid, hp, hr, rfl⟩ := entered_of_visit hprepare hempty hv
  have hbase : prepared.base = r.txn.base := hprepare _ _ hp
  have hsource : after.base = prepared.base.source := hrun.base_of_ok hr
  cases hrun.halted hr hs
  have hback : ∀ visit, ((after.recording.record (prepared.events ++ [visit])).rollbackTo
      r.txn.snapshot) = r.txn.record [visit] := by
    intro visit
    have hbase' : (after.recording.record (prepared.events ++ [visit])).base =
        (r.txn.record [visit]).base := by
      unfold Txn.record Txn.recording Txn.events
      rw [hsource, ← hbase]
      rfl
    exact congrArg (Txn.mk · r.txn.pending) hbase'
  rw [enter_eq]
  dsimp only [Runner.noting]
  rw [GasMeter.charge_eq_ok_iff.mpr ⟨hpaid, rfl⟩, hp]
  dsimp only
  rw [hr]
  dsimp only
  rw [if_neg nofun, hback]
  rfl

variable [Source σ]

/-- A call whose callee is on record as halted goes on as if all it had done was to pay for what it hands
over. -/
theorem callee_noting_of_halted {deep : Bool} {a : Address} (hrun : run.Regular)
    (hprepare : Txn.Prepares prepare) (hempty : r.txn.events = [])
    (hv : v ∈ (callee run.noting deep a child requested prepare r).state.txn.events)
    (hs : v.outcome.status = .halted) :
    callee run.noting deep a child requested prepare r =
      onStack (Stack.pushBool false)
        { r with
          gas :=
            { r.gas with
              spent := r.gas.spent + min (saturate requested.toNat) r.gas.remaining }
          txn := r.txn.record [v] } := by
  have hnone : v ∉ r.txn.events := by
    rw [hempty]
    exact List.not_mem_nil
  cases deep with
  | true =>
    have hv : v ∈ (onStack (Stack.pushBool false) r).state.txn.events := hv
    rw [txn_onStack] at hv
    exact absurd hv hnone
  | false =>
    have hread := readState_eq (·.code a) r
    rw [callee_of_not_deep] at hv ⊢
    cases hcode : r.txn.code a with
    | error fault =>
      rw [hcode] at hread
      rw [bind_of_error hread] at hv
      exact absurd hv hnone
    | ok code =>
      rw [hcode] at hread
      rw [bind_of_ok hread] at hv ⊢
      rw [txn_bind_onStack] at hv
      exact bind_of_ok (enter_noting_of_halted hrun hprepare hempty hv hs)

end Noting

end Exec

/-- What is left of a frame that makes a call once the operation and what is handed over are paid for
and the operands are taken. -/
def Activation.handingOver (prices : Pricing) (r : Activation σ) (op : Op) : Activation σ :=
  { r with
    program := (r.program.access r.pc).2
    stack := ⟨r.stack.words.drop op.operands⟩
    gas :=
      { r.gas with
        spent := r.gas.spent + prices.opCost op +
          min (saturate (r.requested op).toNat) (r.gas.remaining - prices.opCost op) } }

namespace Exec

variable [Source σ]

/-- A call whose callee is halted pushes zero and goes on, and has spent what it handed over. Nothing
else is left of the callee. -/
theorem step_of_halted {prices : Pricing} {r : Activation σ} {op : Op} (hrun : run.Regular)
    (hcall : op.isCall = true) (hop : r.next? = some op) {v : Visit} (hv : v ∈ r.visits prices run)
    (hs : v.outcome.status = .halted) :
    step prices run r = andNext (onStack (Stack.pushBool false)) (r.handingOver prices op) := by
  let noted : Activation (Recorded Visit σ) := r.recording
  have hop' : noted.next? = some op := hop
  have hempty : noted.txn.events = [] := rfl
  unfold Activation.visits at hv
  rw [Activation.step_noting]
  rw [step_eq hop'] at hv ⊢
  cases hm : noted.gas.charge (prices.opCost op) with
  | error e =>
    rw [hm] at hv
    cases hv
  | ok meter =>
    rw [hm] at hv
    dsimp only at hv ⊢
    obtain ⟨x, hx, hcases⟩ := perform_call_cases prices hcall (noted.paying meter)
    rw [hx] at hv ⊢
    obtain ⟨e, s, htxn, hfails⟩ | ⟨a, child, prepare, hprepare, -, hgoes⟩ := hcases
    · rw [state_andNext, hfails] at hv
      have hv : v ∈ s.txn.events := hv
      rw [htxn] at hv
      cases hv
    · rw [state_andNext, hgoes] at hv
      -- only the record tells how the callee ended, so it is dropped after it is read
      have hcallee := callee_noting_of_halted hrun hprepare (by exact hempty) hv hs
      rw [andNext_congr ((hgoes _).trans hcallee), andNext_onStack_plain]
      obtain ⟨-, rfl⟩ := GasMeter.charge_eq_ok_iff.mp hm
      have hremaining : r.gas.limit - (r.gas.spent + prices.opCost op) =
          r.gas.remaining - prices.opCost op := by
        unfold GasMeter.remaining
        omega
      unfold Activation.handingOver
      rw [← hremaining]
      rfl

theorem two_le_operands {op : Op} (h : op.isCall = true) : 2 ≤ op.operands := by
  cases op with
  | call | staticCall | delegateCall => decide
  | _ => cases h

end Exec

open Exec in
/-- Two frames that are halted, whatever their code and whatever the reason, look the same to the frame
that enters them with the same gas and the same preparation: entering them gives no output, no gas and
the same transaction, and costs all that was handed over. If the preparation only writes, the transaction
is exactly the one before. So a call whose callee is halted leaves the same stack, memory, meter and
restriction behind, and goes on at the same place, whatever the transaction is that it was made on and
whatever happened on it; the transaction itself is what it was. -/
theorem halts_indistinguishable [Source σ] (prices : Pricing) (budget budget' : Nat) :
    (∀ (r : Activation σ) (requested : Word) (prepare : Txn σ → Except Fault (Option (Txn σ)))
      (child child' : Frame) (code code' : Code) (outcome outcome' : Outcome)
      (prepared after after' : Txn σ),
      let handed := min (saturate requested.toNat) r.gas.remaining
      prepare r.txn = .ok (some prepared) →
      child.run prices budget code handed prepared = .ok outcome after →
      outcome.status = .halted →
      child'.run prices budget' code' handed prepared = .ok outcome' after' →
      outcome'.status = .halted →
        enter (Frame.run prices budget) child code requested prepare r =
          enter (Frame.run prices budget') child' code' requested prepare r ∧
        (r.gas.Sound → prepared.base = r.txn.base →
          enter (Frame.run prices budget) child code requested prepare r =
            .ok (some ⟨.halted, 0, []⟩)
              { r with gas := { r.gas with spent := r.gas.spent + handed } })) ∧
    ∀ (r r' : Activation σ) (op : Op), op.isCall = true → r.next? = some op →
      r' = { r with txn := r'.txn } →
      (∃ v ∈ r.visits prices (Frame.run prices budget), v.outcome.status = .halted) →
      (∃ v ∈ r'.visits prices (Frame.run prices budget'), v.outcome.status = .halted) →
        step prices (Frame.run prices budget') r' =
          (step prices (Frame.run prices budget) r).mapState ({ · with txn := r'.txn }) ∧
        (step prices (Frame.run prices budget) r).state.txn = r.txn ∧
        (r.stack.words.length ≤ Stack.sizeLimit →
          step prices (Frame.run prices budget) r =
            .ok (.next (r.pc + 1))
              { r.handingOver prices op with stack := ⟨0 :: r.stack.words.drop op.operands⟩ }) := by
  have hregular (budget : Nat) : Runner.Regular (σ := σ) (Frame.run prices budget) :=
    Frame.regular_run prices budget
  constructor
  · intro r requested prepare child child' code code' outcome outcome' prepared after after' handed
      hp hr hs hr' hs'
    have henter := enter_of_halted (hregular budget) hp hr hs
    have henter' := enter_of_halted (hregular budget') hp hr' hs'
    refine ⟨henter.trans henter'.symm, fun hsound hbase => ?_⟩
    rw [henter, charge_handed hsound, hbase]
  · rintro r r' op hcall hop hsame ⟨v, hv, hs⟩ ⟨v', hv', hs'⟩
    have hop' : r'.next? = some op := by
      rw [hsame]
      exact hop
    have hstep := step_of_halted (hregular budget) hcall hop hv hs
    have hstep' := step_of_halted (hregular budget') hcall hop' hv' hs'
    have hleft : r'.handingOver prices op = { r.handingOver prices op with txn := r'.txn } := by
      rw [hsame]
      rfl
    refine ⟨?_, ?_, fun hroom => ?_⟩
    · rw [hstep, hstep', hleft, andNext_onStack_txn]
    · rw [hstep, state_andNext, txn_onStack]
      rfl
    · have htwo := two_le_operands hcall
      rw [hstep]
      refine push_of_room ?_
      change (r.stack.words.drop op.operands).length < _
      rw [List.length_drop]
      unfold Stack.sizeLimit at *
      omega

open Exec in
/-- Bob writes a slot and then takes from an empty stack; or he goes round in circles until his gas is
gone. -/
theorem halts_indistinguishable_reasons :
    let prices : Pricing := ⟨{}, fun _ => 10⟩
    let failing := Fragment.writeSlot 1 5 ++ [.pop]
    let circling := [.callValue, .jump]
    let f := Sample.frame .unrestricted
    let r : Activation Table :=
      { Activation.start f (Op.encodeAll [.call]) 1000
          (Sample.withContracts [(Sample.bob, failing)]) with
        stack := ⟨[0, Sample.bob.toWord, 100]⟩ }
    let r' := { r with txn := Sample.withContracts [(Sample.bob, circling)] }
    enter (Frame.run prices 20) f (Op.encodeAll failing) 100 (fun t => .ok (some t)) r =
      enter (Frame.run prices 30) f (Op.encodeAll circling) 100 (fun t => .ok (some t)) r ∧
    step prices (Frame.run prices 30) r' =
      (step prices (Frame.run prices 20) r).mapState ({ · with txn := r'.txn }) ∧
    step prices (Frame.run prices 20) r =
      .ok (.next 1) { r.handingOver prices .call with stack := ⟨[0]⟩ } := by
  intro prices failing circling f r r'
  obtain ⟨henter, hstep⟩ := halts_indistinguishable (σ := Table) prices 20 30
  have hfails : (f.run prices 20 (Op.encodeAll failing) 100 r.txn).ok?.map (·.1.status) =
      some .halted := by decide +kernel
  have hcircles : (f.run prices 30 (Op.encodeAll circling) 100 r.txn).ok?.map (·.1.status) =
      some .halted := by decide +kernel
  constructor
  · obtain ⟨outcome, after, hr, hs⟩ := EStateM.Result.exists_of_ok? hfails
    obtain ⟨outcome', after', hr', hs'⟩ := EStateM.Result.exists_of_ok? hcircles
    exact (henter r 100 _ f f _ _ outcome outcome' r.txn after after' rfl hr hs hr' hs').1
  · have hop : r.next? = some .call := by cbv
    obtain ⟨hsame, -, hexact⟩ := hstep r r' .call rfl hop rfl (by decide +kernel) (by decide +kernel)
    exact ⟨hsame, hexact (by decide)⟩

end MutationGuard
