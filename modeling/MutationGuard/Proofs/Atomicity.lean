import MutationGuard.Machine.Fragment
import MutationGuard.Proofs.Effect
import MutationGuard.Scenario.Sample
import MutationGuard.State.Outage

/-!
Transactions are all or nothing. A frame only ever adds to the pending writes, so that putting back the
snapshot taken at the start gives back the whole transaction, with the writes that were pending before.
`Transaction.Ends` lists the ways in which executing a transaction ends; only one of them leaves a
change. Main statement: `execute_all_or_nothing`.
-/

namespace MutationGuard

variable {σ : Type} [Source σ]

namespace Transaction

/-- How it ends to execute a transaction, and what it leaves pending. -/
inductive Ends (prices : Pricing) (budget : Nat) (tx : Transaction) (t : Txn σ) :
    EStateM.Result ExecError (Txn σ) Receipt → Prop
  /-- The value could not be moved, or the execution was cut short. -/
  | failed (e : ExecError) : Ends prices budget tx t (.error e t)
  | reverted (gasUsed : Nat) : Ends prices budget tx t (.ok ⟨.reverted, gasUsed, []⟩ t)
  | halted : Ends prices budget tx t (.ok ⟨.halted, tx.gasLimit, []⟩ t)
  /-- The frame was successful, and what it leaves is kept. -/
  | kept {paid after : Txn σ} {code : Code} {gasLeft : Nat} {output : Bytes}
    (hpaid : t.transfer? tx.caller tx.target tx.value = .ok (some paid))
    (hcode : paid.code tx.target = .ok code)
    (hrun : tx.frame.run prices budget code tx.gasLimit paid = .ok ⟨.success, gasLeft, output⟩ after) :
    Ends prices budget tx t (.ok ⟨.success, tx.gasLimit - gasLeft, output⟩ after)

/-- Rolling back what the frame leaves undoes the payment as well. -/
theorem rollbackTo_run (prices : Pricing) (budget : Nat) (tx : Transaction) {t paid : Txn σ}
    (hpaid : t.transfer? tx.caller tx.target tx.value = .ok (some paid)) (code : Code) :
    (tx.frame.run prices budget code tx.gasLimit paid).state.rollbackTo t.snapshot = t := by
  apply Txn.rollbackTo_snapshot
  have hrun := Activation.base_finish prices budget (.start tx.frame code tx.gasLimit paid)
  exact hrun.trans (Txn.base_of_transfer? hpaid)

/-- A transaction ends in one of these ways. -/
theorem ends_execute (prices : Pricing) (budget : Nat) (tx : Transaction) (t : Txn σ) :
    tx.Ends prices budget t (tx.execute prices budget t) := by
  obtain ⟨e, hrefused⟩ | ⟨paid, code, hpaid, hcode, hexecute⟩ := tx.execute_cases prices budget t
  · rw [hrefused]
    exact .failed e
  · have hundone := tx.rollbackTo_run prices budget hpaid code
    rw [hexecute]
    cases hrun : tx.frame.run prices budget code tx.gasLimit paid with
    | error cause after =>
      rw [hrun] at hundone
      dsimp only [EStateM.Result.state] at hundone ⊢
      rw [hundone]
      exact .failed _
    | ok outcome after =>
      rw [hrun] at hundone
      dsimp only [EStateM.Result.state] at hundone ⊢
      obtain ⟨status, gasLeft, output⟩ := outcome
      obtain hs | ⟨hs, hempty⟩ | hnothing :=
        Activation.outcome_of_finish budget (.start tx.frame code tx.gasLimit paid) hrun
      · cases hs
        rw [if_pos rfl]
        exact .kept hpaid hcode hrun
      · cases hs
        cases hempty
        rw [if_neg nofun, hundone]
        exact .reverted _
      · cases hnothing
        rw [if_neg nofun, hundone]
        exact .halted

end Transaction

/-- If executing a transaction fails, or its frame is not successful, then the transaction storage is
what it was: every read gives what it gave before, from the writes that were pending or from the source
below. A frame that was not successful has no output, and one that was halted has used all of its gas.
Otherwise the changes are those of the frame, after the value was moved. -/
theorem execute_all_or_nothing (prices : Pricing) (budget : Nat) (tx : Transaction) (t : Txn σ) :
    (∀ e after, tx.execute prices budget t = .error e after → after = t) ∧
    ∀ receipt after, tx.execute prices budget t = .ok receipt after →
      (receipt.status ≠ .success → after = t ∧ receipt.output = []) ∧
      (receipt.status = .halted → receipt.gasUsed = tx.gasLimit) ∧
      (receipt.status = .success → ∃ paid code gasLeft,
        t.transfer? tx.caller tx.target tx.value = .ok (some paid) ∧
        paid.code tx.target = .ok code ∧
        tx.frame.run prices budget code tx.gasLimit paid =
          .ok ⟨.success, gasLeft, receipt.output⟩ after) := by
  have hends := tx.ends_execute prices budget t
  refine ⟨fun e after h => ?_, fun receipt after h => ?_⟩
  · rw [h] at hends
    cases hends with
    | failed => rfl
  · rw [h] at hends
    cases hends with
    | reverted gasUsed => exact ⟨fun _ => ⟨rfl, rfl⟩, nofun, nofun⟩
    | halted => exact ⟨fun _ => ⟨rfl, rfl⟩, fun _ => rfl, nofun⟩
    | kept hpaid hcode hrun =>
      exact ⟨fun hs => absurd rfl hs, nofun, fun _ => ⟨_, _, _, hpaid, hcode, hrun⟩⟩

/-- Three units are moved to one contract, which writes a slot and then pops from an empty stack, and to
another one, which writes a slot and then loads one that cannot be read; both in vain. Bob, who has no
code, is paid. His balance had been written before. -/
theorem execute_all_or_nothing_pending :
    let prices := ({} : GasSchedule).pricing
    let broken : Address := .repeated 0xD0
    let base := (Sample.withContracts
      [(Sample.guarded, Fragment.writeSlot 1 5 ++ [.pop]),
        (broken, Fragment.writeTransientSlot 1 5 ++ [Fragment.number 2, .sload])]).base
    let t : Txn (Unreliable Table) :=
      ⟨⟨base, [(.storage, broken)]⟩, (∅ : Overlay).setBalance Sample.bob 7⟩
    let paying (target : Address) : Transaction := ⟨Sample.alice, target, 3, 100000⟩
    (∃ receipt after, (paying Sample.guarded).execute prices 20 t = .ok receipt after ∧
      receipt.status = .halted ∧ after = t ∧ receipt.output = [] ∧ receipt.gasUsed = 100000) ∧
    (∃ e after, (paying broken).execute prices 20 t = .error e after ∧ after = t) ∧
    ∃ receipt after, (paying Sample.bob).execute prices 20 t = .ok receipt after ∧
      receipt.status = .success ∧
      ∃ paid code gasLeft, (paying Sample.bob).frame.run prices 20 code 100000 paid =
        .ok ⟨.success, gasLeft, receipt.output⟩ after := by
  intro prices broken base t paying
  have hall target := execute_all_or_nothing prices 20 (paying target) t
  refine ⟨?_, ?_, ?_⟩
  · have hstatus : (match (paying Sample.guarded).execute prices 20 t with
        | .ok receipt _ => receipt.status
        | .error _ _ => .success) = .halted := by decide +kernel
    cases hexecute : (paying Sample.guarded).execute prices 20 t with
    | error e after => rw [hexecute] at hstatus; cases hstatus
    | ok receipt after =>
      rw [hexecute] at hstatus
      dsimp only at hstatus
      obtain ⟨hundone, hused, -⟩ := (hall Sample.guarded).2 receipt after hexecute
      obtain ⟨hafter, houtput⟩ := hundone (by rw [hstatus]; nofun)
      exact ⟨receipt, after, rfl, hstatus, hafter, houtput, hused hstatus⟩
  · have hfails : (match (paying broken).execute prices 20 t with
        | .ok _ _ => none
        | .error e _ => some e) = some (.abort (.state ⟨"broken storage " ++ broken.hex⟩)) := by
      decide +kernel
    cases hexecute : (paying broken).execute prices 20 t with
    | ok receipt after => rw [hexecute] at hfails; cases hfails
    | error e after => exact ⟨e, after, rfl, (hall broken).1 e after hexecute⟩
  · have hstatus : (match (paying Sample.bob).execute prices 20 t with
        | .ok receipt _ => receipt.status
        | .error _ _ => .halted) = .success := by decide +kernel
    cases hexecute : (paying Sample.bob).execute prices 20 t with
    | error e after => rw [hexecute] at hstatus; cases hstatus
    | ok receipt after =>
      rw [hexecute] at hstatus
      obtain ⟨paid, code, gasLeft, -, -, hrun⟩ :=
        ((hall Sample.bob).2 receipt after hexecute).2.2 hstatus
      exact ⟨receipt, after, rfl, hstatus, paid, code, gasLeft, hrun⟩

end MutationGuard
