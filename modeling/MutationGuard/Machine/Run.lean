import MutationGuard.Machine.Step

/-!
Running a frame to its end. A frame steps until an operation ends it; an operation that fails halts
it, which leaves no gas and no output. Frames that a step calls are run the same way. The evaluation
is given a step budget: so many steps in a row for each frame, each called frame having as many as
were left to its caller. Running out of it is an abort of its own, never an outcome.
-/

namespace MutationGuard

namespace Activation

variable {σ : Type}

/-- Steps a frame under way until it ends, by any rule for a single step. -/
def finishWith (step : Runner σ → Exec σ Step) :
    Nat → Activation σ → EStateM.Result Abort (Txn σ) Outcome
  | 0, r => .error .outOfSteps r.txn
  | budget + 1, r =>
    let run : Runner σ := fun child code gas txn =>
      finishWith step budget (.start child code gas txn)
    match step run r with
    | .ok (.next pc) r => finishWith step budget { r with pc := pc }
    | .ok (.exit status output) r => .ok ⟨status, r.gas.remaining, output⟩ r.txn
    | .error (.abort cause) r => .error cause r.txn
    | .error _ r => .ok ⟨.halted, r.gas.exhaust.remaining, []⟩ r.txn

/-- Steps a frame under way until it ends. -/
def finish [Source σ] (prices : Pricing) :
    Nat → Activation σ → EStateM.Result Abort (Txn σ) Outcome :=
  finishWith (Exec.step prices)

end Activation

/-- Runs the code of a frame with so much gas. -/
def Frame.run {σ : Type} [Source σ] (prices : Pricing) (budget : Nat) : Runner σ :=
  fun frame code gasLimit txn => (Activation.start frame code gasLimit txn).finish prices budget

end MutationGuard
