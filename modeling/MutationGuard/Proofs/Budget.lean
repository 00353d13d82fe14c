import MutationGuard.Proofs.Effect

/-!
The step budget. A run that ends within its budget ends in the same way with any larger one: an action
`Extends` another if it does the same unless the other one ran out of steps, and with one step more
the frames that are entered are extended, so the operations are, and so the run is
(`finish_extends`).
-/

namespace MutationGuard

variable {σ α β : Type}

/-- The second runner does as the first one, unless the first one runs out of steps. -/
def Runner.Extends (run' run : Runner σ) : Prop :=
  ∀ f code gas t, (∃ after, run f code gas t = .error .outOfSteps after) ∨
    run' f code gas t = run f code gas t

namespace Exec

/-- The second action does as the first one, unless the first one runs out of steps. -/
def Extends (y x : Exec σ α) : Prop :=
  ∀ r, (∃ s, x r = .error (.abort .outOfSteps) s) ∨ y r = x r

theorem Extends.refl (x : Exec σ α) : Extends x x := fun _ => .inr rfl

theorem Extends.bind {x y : Exec σ α} {g k : α → Exec σ β} (hx : Extends y x)
    (hg : ∀ a, Extends (k a) (g a)) : Extends (y >>= k) (x >>= g) := by
  intro r
  obtain ⟨s, hs⟩ | hsame := hx r
  · exact .inl ⟨s, bind_of_error hs⟩
  · cases hr : x r with
    | error e s =>
      rw [hr] at hsame
      exact .inr ((bind_of_error hsame).trans (bind_of_error hr).symm)
    | ok a s =>
      rw [hr] at hsame
      rw [bind_of_ok hsame, bind_of_ok hr]
      exact hg a s

/-- The same action in front of both. -/
theorem Extends.then (x : Exec σ α) {g k : α → Exec σ β} (hg : ∀ a, Extends (k a) (g a)) :
    Extends (x >>= k) (x >>= g) :=
  (Extends.refl x).bind hg

theorem Extends.andNext {x y : Exec σ Unit} (hx : Extends y x) : Extends (andNext y) (andNext x) :=
  hx.bind fun _ => .refl _

variable {run run' : Runner σ}

theorem extends_enter (hrun : run'.Extends run) (child : Frame) (code : Code) (requested : Word)
    (prepare : Txn σ → Except Fault (Option (Txn σ))) :
    Extends (enter run' child code requested prepare) (enter run child code requested prepare) := by
  intro r
  rw [enter_eq, enter_eq]
  dsimp only
  generalize min (saturate requested.toNat) r.gas.remaining = handed
  cases r.gas.charge handed with
  | error e => exact .inr rfl
  | ok meter =>
    cases prepare r.txn with
    | error fault => exact .inr rfl
    | ok found =>
      cases found with
      | none => exact .inr rfl
      | some prepared =>
        dsimp only
        obtain ⟨after, hout⟩ | hsame := hrun child code handed prepared
        · rw [hout]
          exact .inl ⟨_, rfl⟩
        · rw [hsame]
          exact .inr rfl

variable [Source σ]

theorem extends_callee (hrun : run'.Extends run) (deep : Bool) (a : Address) (child : Frame)
    (requested : Word) (prepare : Txn σ → Except Fault (Option (Txn σ))) :
    Extends (callee run' deep a child requested prepare)
      (callee run deep a child requested prepare) := by
  cases deep with
  | true => exact .refl _
  | false => exact .then _ fun _ => (extends_enter hrun _ _ _ _).bind fun _ => .refl _

theorem extends_call (hrun : run'.Extends run) : Extends (call run') (call run) := by
  refine .then _ fun (requested, callee, value) => .then _ fun f => ?_
  dsimp only
  split
  · exact .refl _
  · exact .then _ fun _ => extends_callee hrun _ _ _ _ _

theorem extends_staticCall (hrun : run'.Extends run) :
    Extends (staticCall run') (staticCall run) :=
  .then _ fun _ => .then _ fun _ => extends_callee hrun _ _ _ _ _

theorem extends_delegateCall (hrun : run'.Extends run) :
    Extends (delegateCall run') (delegateCall run) :=
  .then _ fun _ => .then _ fun _ => .then _ fun _ => extends_callee hrun _ _ _ _ _

theorem extends_create (prices : Pricing) (hrun : run'.Extends run) :
    Extends (create prices run') (create prices run) := by
  refine .then _ fun _ => .then _ fun _ => .then _ fun _ => .then _ fun f => .then _ fun nonce => ?_
  refine .then _ fun _ => ?_
  split
  · exact .refl _
  refine .then _ fun _ => .then _ fun taken => ?_
  cases taken with
  | true => exact .refl _
  | false => exact (extends_enter hrun _ _ _ _).bind fun _ => .refl _

theorem extends_step (prices : Pricing) (hrun : run'.Extends run) :
    Extends (step prices run') (step prices run) := by
  refine .then _ fun found => ?_
  cases found with
  | none => exact .refl _
  | some op =>
    refine .then _ fun _ => ?_
    cases op with
    | call => exact (extends_call hrun).andNext
    | staticCall => exact (extends_staticCall hrun).andNext
    | delegateCall => exact (extends_delegateCall hrun).andNext
    | create => exact (extends_create prices hrun).andNext
    | _ => exact .refl _

end Exec

/-! ## Whole runs -/

section Runs

variable [Source σ] {prices : Pricing}

/-- With one more step in the budget a run ends as before, unless it ran out of steps. -/
theorem Activation.finish_extends (r : Activation σ) (budget : Nat) :
    (∃ after, r.finish prices budget = .error .outOfSteps after) ∨
      r.finish prices (budget + 1) = r.finish prices budget := by
  induction budget generalizing r with
  | zero => exact .inl ⟨r.txn, rfl⟩
  | succ budget ih =>
    have hrun : Runner.Extends (Frame.run (σ := σ) prices (budget + 1)) (Frame.run prices budget) :=
      fun f code gas t => ih (.start f code gas t)
    rw [finish_succ, finish_succ]
    obtain ⟨s, hout⟩ | hsame := Exec.extends_step prices hrun r
    · rw [hout]
      exact .inl ⟨s.txn, rfl⟩
    · rw [hsame]
      cases Exec.step prices (Frame.run prices budget) r with
      | error e s => cases e <;> exact .inr rfl
      | ok next s =>
        cases next with
        | next pc => exact ih { s with pc := pc }
        | exit status output => exact .inr rfl

theorem Activation.finish_add_of_ok {r : Activation σ} {budget : Nat} {outcome : Outcome} {t : Txn σ}
    (h : r.finish prices budget = .ok outcome t) (more : Nat) :
    r.finish prices (budget + more) = .ok outcome t := by
  induction more with
  | zero => exact h
  | succ more ih =>
    have hextends : (∃ after, r.finish prices (budget + more) = .error .outOfSteps after) ∨
        r.finish prices (budget + more + 1) = r.finish prices (budget + more) := r.finish_extends _
    obtain ⟨after, hout⟩ | hsame := hextends
    · rw [ih] at hout
      cases hout
    · exact hsame.trans ih

/-- Once a run ends within every budget from some size on, all these budgets give the same end. -/
theorem Frame.run_eq_of_le {f : Frame} {code : Code} {gasLimit : Nat} {t : Txn σ} {enough : Nat}
    (hends : ∀ budget, enough ≤ budget → ∀ after,
      f.run prices budget code gasLimit t ≠ .error .outOfSteps after)
    {budget : Nat} (h : enough ≤ budget) :
    f.run prices budget code gasLimit t = f.run prices enough code gasLimit t := by
  induction h with
  | refl => rfl
  | @step budget hle ih =>
    obtain ⟨after, hout⟩ | hsame :=
      (Activation.start f code gasLimit t).finish_extends budget
    · exact absurd hout (hends budget hle after)
    · exact hsame.trans ih

end Runs
end MutationGuard
