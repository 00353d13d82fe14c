import MutationGuard.Proofs.Budget
import MutationGuard.Proofs.Comparison
import MutationGuard.Proofs.Spending

/-!
Gas bounds how long a frame runs. `Frame.trace` lists the steps that a frame and all the frames below it
take. Each step that is charged takes at least one unit of the gas that the frame and the frames below
it still have, and a child frame returns only what neither it nor the frames below it have used; so no
more steps are charged than there was gas (`reports_finish`). Where every operation that does not end
its frame for nothing has a price, a run is over within as many steps as there was gas. Main statement:
`terminates`.
-/

namespace MutationGuard

variable {σ : Type}

/-! ## The steps of a run -/

/-- A step of a frame: the frame as it is before it, and the operation that it pays for, if any. -/
structure Stepped where
  frame : Frame
  paid? : Option Op

/-- The step was charged something. -/
def Stepped.charged (prices : Pricing) (s : Stepped) : Bool :=
  match s.paid? with
  | some op => 0 < prices.opCost op
  | none => false

/-- The operation that a frame under way is about to pay for. -/
def Activation.paid? (prices : Pricing) (r : Activation σ) : Option Op :=
  match r.next? with
  | some op => if r.gas.spent + prices.opCost op ≤ r.gas.limit then some op else none
  | none => none

section Paid

variable {prices : Pricing} {r : Activation σ} {op : Op}

theorem Activation.paid?_eq_some (h : r.next? = some op) {meter : GasMeter}
    (hm : r.gas.charge (prices.opCost op) = .ok meter) : r.paid? prices = some op := by
  unfold paid?
  rw [h]
  exact if_pos (GasMeter.charge_eq_ok_iff.mp hm).1

theorem Activation.paid?_eq_none_of_charge (h : r.next? = some op) {e : OutOfGas}
    (hm : r.gas.charge (prices.opCost op) = .error e) : r.paid? prices = none := by
  unfold paid?
  rw [h]
  refine if_neg fun hle => ?_
  rw [GasMeter.charge_eq_ok_iff.mpr ⟨hle, rfl⟩] at hm
  cases hm

theorem Activation.paid?_eq_none (h : r.next? = none) : r.paid? prices = none := by
  unfold paid?
  rw [h]

end Paid

/-- Every step goes on record. -/
def Note.stepped (prices : Pricing) : Note Stepped σ := fun r _ => [⟨r.frame, r.paid? prices⟩]

/-- The steps that are taken while the code of a frame runs, in the frame and in all the frames below
it. -/
def Frame.trace [Source σ] (prices : Pricing) (budget : Nat) (f : Frame) (code : Code) (gasLimit : Nat)
    (t : Txn σ) : List Stepped :=
  (f.recorded (Note.stepped prices) prices budget code gasLimit t.recording).state.events

/-- A contract that goes back to its start is charged until its gas is gone. -/
example :
    ((Sample.frame .unrestricted).trace ({} : GasSchedule).pricing 40
      (Op.encodeAll [.callValue, .jump]) 100 (Sample.withContracts [])).countP
        (·.charged ({} : GasSchedule).pricing) = 33 := by
  decide +kernel

/-- The operations that need no price: they end their frame, and take no steps to do so. -/
def Op.isFinal : Op → Bool
  | .halt | .ret | .revert => true
  | _ => false

/-- Every operation but those that end their frame for nothing costs so much. -/
def Pricing.AtLeast (prices : Pricing) (k : Nat) : Prop :=
  ∀ op, op.isFinal = false → k ≤ prices.opCost op

/-- An operation that ends its frame for nothing does not go on, and takes no steps. -/
theorem Exec.perform_of_isFinal [Source σ] {prices : Pricing} {run : Runner σ}
    {r s : Activation σ} {op : Op} (hr : r.gas.Sound) (hop : op.isFinal = true) :
    (∀ pc, perform prices run op r ≠ .ok (.next pc) s) ∧
      perform prices run op r ≠ .error (.abort .outOfSteps) s := by
  cases op with
  | halt | revert => exact ⟨nofun, nofun⟩
  | ret =>
    have hread : ∀ {result}, perform prices run .ret r = result →
        (popRange prices >>= fun bytes => pure (.exit .success bytes)) r = result := by
      rintro _ rfl
      rfl
    refine ⟨fun pc h => ?_, fun h => ?_⟩
    · obtain ⟨bytes, u, -, hexit⟩ := ok_of_bind (hread h)
      cases hexit
    · cases hp : popRange prices r with
      | ok bytes u =>
        have hexit := (bind_of_ok hp).symm.trans (hread h)
        cases hexit
      | error e u =>
        have herror := (bind_of_error hp).symm.trans (hread h)
        cases herror
        exact popRange_ne_outOfSteps hr hp
  | _ => cases hop

/-! ## Counting charged steps -/

section Counting

variable {prices : Pricing}

/-- The charged steps on record. -/
def Txn.charged (prices : Pricing) (t : Txn (Recorded Stepped σ)) : Nat :=
  t.events.countP (·.charged prices)

theorem Txn.charged_record (t : Txn (Recorded Stepped σ)) (step : Stepped) :
    (t.record [step]).charged prices =
      t.charged prices + if step.charged prices then 1 else 0 := by
  have hevents : (t.record [step]).events = t.events ++ [step] := rfl
  unfold charged
  rw [hevents, List.countP_append, List.countP_singleton]

/-- A step that pays is charged at most once, and only if it pays something. -/
theorem Txn.charged_record_le (t : Txn (Recorded Stepped σ)) {f : Frame} {paid? : Option Op} {op : Op}
    (h : paid? = some op) :
    (t.record [⟨f, paid?⟩]).charged prices ≤ t.charged prices + prices.opCost op := by
  subst h
  rw [charged_record]
  unfold Stepped.charged
  dsimp only
  split
  · have hpos : 0 < prices.opCost op := of_decide_eq_true (by assumption)
    omega
  · omega

/-- A step that pays for nothing is not charged. -/
theorem Txn.charged_record_of_unpaid (t : Txn (Recorded Stepped σ)) {f : Frame} {paid? : Option Op}
    (h : paid? = none) : (t.record [⟨f, paid?⟩]).charged prices = t.charged prices := by
  subst h
  rw [charged_record]
  rfl

/-- Every unit of gas that was used pays for at most one charged step. -/
def Tally.counting (prices : Pricing) (fuel : Nat) : Tally (Recorded Stepped σ) where
  prices := prices
  adds b b' n :=
    b'.events.countP (·.charged prices) ≤ b.events.countP (·.charged prices) + n
  fuel := fuel
  zero _ := Nat.le_refl _
  add h h' := by omega

variable {k fuel : Nat} {r s : Activation (Recorded Stepped σ)}

/-- What is reported of the rest of a run holds of the whole run, one step earlier. -/
theorem reports_next {budget : Nat} {result : EStateM.Result Abort (Txn (Recorded Stepped σ)) Outcome}
    (hcharged : s.txn.charged prices + s.gas.remaining ≤ r.txn.charged prices + r.gas.remaining)
    (hpaid : s.gas.remaining + k ≤ r.gas.remaining)
    (h : (Tally.counting prices (k * budget)).Reports s.txn.base s.gas.remaining result) :
    (Tally.counting prices (k * (budget + 1))).Reports r.txn.base r.gas.remaining result := by
  have hfuel : k * (budget + 1) = k * budget + k := Nat.mul_succ k budget
  cases result with
  | ok outcome after =>
    obtain ⟨hleft, hadds⟩ := h
    have hafter : after.charged prices ≤
        s.txn.charged prices + (s.gas.remaining - outcome.gasLeft) := hadds
    have hgoal : after.charged prices ≤
        r.txn.charged prices + (r.gas.remaining - outcome.gasLeft) := by omega
    exact ⟨by omega, hgoal⟩
  | error cause after =>
    obtain ⟨⟨below, hadds, hbelow⟩, hsteps⟩ := h
    have hafter : after.charged prices ≤ s.txn.charged prices + below := hadds
    have hgoal : after.charged prices ≤ r.txn.charged prices + r.gas.remaining := by omega
    refine ⟨⟨r.gas.remaining, hgoal, Nat.le_refl _⟩, fun hout => ?_⟩
    have hrest : k * budget ≤ s.gas.remaining := hsteps hout
    change k * (budget + 1) ≤ _
    omega

variable [Source σ] {run : Runner (Recorded Stepped σ)}

namespace Exec

/-- How a step may end if every unit of gas pays for one charged step: as many more are on record as gas
is gone, and `k` units are gone if the frame goes on. -/
def Leaves (prices : Pricing) (fuel k : Nat) (r : Activation (Recorded Stepped σ)) :
    EStateM.Result OpError (Activation (Recorded Stepped σ)) Step → Prop
  | .ok next s =>
    s.gas.Sound ∧ s.gas.remaining ≤ r.gas.remaining ∧
      s.txn.charged prices + s.gas.remaining ≤ r.txn.charged prices + r.gas.remaining ∧
      ∀ pc, next = .next pc → s.gas.remaining + k ≤ r.gas.remaining
  | .error e s =>
    s.txn.charged prices ≤ r.txn.charged prices + r.gas.remaining ∧
      (e = .abort .outOfSteps → fuel + k ≤ r.gas.remaining)

/-- A step that pays for its operation. -/
theorem leaves_of_paid {op : Op} {meter : GasMeter} (hk : prices.AtLeast k)
    (hrun : ∀ gas, (Tally.counting prices fuel).Honest run gas) (hnext : r.next? = some op)
    (hm : r.gas.charge (prices.opCost op) = .ok meter) :
    Leaves prices fuel k r (recorded (Note.stepped prices) prices run r) := by
  have hsound : (r.paying meter).gas.Sound := GasMeter.sound_of_charge hm
  have hremaining : (r.paying meter).gas.remaining + prices.opCost op = r.gas.remaining :=
    GasMeter.remaining_of_charge hm
  have hspends : Spends (.counting prices fuel) (r.paying meter) (perform prices run op)
      ((r.paying meter).decodeCost prices op) := spends_perform op (hrun _)
  unfold recorded
  rw [step_eq hnext, hm]
  dsimp only
  cases hp : perform prices run op (r.paying meter) with
  | ok next s =>
    have hspent := hspends.of_ok hsound hp
    obtain ⟨below, hadds, hle⟩ := hspent.below
    have hbelow : s.txn.charged prices ≤ r.txn.charged prices + below := hadds
    have hrecord : (s.txn.record [⟨r.frame, r.paid? prices⟩]).charged prices ≤
        s.txn.charged prices + prices.opCost op := s.txn.charged_record_le (r.paid?_eq_some hnext hm)
    refine ⟨hspent.sound, ?_, ?_, ?_⟩
    · change s.gas.remaining ≤ _
      omega
    · change Txn.charged prices (s.txn.record [_]) + s.gas.remaining ≤ _
      omega
    · rintro pc rfl
      have hfinal : op.isFinal = false :=
        Bool.eq_false_iff.mpr fun hop => (perform_of_isFinal hsound hop).1 pc hp
      have hcost := hk op hfinal
      change s.gas.remaining + k ≤ _
      omega
  | error e s =>
    have hstopped := hspends.of_error hsound hp
    obtain ⟨below, hadds, hle⟩ := hstopped.below
    have hbelow : s.txn.charged prices ≤ r.txn.charged prices + below := hadds
    have hrecord : (s.txn.record [⟨r.frame, r.paid? prices⟩]).charged prices ≤
        s.txn.charged prices + prices.opCost op := s.txn.charged_record_le (r.paid?_eq_some hnext hm)
    refine ⟨?_, ?_⟩
    · change Txn.charged prices (s.txn.record [_]) ≤ _
      omega
    · rintro rfl
      have hfinal : op.isFinal = false :=
        Bool.eq_false_iff.mpr fun hop => (perform_of_isFinal hsound hop).2 hp
      have hcost := hk op hfinal
      have hfuel : fuel ≤ (r.paying meter).gas.remaining := hstopped.steps rfl
      omega

theorem leaves_step (hk : prices.AtLeast k)
    (hrun : ∀ gas, (Tally.counting prices fuel).Honest run gas) (hr : r.gas.Sound) :
    Leaves prices fuel k r (recorded (Note.stepped prices) prices run r) := by
  cases hnext : r.next? with
  | none =>
    have hcharged : (r.txn.record [⟨r.frame, r.paid? prices⟩]).charged prices =
        r.txn.charged prices := r.txn.charged_record_of_unpaid (r.paid?_eq_none hnext)
    unfold recorded
    obtain hend | ⟨e, hend⟩ := step_of_next?_eq_none prices run hnext
    · rw [hend]
      exact ⟨hr, Nat.le_refl _, Nat.le_of_eq (congrArg (· + r.gas.remaining) hcharged), nofun⟩
    · rw [hend]
      exact ⟨Nat.le_trans (Nat.le_of_eq hcharged) (Nat.le_add_right _ _), nofun⟩
  | some op =>
    cases hm : r.gas.charge (prices.opCost op) with
    | ok meter => exact leaves_of_paid hk hrun hnext hm
    | error e =>
      have hcharged : (r.txn.record [⟨r.frame, r.paid? prices⟩]).charged prices =
          r.txn.charged prices :=
        r.txn.charged_record_of_unpaid (r.paid?_eq_none_of_charge hnext hm)
      unfold recorded
      rw [step_eq hnext, hm]
      exact ⟨Nat.le_trans (Nat.le_of_eq hcharged) (Nat.le_add_right _ _), nofun⟩

end Exec

/-- A run charges at most one step for each unit of gas it uses, in the frame and in all the frames
below it; and if it runs out of steps, it had the gas to take them all. -/
theorem Activation.reports_finish (hk : prices.AtLeast k) (budget : Nat)
    (r : Activation (Recorded Stepped σ)) (hr : r.gas.Sound) :
    (Tally.counting prices (k * budget)).Reports r.txn.base r.gas.remaining
      (r.finishWith (Exec.recorded (Note.stepped prices) prices) budget) := by
  induction budget generalizing r with
  | zero => exact ⟨⟨0, Nat.le_refl _, Nat.zero_le _⟩, fun _ => Nat.zero_le _⟩
  | succ budget ih =>
    have hrun : ∀ gas, (Tally.counting prices (k * budget)).Honest
        (Frame.recorded (Note.stepped prices) prices budget) gas :=
      fun gas child code t => ih (.start child code gas t) (Nat.zero_le _)
    have hleaves := Exec.leaves_step hk hrun hr
    rw [Comparison.recorded_succ]
    cases hs : Exec.recorded (Note.stepped prices) prices
        (Frame.recorded (Note.stepped prices) prices budget) r with
    | ok next s =>
      rw [hs] at hleaves
      obtain ⟨hsound, hremaining, hcharged, hnext⟩ := hleaves
      cases next with
      | next pc => exact reports_next hcharged (hnext pc rfl) (ih { s with pc := pc } hsound)
      | exit status output =>
        have hgoal : s.txn.charged prices ≤
            r.txn.charged prices + (r.gas.remaining - s.gas.remaining) := by omega
        exact ⟨hremaining, hgoal⟩
    | error e s =>
      rw [hs] at hleaves
      obtain ⟨hcharged, hsteps⟩ := hleaves
      have hfuel : k * (budget + 1) = k * budget + k := Nat.mul_succ k budget
      cases e with
      | abort cause =>
        refine ⟨⟨r.gas.remaining, hcharged, Nat.le_refl _⟩, fun hout => ?_⟩
        have hrest : k * budget + k ≤ r.gas.remaining := hsteps (congrArg OpError.abort hout)
        change k * (budget + 1) ≤ _
        omega
      | _ =>
        have hnone : s.gas.exhaust.remaining = 0 := Nat.sub_self _
        have hgoal : s.txn.charged prices ≤
            r.txn.charged prices + (r.gas.remaining - s.gas.exhaust.remaining) := by
          rw [hnone]
          exact hcharged
        exact ⟨hnone.symm ▸ Nat.zero_le _, hgoal⟩

end Counting

/-- Nothing deeper has been added to the record. -/
def Txn.DepthWithin (depth : Nat) (t t' : Txn (Recorded Stepped σ)) : Prop :=
  ∀ step ∈ t'.events, step ∈ t.events ∨ step.frame.depth ≤ depth

theorem Txn.depthWithin_of_base_eq {depth : Nat} {t t' : Txn (Recorded Stepped σ)}
    (h : t'.base = t.base) : DepthWithin depth t t' := by
  have hevents : t'.events = t.events := congrArg Recorded.events h
  exact fun step hstep => .inl (hevents ▸ hstep)

/-! ## Runs -/

section Runs

variable [Source σ]

theorem Frame.reports_run {prices : Pricing} {k : Nat} (hk : prices.AtLeast k) (budget : Nat)
    (f : Frame) (code : Code) (gasLimit : Nat) (t : Txn σ) :
    (Tally.counting prices (k * budget)).Reports t.recording.base gasLimit
      (f.recorded (Note.stepped prices) prices budget code gasLimit t.recording) :=
  Activation.reports_finish hk budget (.start f code gasLimit t.recording) (Nat.zero_le _)

theorem Pricing.atLeast_zero (prices : Pricing) : prices.AtLeast 0 := fun _ _ => Nat.zero_le _

/-- A frame never ends with more gas than it was given. -/
theorem Frame.gasLeft_le {prices : Pricing} {budget : Nat} {f : Frame} {code : Code} {gasLimit : Nat}
    {t after : Txn σ} {outcome : Outcome}
    (h : f.run prices budget code gasLimit t = .ok outcome after) : outcome.gasLeft ≤ gasLimit := by
  have hreports := f.reports_run prices.atLeast_zero budget code gasLimit t
  rw [f.run_eq_recorded (Note.stepped prices)] at h
  obtain ⟨s, hs, -⟩ := EStateM.Result.ok_of_mapState h
  rw [hs] at hreports
  exact hreports.1

/-- There are no more charged steps than gas. -/
theorem Frame.charged_trace_le (prices : Pricing) (budget : Nat) (f : Frame) (code : Code)
    (gasLimit : Nat) (t : Txn σ) :
    (f.trace prices budget code gasLimit t).countP (·.charged prices) ≤ gasLimit := by
  have hreports := f.reports_run prices.atLeast_zero budget code gasLimit t
  unfold trace
  cases hr : f.recorded (Note.stepped prices) prices budget code gasLimit t.recording with
  | ok outcome s =>
    rw [hr] at hreports
    have hcharged : s.charged prices ≤ 0 + (gasLimit - outcome.gasLeft) := hreports.2
    change s.charged prices ≤ _
    omega
  | error cause s =>
    rw [hr] at hreports
    obtain ⟨⟨below, hadds, hbelow⟩, -⟩ := hreports
    have hcharged : s.charged prices ≤ 0 + below := hadds
    change s.charged prices ≤ _
    omega

/-- A run that runs out of steps had the gas to pay for all of them. -/
theorem Frame.budget_le_of_outOfSteps {prices : Pricing} (hk : prices.AtLeast 1) {budget : Nat}
    {f : Frame} {code : Code} {gasLimit : Nat} {t after : Txn σ}
    (h : f.run prices budget code gasLimit t = .error .outOfSteps after) : budget ≤ gasLimit := by
  have hreports := f.reports_run hk budget code gasLimit t
  rw [f.run_eq_recorded (Note.stepped prices)] at h
  obtain ⟨s, hs, -⟩ := EStateM.Result.error_of_mapState h
  rw [hs] at hreports
  have hfuel : 1 * budget ≤ gasLimit := hreports.2 rfl
  rw [Nat.one_mul] at hfuel
  exact hfuel

theorem Txn.kept_depthWithin (depth : Nat) : Kept (DepthWithin (σ := σ) depth) where
  refl _ := depthWithin_of_base_eq rfl
  trans h h' step hstep := (h' step hstep).elim (h step) .inr
  rollback h := h
  write h := depthWithin_of_base_eq h.base

/-- No step is taken deeper than the frame itself or the greatest depth. -/
theorem Frame.depth_trace_le (prices : Pricing) (budget : Nat) (f : Frame) (code : Code)
    (gasLimit : Nat) (t : Txn σ) :
    ∀ step ∈ f.trace prices budget code gasLimit t, step.frame.depth ≤ max f.depth maxDepth := by
  let D := max f.depth maxDepth
  have hkept := Txn.kept_depthWithin (σ := σ) D
  have hrun : Txn.DepthWithin D t.recording
      (f.recorded (Note.stepped prices) prices budget code gasLimit t.recording).state := by
    refine Activation.finishWith_preserves (G := fun f => f.depth ≤ D) (R := Txn.DepthWithin D)
      hkept.refl (fun _ _ _ => hkept.trans) ?_ budget (.start f code gasLimit t.recording)
      (Nat.le_max_left ..)
    intro run hrun r hr
    have heffect := Exec.step_effect prices run r
    rw [Exec.state_recorded]
    refine ⟨?_, ?_⟩
    · obtain h | h | ⟨set, h⟩ := heffect.guard_cases
      all_goals
        dsimp only
        rw [h]
        exact hr
    · obtain ⟨op, heffect⟩ := heffect
      have hstep : Txn.DepthWithin D r.txn (Exec.step prices run r).state.txn := by
        refine heffect.preserves hkept (fun _ _ hm => ?_) fun child code gas t hchild => ?_
        · exact Txn.depthWithin_of_base_eq (Txn.base_getD_of_transfer? hm)
        · exact hrun child code gas t (Nat.le_trans hchild.depth (Nat.le_max_right ..))
      refine hkept.trans hstep fun step hmem => ?_
      obtain hold | hnew := List.mem_append.mp hmem
      · exact .inl hold
      · rw [List.mem_singleton.mp hnew]
        exact .inr hr
  exact fun step hstep => (hrun step hstep).resolve_left List.not_mem_nil

/-- Where every operation but `halt`, `ret` and `revert` has a price, every run ends: with any step
budget above the gas limit it has the same end, which is not for want of steps. With any prices and any
budget, no more steps are charged than there was gas, in the frame and in all the frames below it, and
none of these is deeper than the greatest depth, or than the frame itself. -/
theorem terminates (prices : Pricing)
    (hprices : ∀ op, op ≠ .halt → op ≠ .ret → op ≠ .revert → 1 ≤ prices.opCost op) (f : Frame)
    (code : Code) (gasLimit : Nat) (t : Txn σ) :
    (∃ result, (∀ after, result ≠ .error .outOfSteps after) ∧
      ∀ budget, gasLimit < budget → f.run prices budget code gasLimit t = result) ∧
    ∀ budget,
      (f.trace prices budget code gasLimit t).countP (·.charged prices) ≤ gasLimit ∧
      ∀ step ∈ f.trace prices budget code gasLimit t,
        step.frame.depth ≤ max f.depth maxDepth := by
  have hk : prices.AtLeast 1 := by
    intro op hop
    refine hprices op ?_ ?_ ?_ <;> rintro rfl <;> cases hop
  have hends : ∀ budget, gasLimit + 1 ≤ budget → ∀ after,
      f.run prices budget code gasLimit t ≠ .error .outOfSteps after := by
    intro budget hbudget after hout
    have hle := Frame.budget_le_of_outOfSteps hk hout
    omega
  refine ⟨⟨f.run prices (gasLimit + 1) code gasLimit t, hends _ (Nat.le_refl _), ?_⟩, ?_⟩
  · exact fun budget hbudget => Frame.run_eq_of_le hends hbudget
  · exact fun budget => ⟨f.charged_trace_le prices budget code gasLimit t,
      f.depth_trace_le prices budget code gasLimit t⟩

/-- A contract that calls itself and goes back to its start, at the default prices. -/
theorem terminates_loop :
    let prices := ({} : GasSchedule).pricing
    let program := Op.encodeAll (Fragment.call Sample.guarded 0 1000 ++ [.callValue, .jump])
    let t := Sample.withContracts [(Sample.guarded, Fragment.call Sample.guarded 0 1000)]
    let f := Sample.frame .unrestricted
    (∀ op, op ≠ .halt → op ≠ .ret → op ≠ .revert → 1 ≤ prices.opCost op) ∧
      (∃ result, (∀ after, result ≠ .error .outOfSteps after) ∧
        ∀ budget, 5000 < budget → f.run prices budget program 5000 t = result) ∧
      ∀ budget, (f.trace prices budget program 5000 t).countP (·.charged prices) ≤ 5000 ∧
        ∀ step ∈ f.trace prices budget program 5000 t,
          step.frame.depth ≤ max f.depth maxDepth := by
  intro prices program t f
  have hprices : ∀ op, op ≠ .halt → op ≠ .ret → op ≠ .revert → 1 ≤ prices.opCost op := by
    intro op hhalt hret hrevert
    cases op with
    | halt => exact absurd rfl hhalt
    | ret => exact absurd rfl hret
    | revert => exact absurd rfl hrevert
    | _ => exact of_decide_eq_true rfl
  exact ⟨hprices, terminates prices hprices f program 5000 t⟩

end Runs
end MutationGuard
