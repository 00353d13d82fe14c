import Mathlib.Algebra.BigOperators.Group.List.Basic
import Mathlib.Algebra.Order.Ring.Nat
import MutationGuard.Machine.Transaction
import MutationGuard.Proofs.Termination

/-!
Where the gas of a frame goes. `Frame.ledger` lists the steps of the frame itself, and for each step the
frames it entered that ran to their end (`Visit`). What a frame that was not halted is charged is what
is on its ledger: the cost of every operation, the cost of its memory as it ends up, what decoding its
restrictions costs, and what the frames it entered have used of what they were handed. Each of them is
handed what was asked for, as far as it remained. Main statement: `gas_accounted`.
-/

namespace MutationGuard

variable {σ : Type}

/-! ## Frames that are entered -/

/-- A frame that was entered and ran to its end: the gas it was handed, and how it ended. -/
structure Visit where
  frame : Frame
  handed : Nat
  outcome : Outcome

/-- The gas that does not come back. -/
def Visit.used (v : Visit) : Nat := v.handed - v.outcome.gasLeft

/-- The runner that puts every frame it has run to its end on record. The frames below these stay off
the record. -/
def Runner.noting (run : Runner σ) : Runner (Recorded Visit σ) := fun f code gas t =>
  match run f code gas t.plain with
  | .ok outcome after => .ok outcome (after.recording.record (t.events ++ [⟨f, gas, outcome⟩]))
  | .error cause after => .error cause (after.recording.record t.events)

theorem Runner.noting_plain (run : Runner σ) (f : Frame) (code : Code) (gas : Nat)
    (t : Txn (Recorded Visit σ)) :
    run f code gas t.plain = (run.noting f code gas t).mapState Txn.plain := by
  unfold noting
  cases run f code gas t.plain <;> rfl

/-- What was handed to the frames that have been entered, all with the same amount, and what they have
used. -/
def Tally.visiting (prices : Pricing) (handed : Nat) : Tally (Recorded Visit σ) where
  prices := prices
  adds b b' used := ∃ visits : List Visit, b'.events = b.events ++ visits ∧
    (visits.map Visit.used).sum = used ∧
      ∀ v ∈ visits, v.handed = handed ∧ v.outcome.gasLeft ≤ v.handed
  fuel := 0
  zero b := ⟨[], (List.append_nil _).symm, rfl, nofun⟩
  add := by
    rintro b b' b'' m n ⟨visits, hevents, hsum, hall⟩ ⟨visits', hevents', hsum', hall'⟩
    refine ⟨visits ++ visits', ?_, ?_, fun v hv => ?_⟩
    · rw [hevents', hevents, List.append_assoc]
    · rw [List.map_append, List.sum_append, hsum, hsum']
    · exact (List.mem_append.mp hv).elim (hall v) (hall' v)

/-- What has been added to an empty record. -/
theorem Tally.of_adds_visiting {prices : Pricing} {handed used : Nat} {t : Txn σ}
    {u : Txn (Recorded Visit σ)}
    (h : (Tally.visiting prices handed).adds t.recording.base u.base used) :
    (u.events.map Visit.used).sum = used ∧
      ∀ v ∈ u.events, v.handed = handed ∧ v.outcome.gasLeft ≤ v.handed := by
  obtain ⟨visits, hevents, hsum, hall⟩ := h
  have hvisits : u.events = visits := hevents
  rw [hvisits]
  exact ⟨hsum, hall⟩

/-- A runner that never leaves more than was handed over is honest about what it notes. -/
theorem Tally.honest_visiting {prices : Pricing} {run : Runner σ}
    (hrun : ∀ {f code gas t outcome after}, run f code gas t = .ok outcome after →
      outcome.gasLeft ≤ gas) (handed : Nat) :
    (Tally.visiting prices handed).Honest run.noting handed := by
  intro child code t
  unfold Runner.noting
  cases hr : run child code handed t.plain with
  | error cause after =>
    exact ⟨⟨0, ⟨[], (List.append_nil _).symm, rfl, nofun⟩, Nat.zero_le _⟩, fun _ => Nat.zero_le _⟩
  | ok outcome after =>
    have hleft := hrun hr
    refine ⟨hleft, [⟨child, handed, outcome⟩], rfl, Nat.add_zero _, fun v hv => ?_⟩
    rw [List.mem_singleton.mp hv]
    exact ⟨rfl, hleft⟩

/-! ## One step -/

/-- The frames that one step enters and that run to their end. -/
def Activation.visits [Source σ] (prices : Pricing) (run : Runner σ) (r : Activation σ) : List Visit :=
  (Exec.step prices run.noting r.recording).state.txn.events

/-- A step of a frame, with the frames it has entered. -/
structure Posting (σ : Type) where
  before : Activation σ
  after : Activation σ
  visits : List Visit

/-- What is posted of the step that a frame is about to take. -/
def Activation.posting [Source σ] (prices : Pricing) (run : Runner σ) (r : Activation σ) : Posting σ :=
  ⟨r, (Exec.step prices run r).state, r.visits prices run⟩

namespace Posting

/-- What the operation costs before it runs. -/
def opCost (prices : Pricing) (p : Posting σ) : Nat := p.before.next?.elim 0 prices.opCost

/-- What it costs to decode the restriction, if the operation is one. -/
def decodeCost (prices : Pricing) (p : Posting σ) : Nat :=
  p.before.next?.elim 0 (p.before.decodeCost prices)

/-- The gas that the operation hands to the frame it enters: what is asked for, as far as it remains
once the operation and the memory it reads are paid for. -/
def handed (prices : Pricing) (p : Posting σ) : Nat :=
  p.before.next?.elim 0 fun op =>
    min (saturate (p.before.requested op).toNat)
      (p.before.gas.remaining - prices.opCost op - p.before.growth prices op)

/-- What the frames that were entered have used. -/
def used (p : Posting σ) : Nat := (p.visits.map Visit.used).sum

/-- What the step costs besides the growth of memory. -/
def cost (prices : Pricing) (p : Posting σ) : Nat := p.opCost prices + p.decodeCost prices + p.used

/-- The frames that were entered had what the step hands over, and left no more of it. -/
def Fair (prices : Pricing) (p : Posting σ) : Prop :=
  ∀ v ∈ p.visits, v.handed = p.handed prices ∧ v.outcome.gasLeft ≤ v.handed

/-- The step has paid its cost and the growth of memory, and nothing else. -/
structure Balanced (prices : Pricing) (p : Posting σ) : Prop where
  limit : p.after.gas.limit = p.before.gas.limit
  sound : p.after.gas.Sound
  total : p.before.gas.spent + prices.schedule.memoryCost p.after.memory.words + p.cost prices =
    p.after.gas.spent + prices.schedule.memoryCost p.before.memory.words

theorem fair_of_visits_eq_nil {prices : Pricing} {p : Posting σ} (h : p.visits = []) :
    p.Fair prices := by
  intro v hv
  rw [h] at hv
  cases hv

end Posting

section Steps

variable [Source σ] {prices : Pricing} {run : Runner σ} {r : Activation σ}

/-- The step is fair to the frames it enters, and pays exactly what it costs unless it fails. -/
structure Activation.Settled (prices : Pricing) (run : Runner σ) (r : Activation σ) : Prop where
  fair : (r.posting prices run).Fair prices
  balanced {next : Step} {s : Activation σ} : Exec.step prices run r = .ok next s →
    (r.posting prices run).Balanced prices

namespace Activation

/-- The step that a frame takes is the step that is noted, without the notes. -/
theorem step_noting (prices : Pricing) (run : Runner σ) (r : Activation σ) :
    Exec.step prices run r =
      (Exec.step prices run.noting r.recording).mapState fun s => s.plain s.frame.guard :=
  Exec.step_plain prices run.noting_plain r.recording

theorem posting_of_ok {next : Step} {s : Activation (Recorded Visit σ)}
    (h : Exec.step prices run.noting r.recording = .ok next s) :
    r.posting prices run = ⟨r, s.plain s.frame.guard, s.txn.events⟩ := by
  unfold posting visits
  rw [step_noting, h]
  rfl

theorem visits_of_error {e : OpError} {s : Activation (Recorded Visit σ)}
    (h : Exec.step prices run.noting r.recording = .error e s) :
    r.visits prices run = s.txn.events := by
  unfold visits
  rw [h]
  rfl

theorem step_ne_ok {e : OpError} {s : Activation (Recorded Visit σ)}
    (h : Exec.step prices run.noting r.recording = .error e s) {next : Step} {u : Activation σ} :
    Exec.step prices run r ≠ .ok next u := by
  rw [step_noting, h]
  nofun

theorem opCost_posting {op : Op} (hop : r.next? = some op) :
    (r.posting prices run).opCost prices = prices.opCost op := by
  unfold Posting.opCost posting
  rw [hop]
  rfl

theorem decodeCost_posting {op : Op} (hop : r.next? = some op) :
    (r.posting prices run).decodeCost prices = r.decodeCost prices op := by
  unfold Posting.decodeCost posting
  rw [hop]
  rfl

theorem handed_posting {op : Op} {meter : GasMeter} (hop : r.next? = some op)
    (hm : r.gas.charge (prices.opCost op) = .ok meter) :
    (r.posting prices run).handed prices = (r.paying meter).handed prices op := by
  have hremaining : (r.paying meter).gas.remaining + prices.opCost op = r.gas.remaining :=
    GasMeter.remaining_of_charge hm
  have hleft : r.gas.remaining - prices.opCost op = (r.paying meter).gas.remaining := by omega
  unfold Posting.handed posting
  dsimp only
  rw [hop, Option.elim_some, hleft]
  rfl

/-- A step without an operation costs nothing. -/
theorem settled_of_idle (hr : r.gas.Sound) (hop : r.next? = none) : r.Settled prices run := by
  have hvisits : r.visits prices run = [] := by
    unfold visits
    rw [(Exec.step_idle prices run.noting hop).2]
    rfl
  refine ⟨Posting.fair_of_visits_eq_nil hvisits, fun hs => ?_⟩
  have hcost : (r.posting prices run).cost prices = 0 := by
    unfold Posting.cost Posting.opCost Posting.decodeCost Posting.used posting
    rw [hvisits]
    dsimp only
    rw [hop]
    rfl
  obtain hend | ⟨e, hend⟩ := Exec.step_of_next?_eq_none prices run hop
  · have hafter : (r.posting prices run).after = { r with program := (r.program.access r.pc).2 } := by
      unfold posting
      dsimp only
      rw [hend]
      rfl
    refine ⟨?_, ?_, ?_⟩
    · rw [hafter]
      rfl
    · rw [hafter]
      exact hr
    · rw [hafter, hcost]
      rfl
  · rw [hs] at hend
    cases hend

/-- A step whose operation cannot be paid for. -/
theorem settled_of_unpaid {op : Op} {e : OutOfGas} (hop : r.next? = some op)
    (hm : r.gas.charge (prices.opCost op) = .error e) : r.Settled prices run := by
  have hnoted : Exec.step prices run.noting r.recording = .error (.outOfGas e)
      { (r.recording : Activation (Recorded Visit σ)) with
        program := (r.program.access r.pc).2 } := by
    rw [Exec.step_eq (r := r.recording) hop]
    dsimp only [recording]
    rw [hm]
  refine ⟨Posting.fair_of_visits_eq_nil (visits_of_error hnoted), fun hs => ?_⟩
  exact absurd hs (step_ne_ok hnoted)

/-- A step whose operation is paid for. -/
theorem settled_of_paid {op : Op} {meter : GasMeter}
    (hrun : ∀ {f code gas t outcome after}, run f code gas t = .ok outcome after →
      outcome.gasLeft ≤ gas) (hop : r.next? = some op)
    (hm : r.gas.charge (prices.opCost op) = .ok meter) : r.Settled prices run := by
  let paying : Activation (Recorded Visit σ) := (r.paying meter).recording
  have hsound : paying.gas.Sound := GasMeter.sound_of_charge hm
  have hspends : Exec.Spends (.visiting prices ((r.paying meter).handed prices op)) paying
      (Exec.perform prices run.noting op) (r.decodeCost prices op) :=
    Exec.spends_perform op (Tally.honest_visiting hrun _)
  have hhanded : (r.posting prices run).handed prices = (r.paying meter).handed prices op :=
    handed_posting hop hm
  have hstep : Exec.step prices run.noting r.recording =
      Exec.perform prices run.noting op paying := by
    rw [Exec.step_eq (r := r.recording) hop]
    dsimp only [recording]
    rw [hm]
    rfl
  cases hp : Exec.perform prices run.noting op paying with
  | error e s =>
    have hends := hstep.trans hp
    obtain ⟨below, hadds, -⟩ := (hspends.of_error hsound hp).below
    refine ⟨fun v hv => ?_, fun hs => absurd hs (step_ne_ok hends)⟩
    rw [hhanded]
    have hvisit : v ∈ s.txn.events := visits_of_error hends ▸ hv
    exact (Tally.of_adds_visiting hadds).2 v hvisit
  | ok next s =>
    have hposting := posting_of_ok (hstep.trans hp)
    have hspent := hspends.of_ok hsound hp
    obtain ⟨below, hadds, htotal⟩ := hspent.total
    obtain ⟨hsum, hall⟩ := Tally.of_adds_visiting hadds
    have hcost : (r.posting prices run).cost prices =
        prices.opCost op + r.decodeCost prices op + below := by
      unfold Posting.cost Posting.used
      rw [opCost_posting hop, decodeCost_posting hop, hposting]
      exact congrArg _ hsum
    obtain ⟨-, rfl⟩ := GasMeter.charge_eq_ok_iff.mp hm
    refine ⟨fun v hv => ?_, fun _ => ⟨?_, ?_, ?_⟩⟩
    · rw [hhanded]
      rw [hposting] at hv
      exact hall v hv
    · rw [hposting]
      exact hspent.limit
    · rw [hposting]
      exact hspent.sound
    · rw [hcost, hposting]
      change r.gas.spent + prices.schedule.memoryCost s.memory.words + _ =
        s.gas.spent + prices.schedule.memoryCost r.memory.words
      have hpaid : r.gas.spent + prices.opCost op + prices.schedule.memoryCost s.memory.words +
          below + r.decodeCost prices op =
            s.gas.spent + prices.schedule.memoryCost r.memory.words := htotal
      omega

/-- Every step is settled, if no frame that it enters leaves more gas than it was handed. -/
theorem settled
    (hrun : ∀ {f code gas t outcome after}, run f code gas t = .ok outcome after →
      outcome.gasLeft ≤ gas) (hr : r.gas.Sound) : r.Settled prices run := by
  cases hop : r.next? with
  | none => exact settled_of_idle hr hop
  | some op =>
    cases hm : r.gas.charge (prices.opCost op) with
    | ok meter => exact settled_of_paid hrun hop hm
    | error e => exact settled_of_unpaid hop hm

end Activation

end Steps

/-! ## Whole runs -/

/-- The size of memory in words after the last step; `words` if there is none. -/
def Posting.finalWords (words : Nat) (ledger : List (Posting σ)) : Nat :=
  ledger.getLast?.elim words fun p => p.after.memory.words

theorem Posting.finalWords_cons (words : Nat) (p : Posting σ) (rest : List (Posting σ)) :
    finalWords words (p :: rest) = finalWords p.after.memory.words rest := by
  unfold finalWords
  rw [List.getLast?_cons]
  cases rest.getLast? <;> rfl

theorem Posting.sum_cost (prices : Pricing) (ledger : List (Posting σ)) :
    (ledger.map (·.cost prices)).sum =
      (ledger.map (·.opCost prices)).sum + (ledger.map (·.decodeCost prices)).sum +
        (ledger.map (·.used)).sum := by
  unfold cost
  rw [List.sum_map_add, List.sum_map_add]

section Runs

variable [Source σ]

/-- The steps that a frame under way takes until it ends, as they are posted. -/
def Activation.ledger (prices : Pricing) : Nat → Activation σ → List (Posting σ)
  | 0, _ => []
  | budget + 1, r =>
    r.posting prices (Frame.run prices budget) ::
      match Exec.step prices (Frame.run prices budget) r with
      | .ok (.next pc) s => ledger prices budget { s with pc := pc }
      | _ => []

/-- The steps that the code of a frame takes in the frame itself, as they are posted. -/
def Frame.ledger (prices : Pricing) (budget : Nat) (f : Frame) (code : Code) (gasLimit : Nat)
    (t : Txn σ) : List (Posting σ) :=
  (Activation.start f code gasLimit t).ledger prices budget

variable {prices : Pricing}

theorem Activation.settled_run (prices : Pricing) (budget : Nat) {r : Activation σ}
    (hr : r.gas.Sound) : r.Settled prices (Frame.run prices budget) :=
  settled (fun h => Frame.gasLeft_le h) hr

/-- Every step of a run is fair to the frames that it enters. -/
theorem Activation.fair_ledger (budget : Nat) (r : Activation σ) (hr : r.gas.Sound) :
    ∀ p ∈ r.ledger prices budget, p.Fair prices := by
  induction budget generalizing r with
  | zero => exact nofun
  | succ budget ih =>
    have hsettled := settled_run prices budget hr
    intro p hp
    obtain rfl | hrest := List.mem_cons.mp hp
    · exact hsettled.fair
    · cases hstep : Exec.step prices (Frame.run prices budget) r with
      | error e s =>
        rw [hstep] at hrest
        cases hrest
      | ok next s =>
        rw [hstep] at hrest
        cases next with
        | exit status output => cases hrest
        | next pc =>
          have hsound := (hsettled.balanced hstep).sound
          unfold posting at hsound
          rw [hstep] at hsound
          exact ih { s with pc := pc } hsound p hrest

/-- A run that is not halted has paid what is on its ledger and the growth of memory. -/
theorem Activation.balanced_ledger (budget : Nat) (r : Activation σ) (hr : r.gas.Sound)
    {outcome : Outcome} {after : Txn σ} (h : r.finish prices budget = .ok outcome after)
    (hs : outcome.status ≠ .halted) :
    outcome.gasLeft + r.gas.spent + ((r.ledger prices budget).map (·.cost prices)).sum +
        prices.schedule.memoryCost
          (Posting.finalWords r.memory.words (r.ledger prices budget)) =
      r.gas.limit + prices.schedule.memoryCost r.memory.words := by
  induction budget generalizing r with
  | zero => cases h
  | succ budget ih =>
    have hsettled := settled_run prices budget hr
    rw [finish_succ] at h
    unfold ledger
    rw [List.map_cons, List.sum_cons, Posting.finalWords_cons]
    cases hstep : Exec.step prices (Frame.run prices budget) r with
    | error e s =>
      rw [hstep] at h
      cases e with
      | abort cause => cases h
      | _ => cases h; exact absurd rfl hs
    | ok next s =>
      obtain ⟨hlimit, hsound, htotal⟩ := hsettled.balanced hstep
      have hafter : (r.posting prices (Frame.run prices budget)).after = s := by
        unfold posting
        rw [hstep]
        rfl
      have hbefore : (r.posting prices (Frame.run prices budget)).before = r := rfl
      rw [hafter] at hlimit hsound htotal ⊢
      rw [hbefore] at hlimit htotal
      rw [hstep] at h
      cases next with
      | next pc =>
        have hrest := ih { s with pc := pc } hsound h
        dsimp only at hrest ⊢
        omega
      | exit status output =>
        cases h
        have hspent : s.gas.spent ≤ s.gas.limit := hsound
        change s.gas.limit - s.gas.spent + _ + (_ + 0) + prices.schedule.memoryCost s.memory.words = _
        omega

/-- A frame that is halted has nothing left. -/
theorem Activation.gasLeft_of_halted (budget : Nat) (r : Activation σ) {outcome : Outcome}
    {after : Txn σ} (h : r.finish prices budget = .ok outcome after)
    (hs : outcome.status = .halted) : outcome.gasLeft = 0 := by
  obtain hsuccess | ⟨hreverted, -⟩ | hhalted := outcome_of_finish budget r h
  · exact absurd (hs.symm.trans hsuccess) nofun
  · exact absurd (hs.symm.trans hreverted) nofun
  · exact congrArg Outcome.gasLeft hhalted

/-- What is charged in all, put together. -/
theorem Frame.gasUsed_eq {budget : Nat} {f : Frame} {code : Code} {gasLimit : Nat} {t after : Txn σ}
    {outcome : Outcome} (h : f.run prices budget code gasLimit t = .ok outcome after)
    (hs : outcome.status ≠ .halted) :
    gasLimit - outcome.gasLeft =
      ((f.ledger prices budget code gasLimit t).map (·.opCost prices)).sum +
      prices.schedule.memoryCost (Posting.finalWords 0 (f.ledger prices budget code gasLimit t)) +
      ((f.ledger prices budget code gasLimit t).map (·.decodeCost prices)).sum +
      ((f.ledger prices budget code gasLimit t).map (·.used)).sum := by
  have htotal := Activation.balanced_ledger budget (.start f code gasLimit t) (Nat.zero_le _) h hs
  have hspent : (Activation.start f code gasLimit t).gas.spent = 0 := rfl
  have hlimit : (Activation.start f code gasLimit t).gas.limit = gasLimit := rfl
  rw [Posting.sum_cost, hspent, hlimit, Activation.words_start, GasSchedule.memoryCost_zero] at htotal
  unfold ledger
  omega

/-- A transaction that has a receipt has run its frame, and reports the gas that is gone. -/
theorem Transaction.run_of_execute {tx : Transaction} {budget : Nat} {t after : Txn σ}
    {receipt : Receipt} (h : tx.execute prices budget t = .ok receipt after) :
    ∃ (code : Code) (paid left : Txn σ) (outcome : Outcome),
      tx.frame.run prices budget code tx.gasLimit paid = .ok outcome left ∧
      receipt.gasUsed = tx.gasLimit - outcome.gasLeft := by
  obtain ⟨e, hrefused⟩ | ⟨paid, code, -, -, hexecute⟩ := tx.execute_cases prices budget t
  · rw [hrefused] at h
    cases h
  · rw [hexecute] at h
    cases hrun : tx.frame.run prices budget code tx.gasLimit paid with
    | error cause left => rw [hrun] at h; cases h
    | ok outcome left =>
      rw [hrun] at h
      cases h
      exact ⟨code, paid, left, outcome, hrun, rfl⟩

end Runs

/-- What a frame that is not halted is charged is the cost of the operations it steps, of its memory as
it ends up, of decoding its restrictions, and what the frames that it enters use of the gas handed to
them: what was asked for, as far as it remained. An operation that enters no frame has none on its list,
and adds nothing there. A frame that is halted has no gas left. No frame, and no frame that is entered,
ends with more gas than it had; so a transaction uses what its frame used, and no more than its limit. -/
theorem gas_accounted [Source σ] (prices : Pricing) (budget : Nat) :
    (∀ (f : Frame) (code : Code) (gasLimit : Nat) (t after : Txn σ) (outcome : Outcome),
      f.run prices budget code gasLimit t = .ok outcome after →
        (outcome.status ≠ .halted →
          gasLimit - outcome.gasLeft =
            ((f.ledger prices budget code gasLimit t).map (·.opCost prices)).sum +
            prices.schedule.memoryCost
              (Posting.finalWords 0 (f.ledger prices budget code gasLimit t)) +
            ((f.ledger prices budget code gasLimit t).map (·.decodeCost prices)).sum +
            ((f.ledger prices budget code gasLimit t).map (·.used)).sum) ∧
        (outcome.status = .halted → outcome.gasLeft = 0) ∧
        outcome.gasLeft ≤ gasLimit ∧
        ∀ p ∈ f.ledger prices budget code gasLimit t, ∀ v ∈ p.visits,
          v.handed = p.handed prices ∧ v.outcome.gasLeft ≤ v.handed) ∧
    ∀ (tx : Transaction) (t after : Txn σ) (receipt : Receipt),
      tx.execute prices budget t = .ok receipt after →
        receipt.gasUsed ≤ tx.gasLimit ∧
        ∃ (code : Code) (paid left : Txn σ) (outcome : Outcome),
          tx.frame.run prices budget code tx.gasLimit paid = .ok outcome left ∧
          receipt.gasUsed + outcome.gasLeft = tx.gasLimit := by
  refine ⟨fun f code gasLimit t after outcome h => ⟨Frame.gasUsed_eq h, fun hs => ?_, ?_, ?_⟩, ?_⟩
  · exact Activation.gasLeft_of_halted budget (.start f code gasLimit t) h hs
  · exact Frame.gasLeft_le h
  · exact Activation.fair_ledger budget (.start f code gasLimit t) (Nat.zero_le _)
  · intro tx t after receipt h
    obtain ⟨code, paid, left, outcome, hrun, hused⟩ := Transaction.run_of_execute h
    have hleft := Frame.gasLeft_le hrun
    refine ⟨by omega, code, paid, left, outcome, hrun, by omega⟩

/-- The guarded contract calls Bob with less gas than it has, and lifts its restriction over two words of
memory. -/
theorem gas_accounted_call :
    let prices := ({} : GasSchedule).pricing
    let program := Fragment.call Sample.bob 0 500 ++
      [.callValue, Fragment.number 64, .callValue, .restrict]
    let code := Op.encodeAll program
    let t := Sample.withContracts [(Sample.bob, [.caller, .halt]), (Sample.guarded, program)]
    let f := Sample.frame .unrestricted
    let tx := Sample.transaction Sample.guarded
    (∃ outcome after, f.run prices 20 code 100000 t = .ok outcome after ∧
      outcome.status ≠ .halted ∧
      100000 - outcome.gasLeft =
        ((f.ledger prices 20 code 100000 t).map (·.opCost prices)).sum +
        prices.schedule.memoryCost (Posting.finalWords 0 (f.ledger prices 20 code 100000 t)) +
        ((f.ledger prices 20 code 100000 t).map (·.decodeCost prices)).sum +
        ((f.ledger prices 20 code 100000 t).map (·.used)).sum) ∧
    ∃ receipt after, tx.execute prices 20 t = .ok receipt after ∧ receipt.gasUsed ≤ tx.gasLimit := by
  intro prices program code t f tx
  have hgas := gas_accounted (σ := Table) prices 20
  constructor
  · have hstatus : (match f.run prices 20 code 100000 t with
        | .ok outcome _ => outcome.status
        | .error _ _ => .halted) = .success := by decide +kernel
    cases hrun : f.run prices 20 code 100000 t with
    | error cause after => rw [hrun] at hstatus; cases hstatus
    | ok outcome after =>
      rw [hrun] at hstatus
      dsimp only at hstatus
      have hends : outcome.status ≠ .halted := by rw [hstatus]; nofun
      exact ⟨outcome, after, rfl, hends, (hgas.1 f code 100000 t after outcome hrun).1 hends⟩
  · have hends : (match tx.execute prices 20 t with
        | .ok _ _ => true
        | .error _ _ => false) = true := by decide +kernel
    cases hexecute : tx.execute prices 20 t with
    | error e after => rw [hexecute] at hends; cases hends
    | ok receipt after => exact ⟨receipt, after, rfl, (hgas.2 tx t after receipt hexecute).1⟩

end MutationGuard
