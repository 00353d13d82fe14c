import MutationGuard.Proofs.Effect
import MutationGuard.Proofs.Tally

/-!
What the operations spend. Each of them pays for the growth of memory, for what the frame it enters uses
of the gas it is handed, and for nothing else but the decoding of a restriction (`spends_perform`). What
is handed over is what the operands ask for, as far as it remains (`Activation.handed`).
-/

namespace MutationGuard

variable {σ α : Type}

/-- What it costs to grow memory to so many words. -/
def Activation.growthCost (prices : Pricing) (r : Activation σ) (words : Nat) : Nat :=
  prices.schedule.memoryCost words - prices.schedule.memoryCost r.memory.words

theorem Activation.words_start (f : Frame) (code : Code) (gasLimit : Nat) (t : Txn σ) :
    (start f code gasLimit t).memory.words = 0 := Nat.zero_div 32

theorem Activation.growthCost_start (prices : Pricing) (f : Frame) (code : Code) (gasLimit : Nat)
    (t : Txn σ) (words : Nat) :
    (start f code gasLimit t).growthCost prices words = prices.schedule.memoryCost words := by
  rw [growthCost, words_start, GasSchedule.memoryCost_zero, Nat.sub_zero]

/-- The frame once it has read its operation and paid for it. -/
def Activation.paying (r : Activation σ) (meter : GasMeter) : Activation σ :=
  { r with program := (r.program.access r.pc).2, gas := meter }

namespace Exec

variable {T : Tally σ} {r s : Activation σ}

/-! ## Memory -/

/-- Growing memory, with the monad taken away. -/
theorem expand_eq (prices : Pricing) (offset length : Nat) (r : Activation σ) :
    expand prices offset length r =
      match r.memory.wordsRequired offset length with
      | .error e => .error (.memory e) r
      | .ok words =>
        match r.gas.charge (r.growthCost prices words) with
        | .error e => .error (.outOfGas e) r
        | .ok meter => .ok () { r with gas := meter, memory := r.memory.growTo words } := by
  unfold expand
  rw [bind_get]
  cases hw : r.memory.wordsRequired offset length with
  | error e => rfl
  | ok words =>
    dsimp only
    have hcharge := charge_eq (r.growthCost prices words) r
    rw [ofExcept, pure_bind]
    cases hm : r.gas.charge (r.growthCost prices words) with
    | error e =>
      rw [hm] at hcharge
      exact bind_of_error hcharge
    | ok meter =>
      rw [hm] at hcharge
      exact bind_of_ok hcharge

theorem spends_expand (offset length : Nat) : Spends T r (expand T.prices offset length) 0 := by
  intro hr
  rw [expand_eq]
  cases hw : r.memory.wordsRequired offset length with
  | error e => exact .of_sameMeter (.refl r) nofun
  | ok words =>
    have hle := Memory.words_le_of_wordsRequired hw
    dsimp only
    cases hm : r.gas.charge (r.growthCost T.prices words) with
    | error e => exact .of_sameMeter (.refl r) nofun
    | ok meter =>
      have hsound := GasMeter.sound_of_charge hm
      have hwords : (r.memory.growTo words).words = words := Memory.words_growTo hle
      have hmono : T.memoryCost r.memory.words ≤ T.memoryCost words := T.memoryCost_mono hle
      have hcost : r.growthCost T.prices words = T.memoryCost words - T.memoryCost r.memory.words :=
        rfl
      obtain ⟨-, rfl⟩ := GasMeter.charge_eq_ok_iff.mp hm
      refine ⟨rfl, hsound, hwords.symm ▸ hle, 0, T.zero _, ?_⟩
      dsimp only
      rw [hwords]
      omega

/-- Gas is spent when there is enough of it. -/
theorem charge_eq_ok_iff {gas : Nat} {u : Unit} :
    charge gas r = .ok u s ↔
      r.gas.spent + gas ≤ r.gas.limit ∧
        s = { r with gas := { r.gas with spent := r.gas.spent + gas } } := by
  rw [charge_eq]
  cases hm : r.gas.charge gas with
  | error e =>
    refine ⟨nofun, fun ⟨hle, _⟩ => ?_⟩
    rw [GasMeter.charge_eq_ok_iff.mpr ⟨hle, rfl⟩] at hm
    cases hm
  | ok meter =>
    obtain ⟨hle, rfl⟩ := GasMeter.charge_eq_ok_iff.mp hm
    constructor
    · intro h
      cases h
      exact ⟨hle, rfl⟩
    · rintro ⟨-, rfl⟩
      rfl

/-- Growing memory succeeds when the range may be in memory and its words can be paid for. -/
theorem expand_eq_ok_iff {prices : Pricing} {offset length : Nat} {u : Unit} :
    expand prices offset length r = .ok u s ↔
      ∃ words meter, r.memory.wordsRequired offset length = .ok words ∧
        r.gas.charge (r.growthCost prices words) = .ok meter ∧
        s = { r with gas := meter, memory := r.memory.growTo words } := by
  rw [expand_eq]
  constructor
  · intro h
    cases hw : r.memory.wordsRequired offset length with
    | error e => rw [hw] at h; cases h
    | ok words =>
      rw [hw] at h
      dsimp only at h
      cases hm : r.gas.charge (r.growthCost prices words) with
      | error e => rw [hm] at h; cases h
      | ok meter =>
        rw [hm] at h
        cases h
        exact ⟨words, meter, rfl, hm, rfl⟩
  · rintro ⟨words, meter, hw, hm, rfl⟩
    simp only [hw, hm]

/-- What remains once memory has grown. -/
theorem remaining_of_expand {prices : Pricing} {offset length : Nat} {u : Unit}
    (h : expand prices offset length r = .ok u s) :
    ∃ words, r.memory.wordsRequired offset length = .ok words ∧
      s.gas.remaining = r.gas.remaining - r.growthCost prices words := by
  obtain ⟨words, meter, hw, hm, rfl⟩ := expand_eq_ok_iff.mp h
  have hremaining := GasMeter.remaining_of_charge hm
  exact ⟨words, hw, by dsimp only; omega⟩

theorem spends_popRange : Spends T r (popRange T.prices) 0 :=
  (free_onStack _).then fun _ _ _ _ => (free_counter _).then fun _ _ _ _ =>
    (free_counter _).then fun _ _ _ _ => (spends_expand _ _).thenFree fun _ => free_slice _ _

/-- Reading memory takes no steps: whatever gas that would need, it is not there. -/
theorem popRange_ne_outOfSteps {prices : Pricing} (hr : r.gas.Sound) :
    popRange prices r ≠ .error (.abort .outOfSteps) s := by
  let T : Tally σ :=
    { prices := prices
      adds := fun _ _ _ => True
      fuel := r.gas.remaining + 1
      zero := fun _ => trivial
      add := fun _ _ => trivial }
  intro h
  have hspends : Spends T r (popRange prices) 0 := spends_popRange
  exact absurd ((hspends.of_error hr h).steps rfl) (Nat.not_succ_le_self _)

/-- Storing does not grow memory. -/
theorem free_store (offset : Nat) (data : Bytes) :
    Free (onMemory (Memory.store offset data) : Exec σ Unit) := by
  rintro ⟨frame, pc, stack, ⟨bytes⟩, gas, program, txn⟩
  unfold onMemory Memory.store
  by_cases h : offset + data.length ≤ bytes.size
  · simp only [if_pos h]
    refine ⟨rfl, ?_, rfl⟩
    unfold Memory.words
    rw [Memory.size_write]
  · simp only [if_neg h]
    exact ⟨⟨rfl, rfl, rfl⟩, nofun⟩

theorem spends_mload : Spends T r (mload T.prices) 0 :=
  (free_onStack _).then fun _ _ _ _ => (free_counter _).then fun _ _ _ _ =>
    (spends_expand _ _).thenFree fun _ => free_get.bind fun _ =>
      (free_ofExcept (fun _ => by nofun) _).bind fun _ => free_onStack _

theorem spends_mstore : Spends T r (mstore T.prices) 0 :=
  (free_onStack _).then fun _ _ _ _ => (free_counter _).then fun _ _ _ _ =>
    (spends_expand _ _).thenFree fun _ => free_store _ _

theorem spends_mstore8 : Spends T r (mstore8 T.prices) 0 :=
  (free_onStack _).then fun _ _ _ _ => (free_counter _).then fun _ _ _ _ =>
    (spends_expand _ _).thenFree fun _ => free_store _ _

/-! ## Operands -/

/-- Acting on the stack changes nothing else. -/
theorem eq_of_onStack {action : Stack.Action α} {a : α} (h : onStack action r = .ok a s) :
    ∃ stack, action r.stack = .ok a stack ∧ s = { r with stack := stack } := by
  rw [onStack_eq] at h
  cases haction : action r.stack with
  | error e stack => rw [haction] at h; cases h
  | ok b stack =>
    rw [haction] at h
    cases h
    exact ⟨stack, rfl, rfl⟩

theorem words_of_pop2 {a b : Word} (h : onStack Stack.pop2 r = .ok (a, b) s) :
    r.stack.words = b :: a :: s.stack.words := by
  obtain ⟨stack, hpop, rfl⟩ := eq_of_onStack h
  obtain ⟨frame, pc, ⟨words⟩, memory, gas, program, txn⟩ := r
  match words with
  | [] => cases hpop
  | [_] => cases hpop
  | _ :: _ :: _ => cases hpop; rfl

theorem words_of_pop3 {a b c : Word} (h : onStack Stack.pop3 r = .ok (a, b, c) s) :
    r.stack.words = c :: b :: a :: s.stack.words := by
  obtain ⟨stack, hpop, rfl⟩ := eq_of_onStack h
  obtain ⟨frame, pc, ⟨words⟩, memory, gas, program, txn⟩ := r
  match words with
  | [] => cases hpop
  | [_] => cases hpop
  | [_, _] => cases hpop
  | _ :: _ :: _ :: _ => cases hpop; rfl

theorem eq_of_counter {w : Word} {n : Nat} (h : counter w r = .ok n s) :
    n = w.toNat ∧ s = r := by
  unfold counter Word.toCounter? at h
  by_cases hw : w.toNat ≤ counterMax
  · rw [if_pos hw] at h
    cases h
    exact ⟨rfl, rfl⟩
  · rw [if_neg hw] at h
    cases h

end Exec

namespace Activation

/-- What an operation pays for decoding the declaration in its operands. -/
def decodeCost (prices : Pricing) (r : Activation σ) : Op → Nat
  | .restrict => prices.schedule.restrictDecodeCost (r.stack.words.getD 1 0).toNat
  | _ => 0

/-- The gas that an operation asks for, for the frame that it enters. -/
def requested (r : Activation σ) : Op → Word
  | .call => r.stack.words.getD 2 0
  | .staticCall | .delegateCall => r.stack.words.getD 1 0
  | .create => .max
  | _ => 0

/-- What an operation pays for the growth of memory before it enters a frame. Only the code of a
created account is read from memory. -/
def growth (prices : Pricing) (r : Activation σ) : Op → Nat
  | .create =>
    match r.memory.wordsRequired (r.stack.words.getD 1 0).toNat (r.stack.words.getD 0 0).toNat with
    | .ok words => r.growthCost prices words
    | .error _ => 0
  | _ => 0

/-- The gas that an operation which is paid for hands to the frame it enters: what it asks for, as far
as it remains. -/
def handed (prices : Pricing) (r : Activation σ) (op : Op) : Nat :=
  min (saturate (r.requested op).toNat) (r.gas.remaining - r.growth prices op)

end Activation

namespace Exec

variable {T : Tally σ} {r s : Activation σ}

theorem spends_restrict :
    Spends T r (restrict T.prices) (r.decodeCost T.prices .restrict) := by
  refine (free_onStack _).then fun (offset, maxLength, flag) s hpop _ => ?_
  refine (free_counter _).then fun offset' s₁ hoffset _ => ?_
  refine (free_counter _).then fun maxLength' s₂ hlength _ => ?_
  have hcost : T.prices.schedule.restrictDecodeCost maxLength' =
      r.decodeCost T.prices .restrict := by
    unfold Activation.decodeCost
    rw [words_of_pop3 hpop, (eq_of_counter hlength).1]
    rfl
  rw [← hcost]
  refine (spends_charge _).bind fun _ _ _ => (spends_expand _ _).thenFree fun _ => ?_
  cases flag.toBool? with
  | none => exact free_throw nofun
  | some enable =>
    cases enable with
    | false => exact fun r => ⟨rfl, rfl, rfl⟩
    | true =>
      refine (free_slice _ _).bind fun _ => (free_ofExcept (fun _ => by nofun) _).bind fun _ => ?_
      exact fun r => ⟨rfl, rfl, rfl⟩

/-! ## Entering frames -/

section Calls

variable {run : Runner σ}

/-- A frame that runs costs what it has used; one that is refused costs nothing. -/
theorem spends_enter {child : Frame} {code : Code} {requested : Word}
    {prepare : Txn σ → Except Fault (Option (Txn σ))}
    (hrun : T.Honest run (min (saturate requested.toNat) r.gas.remaining))
    (hprepare : ∀ t prepared, prepare t = .ok (some prepared) → prepared.base = t.base) :
    Spends T r (enter run child code requested prepare) 0 := by
  intro hr
  rw [enter_eq]
  dsimp only
  have hle : min (saturate requested.toNat) r.gas.remaining ≤ r.gas.remaining := Nat.min_le_right ..
  generalize min (saturate requested.toNat) r.gas.remaining = handed at hrun hle
  cases hm : r.gas.charge handed with
  | error e => exact .of_sameMeter (.refl r) nofun
  | ok meter =>
    obtain ⟨hlimit, rfl⟩ := GasMeter.charge_eq_ok_iff.mp hm
    cases hp : prepare r.txn with
    | error fault => exact ⟨⟨0, T.zero _, Nat.zero_le _⟩, nofun⟩
    | ok found =>
      cases found with
      | none =>
        have hback : r.gas.spent + handed - handed = r.gas.spent := Nat.add_sub_cancel ..
        refine ⟨rfl, Nat.le_trans (Nat.sub_le ..) hlimit, Nat.le_refl _, 0, T.zero _, ?_⟩
        change _ = r.gas.spent + handed - handed + _
        rw [hback]
        rfl
      | some prepared =>
        have hbase : prepared.base = r.txn.base := hprepare _ _ hp
        have hused := hrun child code prepared
        rw [hbase] at hused
        dsimp only
        cases hc : run child code handed prepared with
        | error cause after =>
          rw [hc] at hused
          obtain ⟨⟨below, hadds, hbelow⟩, hsteps⟩ := hused
          refine ⟨⟨below, hadds, Nat.le_trans hbelow hle⟩, fun he => ?_⟩
          cases he
          exact Nat.le_trans (hsteps rfl) hle
        | ok outcome after =>
          rw [hc] at hused
          obtain ⟨hleft, hadds⟩ := hused
          -- a rollback does not touch the source
          have hafter : (if outcome.status = .success then after
              else after.rollbackTo r.txn.snapshot).base = after.base := by
            split <;> rfl
          refine ⟨rfl, Nat.le_trans (Nat.sub_le ..) hlimit, Nat.le_refl _,
            handed - outcome.gasLeft, hafter.symm ▸ hadds, ?_⟩
          change _ = r.gas.spent + handed - outcome.gasLeft + _
          dsimp only
          omega

theorem base_of_ok_some {t prepared : Txn σ}
    (h : (.ok (some t) : Except Fault (Option (Txn σ))) = .ok (some prepared)) :
    prepared.base = t.base := by
  cases h
  rfl

/-- What is handed over does not change before the frame is entered. -/
theorem honest_of_sameMeter {requested : Word} {op : Op} {s : Activation σ}
    (hrun : T.Honest run (r.handed T.prices op)) (hsame : SameMeter r s)
    (hrequested : r.requested op = requested) (hgrowth : r.growth T.prices op = 0) :
    T.Honest run (min (saturate requested.toNat) s.gas.remaining) := by
  unfold Activation.handed at hrun
  rw [hrequested, hgrowth, Nat.sub_zero] at hrun
  rw [hsame.gas]
  exact hrun

/-- What remains once memory has grown to cover the code of the account to be created. -/
theorem remaining_of_popRange {prices : Pricing} {bytes : Bytes}
    (h : popRange prices r = .ok bytes s) :
    s.gas.remaining = r.gas.remaining - r.growth prices .create := by
  obtain ⟨⟨offset, length⟩, s₁, hpop, h⟩ := ok_of_bind h
  obtain ⟨offset', s₂, hoffset, h⟩ := ok_of_bind h
  obtain ⟨length', s₃, hlength, h⟩ := ok_of_bind h
  obtain ⟨_, s₄, hexpand, hslice⟩ := ok_of_bind h
  obtain ⟨rfl, rfl⟩ := eq_of_counter hoffset
  obtain ⟨rfl, rfl⟩ := eq_of_counter hlength
  obtain ⟨words, hwords, hremaining⟩ := remaining_of_expand hexpand
  have hstack := words_of_pop2 hpop
  obtain ⟨stack, -, rfl⟩ := eq_of_onStack hpop
  have hgrowth : r.growth prices .create = r.growthCost prices words := by
    unfold Activation.growth
    rw [hstack]
    change (match r.memory.wordsRequired offset.toNat length.toNat with
      | .ok words => r.growthCost prices words
      | .error _ => 0) = _
    rw [hwords]
  rw [((free_slice _ _).of_ok hslice).gas, hgrowth]
  exact hremaining

variable [Source σ]

/-- A call that is too deep costs nothing. -/
theorem spends_callee {deep : Bool} {a : Address} {child : Frame} {requested : Word}
    {prepare : Txn σ → Except Fault (Option (Txn σ))}
    (hrun : T.Honest run (min (saturate requested.toNat) r.gas.remaining))
    (hprepare : ∀ t prepared, prepare t = .ok (some prepared) → prepared.base = t.base) :
    Spends T r (callee run deep a child requested prepare) 0 := by
  cases deep with
  | true => exact (free_onStack _).spends
  | false =>
    refine (free_readState _).then fun code s _ hsame => ?_
    rw [← hsame.gas] at hrun
    exact (spends_enter hrun hprepare).thenFree fun _ => free_onStack _

theorem spends_call (hrun : T.Honest run (r.handed T.prices .call)) :
    Spends T r (call run) 0 := by
  refine (free_onStack _).then fun (requested, callee, value) s hpop hs => ?_
  have hrequested : r.requested .call = requested := by
    unfold Activation.requested
    rw [words_of_pop3 hpop]
    rfl
  refine free_frame.then fun f s₁ _ hs₁ => ?_
  dsimp only
  by_cases hstatic : f.isStatic = true ∧ value ≠ 0
  · rw [if_pos hstatic]
    have hthrow : Free (throw .staticStateChange : Exec σ PUnit) := free_throw nofun
    exact hthrow.then fun _ _ h _ => by cases h
  · rw [if_neg hstatic]
    refine (free_require _).then fun _ s₂ _ hs₂ => ?_
    have hsame : SameMeter r s₂ := (hs.trans hs₁).trans hs₂
    exact spends_callee (honest_of_sameMeter hrun hsame hrequested rfl) fun _ _ =>
      Txn.base_of_transfer?

theorem spends_staticCall (hrun : T.Honest run (r.handed T.prices .staticCall)) :
    Spends T r (staticCall run) 0 := by
  refine (free_onStack _).then fun (requested, callee) s hpop hs => ?_
  have hrequested : r.requested .staticCall = requested := by
    unfold Activation.requested
    rw [words_of_pop2 hpop]
    rfl
  refine free_frame.then fun f s₁ _ hs₁ => ?_
  have hsame : SameMeter r s₁ := hs.trans hs₁
  exact spends_callee (honest_of_sameMeter hrun hsame hrequested rfl) fun _ _ => base_of_ok_some

theorem spends_delegateCall (hrun : T.Honest run (r.handed T.prices .delegateCall)) :
    Spends T r (delegateCall run) 0 := by
  refine (free_onStack _).then fun (requested, target) s hpop hs => ?_
  have hrequested : r.requested .delegateCall = requested := by
    unfold Activation.requested
    rw [words_of_pop2 hpop]
    rfl
  refine (free_require _).then fun _ s₁ _ hs₁ => ?_
  refine free_frame.then fun f s₂ _ hs₂ => ?_
  have hsame : SameMeter r s₂ := (hs.trans hs₁).trans hs₂
  exact spends_callee (honest_of_sameMeter hrun hsame hrequested rfl) fun _ _ => base_of_ok_some

theorem spends_create (hrun : T.Honest run (r.handed T.prices .create)) :
    Spends T r (create T.prices run) 0 := by
  refine Spends.bind (c := 0) (d := 0) spends_popRange fun initCode s hpop => ?_
  refine (free_onStack _).then fun value s₁ _ hs₁ => ?_
  refine free_requireMutable.then fun _ s₂ _ hs₂ => ?_
  refine free_frame.then fun f s₃ _ hs₃ => ?_
  refine (free_readState _).then fun nonce s₄ _ hs₄ => ?_
  refine (free_require _).then fun _ s₅ _ hs₅ => ?_
  split
  · exact (free_onStack _).spends
  have hbump : Free (writeState (·.setNonce f.address (nonce + 1)) : Exec σ Unit) :=
    free_writeState fun _ => rfl
  refine hbump.then fun _ s₆ _ hs₆ => ?_
  refine (free_occupied _).then fun taken s₇ _ hs₇ => ?_
  cases taken with
  | true => exact (free_onStack _).spends
  | false =>
    have hsame : SameMeter s s₇ :=
      (((((hs₁.trans hs₂).trans hs₃).trans hs₄).trans hs₅).trans hs₆).trans hs₇
    have hremaining : s₇.gas.remaining = r.gas.remaining - r.growth T.prices .create := by
      rw [hsame.gas]
      exact remaining_of_popRange hpop
    unfold Activation.handed at hrun
    rw [← hremaining] at hrun
    refine (spends_enter hrun fun t prepared hp => ?_).thenFree fun outcome => ?_
    · exact (Txn.base_of_transfer? hp : prepared.base = (t.setNonce _ 1).base)
    · split
      · have hinstall : ∀ output,
            Free (writeState (·.setCode (f.address.created nonce) output) : Exec σ Unit) :=
          fun _ => free_writeState fun _ => rfl
        exact (hinstall _).bind fun _ => free_onStack _
      · exact free_onStack _

theorem spends_perform (op : Op) (hrun : T.Honest run (r.handed T.prices op)) :
    Spends T r (perform T.prices run op) (r.decodeCost T.prices op) := by
  cases op with
  | halt | revert => exact (free_pure _).spends
  | pop => exact ((free_onStack Stack.pop).map fun _ => ()).andNext.spends
  | push _ | dup | swap | add | sub | eq | lt | not => exact (free_onStack _).andNext.spends
  | jump => exact (free_jump.map _).spends
  | jumpIf => exact (free_jumpIf.map _).spends
  | mload => exact spends_mload.andNext
  | mstore => exact spends_mstore.andNext
  | mstore8 => exact spends_mstore8.andNext
  | address | caller | callValue =>
    exact (free_frame.bind fun _ => free_onStack _).andNext.spends
  | balance => exact free_balance.andNext.spends
  | selfBalance => exact free_selfBalance.andNext.spends
  | codeHash => exact free_codeHash.andNext.spends
  | sload => exact free_sload.andNext.spends
  | sstore => exact free_sstore.andNext.spends
  | tload => exact free_tload.andNext.spends
  | tstore => exact free_tstore.andNext.spends
  | call => exact (spends_call hrun).andNext
  | staticCall => exact (spends_staticCall hrun).andNext
  | delegateCall => exact (spends_delegateCall hrun).andNext
  | create => exact (spends_create hrun).andNext
  | selfDestruct => exact (free_selfDestruct.bind fun _ => free_pure _).spends
  | ret => exact spends_popRange.map _
  | restrict => exact spends_restrict.andNext

end Calls

/-! ## Paying for a step -/

section Step

variable [Source σ] {prices : Pricing} {run : Runner σ} {op : Op}

/-- A step whose operation is known: it pays for it and performs it, or cannot pay. -/
theorem step_eq (h : r.next? = some op) :
    step prices run r =
      match r.gas.charge (prices.opCost op) with
      | .ok meter => perform prices run op (r.paying meter)
      | .error e => .error (.outOfGas e) { r with program := (r.program.access r.pc).2 } := by
  have hcharge := charge_eq (prices.opCost op) { r with program := (r.program.access r.pc).2 }
  rw [step_of_next?_eq_some prices run h]
  dsimp only at hcharge
  cases hm : r.gas.charge (prices.opCost op) with
  | ok meter =>
    rw [hm] at hcharge
    exact bind_of_ok hcharge
  | error e =>
    rw [hm] at hcharge
    exact bind_of_error hcharge

end Step

end Exec
end MutationGuard
