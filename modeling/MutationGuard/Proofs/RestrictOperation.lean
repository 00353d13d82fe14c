import MutationGuard.Proofs.MemoryRange
import MutationGuard.Proofs.RoundTrip

/-!
The operation that changes a restriction, from its operands to the guard that it leaves. What it takes and
what it pays comes before its flag is looked at (`restrict_of_affords`), so neither hangs on the flag; the
guard is written last (`judge`), so a restriction that fails leaves it as it was. Main statement:
`restrict_exact`.
-/

namespace EStateM.Result

/-- Two computations that correspond through a view of the state, put one after the other. -/
theorem bind_mapState {ε σ α β : Type} {x : EStateM ε σ α} {g : α → EStateM ε σ β} {view : σ → σ}
    {r r' : σ} (hx : x r' = (x r).mapState view)
    (hg : ∀ a s, x r = .ok a s → g a (view s) = (g a s).mapState view) :
    (x >>= g) r' = ((x >>= g) r).mapState view := by
  simp only [bind, EStateM.bind, hx]
  cases h : x r with
  | ok a s => exact hg a s h
  | error e s => rfl

end EStateM.Result

namespace MutationGuard

variable {σ : Type}

theorem Word.toBool?_eq_some_iff {w : Word} {b : Bool} : w.toBool? = some b ↔ w = Word.ofBool b := by
  unfold toBool?
  by_cases hzero : w = 0
  · subst hzero
    cases b <;> decide
  rw [if_neg hzero]
  by_cases hone : w = 1
  · subst hone
    cases b <;> decide
  rw [if_neg hone]
  cases b
  · exact ⟨nofun, fun h => absurd h hzero⟩
  · exact ⟨nofun, fun h => absurd h hone⟩

/-- The frame under way with another restriction. -/
def Activation.withGuard (r : Activation σ) (guard : FrameGuard) : Activation σ :=
  { r with frame := { r.frame with guard := guard } }

/-- The frame under way on other memory, grown as far as its own. -/
def Activation.withMemory (r : Activation σ) (m : Memory) : Activation σ :=
  { r with memory := m.growTo r.memory.words }

/-- What a restriction pays for decoding so many bytes and for growing memory to so many words. -/
def Activation.restrictCost (prices : Pricing) (r : Activation σ) (maxLength words : Nat) : Nat :=
  prices.schedule.restrictDecodeCost maxLength + r.growthCost prices words

/-- The frame once the operands of a restriction are taken, its range is paid for and memory has grown. -/
def Activation.ranged (prices : Pricing) (r : Activation σ) (rest : List Word) (maxLength words : Nat) :
    Activation σ :=
  { r with
    stack := ⟨rest⟩
    memory := r.memory.growTo words
    gas := { r.gas with spent := r.gas.spent + r.restrictCost prices maxLength words } }

/-- All that a restriction needs before its flag is looked at: its operands, an offset and a length that
fit their counters, memory that may hold the range, and the gas to decode as much and to grow memory to so
many words. -/
structure Activation.AffordsRestriction (prices : Pricing) (r : Activation σ)
    (offset maxLength flag : Word) (rest : List Word) (words : Nat) : Prop where
  stack : r.stack.words = flag :: maxLength :: offset :: rest
  offset_le : offset.toNat ≤ counterMax
  length_le : maxLength.toNat ≤ counterMax
  required : r.memory.wordsRequired offset.toNat maxLength.toNat = .ok words
  gas : r.gas.spent + r.restrictCost prices maxLength.toNat words ≤ r.gas.limit

/-- A frame whose restriction succeeded, beside the one it was in before: the three operands are gone, the
range is paid for, memory has at most grown by words of zeroes, and the guard is what lifting or declaring
makes of it, a declaration being what the bytes of the range spell. The rest of the frame stays. -/
structure Activation.Restricted (prices : Pricing) (r s : Activation σ) (offset maxLength flag : Word) :
    Prop where
  operands : r.stack.words = flag :: maxLength :: offset :: s.stack.words
  limit : s.gas.limit = r.gas.limit
  spent : s.gas.spent + prices.schedule.memoryCost r.memory.words =
    r.gas.spent + prices.schedule.restrictDecodeCost maxLength.toNat +
      prices.schedule.memoryCost s.memory.words
  memory : ∃ n, s.memory.bytes = r.memory.bytes ++ Array.replicate n 0 ∧
    (r.memory.Aligned → n = 32 * (s.memory.words - r.memory.words))
  required : r.memory.wordsRequired offset.toNat maxLength.toNat = .ok s.memory.words
  guard : flag = 0 ∧ s.frame.guard = r.frame.guard.disable ∨
    flag = 1 ∧ ∃ bytes d, s.memory.Reads offset.toNat maxLength.toNat bytes ∧
      Declaration.decode bytes = .ok d ∧ s.frame.guard = r.frame.guard.enable (.ofDeclaration d)
  rest : s = { r with
    stack := s.stack, gas := s.gas, memory := s.memory, frame := { r.frame with guard := s.frame.guard } }

theorem Activation.Restricted.flag_eq {prices : Pricing} {r s : Activation σ}
    {offset maxLength flag : Word} (h : r.Restricted prices s offset maxLength flag) :
    flag = 0 ∨ flag = 1 :=
  h.guard.imp (·.1) (·.1)

/-- What is paid hangs on the range and the size of memory. -/
theorem Activation.Restricted.spent_eq {prices : Pricing} {r s : Activation σ}
    {offset maxLength flag : Word} (h : r.Restricted prices s offset maxLength flag) :
    s.gas.spent = r.gas.spent + r.restrictCost prices maxLength.toNat s.memory.words := by
  have hspent := h.spent
  have hmono := prices.schedule.memoryCost_mono (Memory.words_le_of_wordsRequired h.required)
  unfold Activation.restrictCost Activation.growthCost
  omega

namespace Exec

variable {prices : Pricing} {r s : Activation σ} {offset maxLength flag : Word} {rest : List Word}
  {words : Nat}

/-! ## The flag -/

/-- What the flag of a restriction makes of it, once its range is paid for. -/
def judge (flag : Word) (offset maxLength : Nat) : Exec σ Unit :=
  match flag.toBool? with
  | none => throw (.restrict (.invalidFlag flag))
  | some false => modify fun r => r.withGuard r.frame.guard.disable
  | some true => do
    let bytes ← slice offset maxLength
    let declaration ← ofExcept (fun e => .restrict (.decode e)) (Declaration.decode bytes)
    modify fun r => r.withGuard (r.frame.guard.enable (.ofDeclaration declaration))

theorem judge_eq (flag : Word) (offset maxLength : Nat) (r : Activation σ) :
    judge flag offset maxLength r =
      match flag.toBool? with
      | none => .error (.restrict (.invalidFlag flag)) r
      | some false => .ok () (r.withGuard r.frame.guard.disable)
      | some true =>
        match r.memory.slice offset maxLength with
        | .error e => .error (.memory e) r
        | .ok bytes =>
          match Declaration.decode bytes with
          | .error e => .error (.restrict (.decode e)) r
          | .ok d => .ok () (r.withGuard (r.frame.guard.enable (.ofDeclaration d))) := by
  unfold judge
  cases flag.toBool? with
  | none => rfl
  | some enable =>
    cases enable with
    | false => rfl
    | true =>
      have hslice := slice_eq offset maxLength r
      dsimp only
      cases hbytes : r.memory.slice offset maxLength with
      | error e =>
        rw [hbytes] at hslice
        exact bind_of_error hslice
      | ok bytes =>
        rw [hbytes] at hslice
        rw [bind_of_ok hslice]
        dsimp only
        cases Declaration.decode bytes <;> rfl

/-- A flag is accepted if it lifts the restriction, or declares what the range holds. -/
theorem judge_eq_ok_iff {offset maxLength : Nat} :
    judge flag offset maxLength r = .ok () s ↔ ∃ guard, s = r.withGuard guard ∧
      (flag = 0 ∧ guard = r.frame.guard.disable ∨
        flag = 1 ∧ ∃ bytes d, r.memory.slice offset maxLength = .ok bytes ∧
          Declaration.decode bytes = .ok d ∧ guard = r.frame.guard.enable (.ofDeclaration d)) := by
  rw [judge_eq]
  cases hflag : flag.toBool? with
  | none =>
    have hnot : ∀ b, flag ≠ Word.ofBool b := fun b h => by
      rw [Word.toBool?_eq_some_iff.mpr h] at hflag
      cases hflag
    constructor
    · exact nofun
    · rintro ⟨_, -, ⟨hzero, -⟩ | ⟨hone, -⟩⟩
      · exact absurd hzero (hnot false)
      · exact absurd hone (hnot true)
  | some enable =>
    obtain rfl := Word.toBool?_eq_some_iff.mp hflag
    cases enable with
    | false =>
      constructor
      · intro h
        cases h
        exact ⟨_, rfl, .inl ⟨rfl, rfl⟩⟩
      · rintro ⟨_, rfl, ⟨-, rfl⟩ | ⟨hone, -⟩⟩
        · rfl
        · exact absurd hone (by decide)
    | true =>
      constructor
      · intro h
        cases hslice : r.memory.slice offset maxLength with
        | error e =>
          rw [hslice] at h
          cases h
        | ok bytes =>
          rw [hslice] at h
          dsimp only at h
          cases hdecode : Declaration.decode bytes with
          | error e =>
            rw [hdecode] at h
            cases h
          | ok d =>
            rw [hdecode] at h
            cases h
            exact ⟨_, rfl, .inr ⟨rfl, bytes, d, rfl, hdecode, rfl⟩⟩
      · rintro ⟨_, rfl, ⟨hzero, -⟩ | ⟨-, bytes, d, hslice, hdecode, rfl⟩⟩
        · exact absurd hzero (by decide)
        · simp only [hslice, hdecode]

/-! ## The range -/

theorem restrict_eq_bind (prices : Pricing) :
    (restrict prices : Exec σ Unit) = (do
      let (offset, maxLength, flag) ← onStack Stack.pop3
      let offset ← counter offset
      let maxLength ← counter maxLength
      charge (prices.schedule.restrictDecodeCost maxLength)
      expand prices offset maxLength
      judge flag offset maxLength) := rfl

theorem pop3_of_words {a b c : Word} (h : r.stack.words = c :: b :: a :: rest) :
    onStack Stack.pop3 r = .ok (a, b, c) { r with stack := ⟨rest⟩ } := by
  obtain ⟨frame, pc, ⟨words⟩, memory, gas, program, txn⟩ := r
  obtain rfl : words = c :: b :: a :: rest := h
  rfl

theorem le_of_counter {w : Word} {n : Nat} (h : counter w r = .ok n s) : w.toNat ≤ counterMax := by
  unfold counter Word.toCounter? at h
  by_cases hw : w.toNat ≤ counterMax
  · exact hw
  · rw [if_neg hw] at h
    cases h

/-- With all that it needs, a restriction comes to its flag. -/
theorem restrict_of_affords (h : r.AffordsRestriction prices offset maxLength flag rest words) :
    restrict prices r =
      judge flag offset.toNat maxLength.toNat (r.ranged prices rest maxLength.toNat words) := by
  have hgas := h.gas
  unfold Activation.restrictCost at hgas
  let popped : Activation σ := { r with stack := ⟨rest⟩ }
  let paid : Activation σ :=
    { popped with
      gas := { r.gas with
        spent := r.gas.spent + prices.schedule.restrictDecodeCost maxLength.toNat } }
  have hcharge : charge (prices.schedule.restrictDecodeCost maxLength.toNat) popped = .ok () paid :=
    charge_eq_ok_iff.mpr ⟨by dsimp only [popped]; omega, rfl⟩
  have hgrowth : paid.gas.charge (paid.growthCost prices words) =
      .ok (r.ranged prices rest maxLength.toNat words).gas := by
    refine GasMeter.charge_eq_ok_iff.mpr ⟨?_, ?_⟩
    · change r.gas.spent + _ + r.growthCost prices words ≤ r.gas.limit
      omega
    · unfold Activation.ranged Activation.restrictCost
      rw [← Nat.add_assoc]
      rfl
  have hexpand : expand prices offset.toNat maxLength.toNat paid =
      .ok () (r.ranged prices rest maxLength.toNat words) :=
    expand_eq_ok_iff.mpr ⟨words, _, h.required, hgrowth, rfl⟩
  rw [restrict_eq_bind, bind_of_ok (pop3_of_words h.stack)]
  dsimp only
  rw [bind_of_ok (counter_of_le h.offset_le), bind_of_ok (counter_of_le h.length_le),
    bind_of_ok hcharge, bind_of_ok hexpand]

/-- What a restriction that succeeds was given. -/
theorem exists_affords_of_ok (h : restrict prices r = .ok () s) :
    ∃ offset maxLength flag rest words,
      r.AffordsRestriction prices offset maxLength flag rest words := by
  rw [restrict_eq_bind] at h
  obtain ⟨⟨offset, maxLength, flag⟩, popped, hpop, hrest⟩ := ok_of_bind h
  obtain ⟨_, _, hoffset, hlengths⟩ := ok_of_bind hrest
  obtain ⟨_, _, hlength, hpays⟩ := ok_of_bind hlengths
  obtain ⟨_, paid, hcharge, hgrows⟩ := ok_of_bind hpays
  obtain ⟨_, _, hexpand, -⟩ := ok_of_bind hgrows
  obtain ⟨rfl, rfl⟩ := eq_of_counter hoffset
  obtain ⟨rfl, rfl⟩ := eq_of_counter hlength
  obtain ⟨-, rfl⟩ := charge_eq_ok_iff.mp hcharge
  obtain ⟨words, meter, hwords, hmeter, -⟩ := expand_eq_ok_iff.mp hexpand
  have hstack := words_of_pop3 hpop
  obtain ⟨stack, -, rfl⟩ := eq_of_onStack hpop
  obtain ⟨hgas, -⟩ := GasMeter.charge_eq_ok_iff.mp hmeter
  refine ⟨offset, maxLength, flag, stack.words, words, hstack, le_of_counter hoffset,
    le_of_counter hlength, hwords, ?_⟩
  unfold Activation.restrictCost
  rw [← Nat.add_assoc]
  exact hgas

/-- A restriction succeeds with all that it needs, if its flag is accepted. -/
theorem restrict_eq_ok_iff :
    restrict prices r = .ok () s ↔ ∃ offset maxLength flag rest words guard,
      r.AffordsRestriction prices offset maxLength flag rest words ∧
      s = (r.ranged prices rest maxLength.toNat words).withGuard guard ∧
      (flag = 0 ∧ guard = r.frame.guard.disable ∨
        flag = 1 ∧ ∃ bytes d,
          (r.memory.growTo words).slice offset.toNat maxLength.toNat = .ok bytes ∧
          Declaration.decode bytes = .ok d ∧ guard = r.frame.guard.enable (.ofDeclaration d)) := by
  constructor
  · intro h
    obtain ⟨offset, maxLength, flag, rest, words, haffords⟩ := exists_affords_of_ok h
    rw [restrict_of_affords haffords] at h
    obtain ⟨guard, rfl, hflag⟩ := judge_eq_ok_iff.mp h
    exact ⟨offset, maxLength, flag, rest, words, guard, haffords, rfl, hflag⟩
  · rintro ⟨offset, maxLength, flag, rest, words, guard, haffords, rfl, hflag⟩
    rw [restrict_of_affords haffords]
    exact judge_eq_ok_iff.mpr ⟨guard, rfl, hflag⟩

/-! ## What a failure leaves -/

/-- The guard is written last. -/
theorem ensures_restrict (prices : Pricing) (f : Frame) (t : Txn σ) :
    Ensures f t (restrict prices) (fun _ _ _ => True) fun f' t' => f' = f ∧ t' = t := by
  rw [restrict_eq_bind]
  refine (quiet_onStack _).then (fun (offset, maxLength, flag) => ?_) ⟨rfl, rfl⟩
  refine (quiet_counter _).then (fun offset => ?_) ⟨rfl, rfl⟩
  refine (quiet_counter _).then (fun maxLength => ?_) ⟨rfl, rfl⟩
  refine (quiet_charge _).then (fun _ => (quiet_expand _ _ _).then (fun _ => ?_) ⟨rfl, rfl⟩) ⟨rfl, rfl⟩
  unfold judge
  cases flag.toBool? with
  | none => exact ensures_throw ⟨rfl, rfl⟩
  | some enable =>
    cases enable with
    | false => exact fun _ _ _ => trivial
    | true =>
      refine (quiet_slice _ _).then (fun _ => ?_) ⟨rfl, rfl⟩
      exact (quiet_ofExcept _ _).then (fun _ _ _ _ => trivial) ⟨rfl, rfl⟩

theorem frame_of_restrict_error {e : OpError} (h : restrict prices r = .error e s) :
    s.frame = r.frame ∧ s.txn = r.txn :=
  (ensures_restrict prices r.frame r.txn).of_error h rfl rfl

theorem exists_error_of_not_ok (h : ∀ s, restrict prices r ≠ .ok () s) :
    ∃ e s, restrict prices r = .error e s ∧ s.frame = r.frame := by
  cases hr : restrict prices r with
  | ok _ s => exact absurd hr (h s)
  | error e s => exact ⟨e, s, rfl, (frame_of_restrict_error hr).1⟩

/-! ## Other memory -/

section Locality

variable {m : Memory}

theorem withMemory_eq (hsize : m.bytes.size = r.memory.bytes.size) :
    r.withMemory m = { r with memory := m } := by
  have hwords : r.memory.words = m.words := by
    unfold Memory.words
    rw [hsize]
  rw [Activation.withMemory, hwords, Memory.growTo_words]

theorem onStack_withMemory {α : Type} (action : Stack.Action α) (r : Activation σ) :
    onStack action (r.withMemory m) = (onStack action r).mapState (·.withMemory m) := by
  rw [onStack_eq, onStack_eq]
  cases haction : action r.stack <;>
    simp only [Activation.withMemory, haction, EStateM.Result.mapState]

theorem counter_withMemory (w : Word) (r : Activation σ) :
    counter w (r.withMemory m) = (counter w r).mapState (·.withMemory m) := by
  unfold counter
  cases w.toCounter? <;> rfl

theorem charge_withMemory (gas : Nat) (r : Activation σ) :
    charge gas (r.withMemory m) = (charge gas r).mapState (·.withMemory m) := by
  have hgas : (r.withMemory m).gas = r.gas := rfl
  rw [charge_eq, charge_eq, hgas]
  cases r.gas.charge gas <;> rfl

/-- Growing memory looks at its size alone. -/
theorem expand_withMemory (prices : Pricing) (offset length : Nat)
    (hsize : m.bytes.size = r.memory.bytes.size) :
    expand prices offset length (r.withMemory m) =
      (expand prices offset length r).mapState (·.withMemory m) := by
  have hcost : ∀ words, Activation.growthCost prices { r with memory := m } words =
      r.growthCost prices words := fun words => by
    unfold Activation.growthCost Memory.words
    rw [hsize]
  rw [withMemory_eq hsize, expand_eq, expand_eq, Memory.wordsRequired_congr hsize]
  cases hwords : r.memory.wordsRequired offset length with
  | error e =>
    dsimp only [EStateM.Result.mapState]
    rw [withMemory_eq hsize]
  | ok words =>
    dsimp only
    rw [hcost]
    cases r.gas.charge (r.growthCost prices words) with
    | error e =>
      dsimp only [EStateM.Result.mapState]
      rw [withMemory_eq hsize]
    | ok meter =>
      have hgrown : (r.memory.growTo words).words = words :=
        Memory.words_growTo (Memory.words_le_of_wordsRequired hwords)
      simp only [EStateM.Result.mapState, Activation.withMemory, hgrown]

/-- The flag is judged by the bytes of the range. -/
theorem judge_withMemory (flag : Word) {offset maxLength : Nat}
    (hslice : (r.withMemory m).memory.slice offset maxLength = r.memory.slice offset maxLength) :
    judge flag offset maxLength (r.withMemory m) =
      (judge flag offset maxLength r).mapState (·.withMemory m) := by
  rw [judge_eq, judge_eq, hslice]
  cases flag.toBool? with
  | none => rfl
  | some enable =>
    cases enable with
    | false => rfl
    | true =>
      dsimp only
      cases r.memory.slice offset maxLength with
      | error e => rfl
      | ok bytes =>
        dsimp only
        cases Declaration.decode bytes <;> rfl

/-- Another memory of the same size, alike on the range, leads to the same end. -/
theorem restrict_withMemory (hstack : r.stack.words = flag :: maxLength :: offset :: rest)
    (hsize : m.bytes.size = r.memory.bytes.size)
    (hrange : ∀ i < maxLength.toNat,
      m.bytes[offset.toNat + i]? = r.memory.bytes[offset.toNat + i]?) :
    restrict prices { r with memory := m } = (restrict prices r).mapState (·.withMemory m) := by
  rw [← withMemory_eq hsize, restrict_eq_bind]
  refine EStateM.Result.bind_mapState (onStack_withMemory _ r) fun operands popped hpop => ?_
  obtain ⟨offset', maxLength', flag'⟩ := operands
  have hoperands := hstack.symm.trans (words_of_pop3 hpop)
  obtain ⟨stack, -, rfl⟩ := eq_of_onStack hpop
  obtain ⟨rfl, rfl, rfl, -⟩ : flag = flag' ∧ maxLength = maxLength' ∧ offset = offset' ∧ _ := by
    simpa using hoperands
  refine EStateM.Result.bind_mapState (counter_withMemory _ _) fun n s₁ hoffset => ?_
  obtain ⟨rfl, rfl⟩ := eq_of_counter hoffset
  refine EStateM.Result.bind_mapState (counter_withMemory _ _) fun k s₂ hlength => ?_
  obtain ⟨rfl, rfl⟩ := eq_of_counter hlength
  refine EStateM.Result.bind_mapState (charge_withMemory _ _) fun _ paid hcharge => ?_
  obtain ⟨-, rfl⟩ := charge_eq_ok_iff.mp hcharge
  refine EStateM.Result.bind_mapState (expand_withMemory _ _ _ hsize) fun _ grown hexpand => ?_
  obtain ⟨words, meter, hwords, -, rfl⟩ := expand_eq_ok_iff.mp hexpand
  have hgrown : (r.memory.growTo words).words = words :=
    Memory.words_growTo (Memory.words_le_of_wordsRequired hwords)
  refine judge_withMemory flag (Memory.slice_congr ?_ fun i hi => ?_)
  · dsimp only [Activation.withMemory]
    rw [hgrown, Memory.size_growTo, Memory.size_growTo, hsize]
  · dsimp only [Activation.withMemory]
    rw [hgrown, Memory.getElem?_growTo, Memory.getElem?_growTo, hsize, hrange i hi]

end Locality

theorem restricted_of_ok (h : restrict prices r = .ok () s) :
    ∃ offset maxLength flag, r.Restricted prices s offset maxLength flag := by
  obtain ⟨offset, maxLength, flag, rest, words, guard, haffords, rfl, hflag⟩ :=
    restrict_eq_ok_iff.mp h
  have hle := Memory.words_le_of_wordsRequired haffords.required
  have hgrown : (r.memory.growTo words).words = words := Memory.words_growTo hle
  have hmono := prices.schedule.memoryCost_mono hle
  refine ⟨offset, maxLength, flag, ?_⟩
  constructor
  case operands => exact haffords.stack
  case limit => rfl
  case spent =>
    change r.gas.spent + r.restrictCost prices maxLength.toNat words + _ =
      _ + _ + prices.schedule.memoryCost (r.memory.growTo words).words
    rw [hgrown, Activation.restrictCost, Activation.growthCost]
    omega
  case memory =>
    obtain ⟨n, hbytes, hn⟩ := r.memory.bytes_growTo words
    refine ⟨n, hbytes, fun haligned => ?_⟩
    change n = 32 * ((r.memory.growTo words).words - r.memory.words)
    rw [hgrown]
    exact hn haligned
  case required =>
    change _ = Except.ok (r.memory.growTo words).words
    rw [hgrown]
    exact haffords.required
  case guard =>
    obtain hlifts | ⟨hone, bytes, d, hslice, hdecode, hguard⟩ := hflag
    · exact .inl hlifts
    · exact .inr ⟨hone, bytes, d, Memory.reads_of_slice hslice, hdecode, hguard⟩
  case rest => rfl

/-- A flag that is neither zero nor one fails, and the guard stays. -/
theorem restrict_invalid_flag (hstack : r.stack.words = flag :: rest) (hzero : flag ≠ 0)
    (hone : flag ≠ 1) : ∃ e s, restrict prices r = .error e s ∧ s.frame = r.frame := by
  refine exists_error_of_not_ok fun s h => ?_
  obtain ⟨_, _, _, hrestricted⟩ := restricted_of_ok h
  obtain rfl := (List.cons.inj (hstack.symm.trans hrestricted.operands)).1
  obtain h0 | h1 := hrestricted.flag_eq
  · exact hzero h0
  · exact hone h1

/-- With all that it needs, a declaration is accepted if the range spells one. -/
theorem restrict_declares_iff (h : r.AffordsRestriction prices offset maxLength 1 rest words) :
    (∃ s, restrict prices r = .ok () s) ↔
      ∃ bytes d, (r.memory.growTo words).slice offset.toNat maxLength.toNat = .ok bytes ∧
        Declaration.decode bytes = .ok d := by
  rw [restrict_of_affords h]
  constructor
  · rintro ⟨s, hs⟩
    obtain ⟨_, -, ⟨hzero, -⟩ | ⟨-, bytes, d, hslice, hdecode, -⟩⟩ := judge_eq_ok_iff.mp hs
    · exact absurd hzero (by decide)
    · exact ⟨bytes, d, hslice, hdecode⟩
  · rintro ⟨bytes, d, hslice, hdecode⟩
    exact ⟨_, judge_eq_ok_iff.mpr ⟨_, rfl, .inr ⟨rfl, bytes, d, hslice, hdecode, rfl⟩⟩⟩

/-- Restrictions of one range in memory of one size pay the same, whatever else sets their frames apart. -/
theorem restrict_cost_eq {r' s' : Activation σ} {flag' : Word} {rest' : List Word}
    (hstack : r.stack.words = flag :: maxLength :: offset :: rest)
    (hstack' : r'.stack.words = flag' :: maxLength :: offset :: rest')
    (hsize : r'.memory.bytes.size = r.memory.bytes.size)
    (h : restrict prices r = .ok () s) (h' : restrict prices r' = .ok () s') :
    ∃ cost, s.gas.spent = r.gas.spent + cost ∧ s'.gas.spent = r'.gas.spent + cost := by
  obtain ⟨_, _, _, hrestricted⟩ := restricted_of_ok h
  obtain ⟨_, _, _, hrestricted'⟩ := restricted_of_ok h'
  have hoperands := hstack.symm.trans hrestricted.operands
  have hoperands' := hstack'.symm.trans hrestricted'.operands
  simp only [List.cons.injEq] at hoperands hoperands'
  obtain ⟨-, rfl, rfl, -⟩ := hoperands
  obtain ⟨-, rfl, rfl, -⟩ := hoperands'
  have hgrown : s'.memory.words = s.memory.words := by
    have hrequired := hrestricted'.required
    rw [Memory.wordsRequired_congr hsize, hrestricted.required] at hrequired
    exact (Except.ok.inj hrequired).symm
  have hwords : r'.memory.words = r.memory.words := by
    unfold Memory.words
    rw [hsize]
  refine ⟨_, hrestricted.spent_eq, ?_⟩
  rw [hrestricted'.spent_eq, hgrown]
  unfold Activation.restrictCost Activation.growthCost
  rw [hwords]

/-- A restriction that fails leaves the guard and the transaction as they were. One that succeeds has taken
its operands, paid for its range and grown memory by words of zeroes, and left the guard that its flag
asks for. A flag that is neither zero nor one fails. With all that it needs, lifting succeeds, and declaring
succeeds when the range spells a declaration. What it pays hangs on the range and the size of memory
alone, and the bytes outside the range make no difference at all. -/
theorem restrict_exact (prices : Pricing) (r : Activation σ) :
    (∀ e s, restrict prices r = .error e s → s.frame = r.frame ∧ s.txn = r.txn) ∧
    (∀ s, restrict prices r = .ok () s →
      ∃ offset maxLength flag, r.Restricted prices s offset maxLength flag) ∧
    (∀ flag rest, r.stack.words = flag :: rest → flag ≠ 0 → flag ≠ 1 →
      ∃ e s, restrict prices r = .error e s ∧ s.frame = r.frame) ∧
    (∀ offset maxLength rest words, r.AffordsRestriction prices offset maxLength 0 rest words →
      ∃ s, restrict prices r = .ok () s) ∧
    (∀ offset maxLength rest words, r.AffordsRestriction prices offset maxLength 1 rest words →
      ((∃ s, restrict prices r = .ok () s) ↔
        ∃ bytes d, (r.memory.growTo words).slice offset.toNat maxLength.toNat = .ok bytes ∧
          Declaration.decode bytes = .ok d)) ∧
    (∀ offset maxLength flag flag' rest rest' s (r' s' : Activation σ),
      r.stack.words = flag :: maxLength :: offset :: rest →
      r'.stack.words = flag' :: maxLength :: offset :: rest' →
      r'.memory.bytes.size = r.memory.bytes.size →
      restrict prices r = .ok () s → restrict prices r' = .ok () s' →
        ∃ cost, s.gas.spent = r.gas.spent + cost ∧ s'.gas.spent = r'.gas.spent + cost) ∧
    ∀ offset maxLength flag rest m, r.stack.words = flag :: maxLength :: offset :: rest →
      m.bytes.size = r.memory.bytes.size →
      (∀ i < maxLength.toNat, m.bytes[offset.toNat + i]? = r.memory.bytes[offset.toNat + i]?) →
        restrict prices { r with memory := m } =
          (restrict prices r).mapState fun s => { s with memory := m.growTo s.memory.words } := by
  refine ⟨fun e s h => frame_of_restrict_error h, fun s h => restricted_of_ok h,
    fun flag rest hstack hzero hone => restrict_invalid_flag hstack hzero hone,
    fun offset maxLength rest words haffords => ?lifted,
    fun offset maxLength rest words haffords => restrict_declares_iff haffords,
    fun offset maxLength flag flag' rest rest' s r' s' hstack hstack' hsize h h' =>
      restrict_cost_eq hstack hstack' hsize h h',
    fun offset maxLength flag rest m hstack hsize hrange => restrict_withMemory hstack hsize hrange⟩
  case lifted =>
    rw [restrict_of_affords haffords]
    exact ⟨_, judge_eq_ok_iff.mpr ⟨_, rfl, .inl ⟨rfl, rfl⟩⟩⟩

/-- A frame that declares nothing at all, one that lifts its restriction over the same byte, and one whose
flag is two. -/
theorem restrict_exact_nothing :
    let prices := ({} : GasSchedule).pricing
    let r : Activation Table :=
      { Activation.start (Sample.frame .unrestricted) [] 200 (Sample.withContracts []) with
        stack := ⟨[1, 1, 0]⟩
        memory := ⟨#[0xc0] ++ Array.replicate 31 0⟩ }
    let lifting : Activation Table := { r with stack := ⟨[0, 1, 0]⟩ }
    let other : Memory := ⟨#[0xc0] ++ Array.replicate 31 7⟩
    (∃ s, restrict prices r = .ok () s ∧
      (∃ offset maxLength flag, r.Restricted prices s offset maxLength flag) ∧
      ∃ s', restrict prices lifting = .ok () s' ∧
        ∃ cost, s.gas.spent = r.gas.spent + cost ∧ s'.gas.spent = lifting.gas.spent + cost) ∧
    restrict prices { r with memory := other } =
      (restrict prices r).mapState (fun s => { s with memory := other.growTo s.memory.words }) ∧
    ∃ e s, restrict prices { r with stack := ⟨[2, 1, 0]⟩ } = .error e s ∧ s.frame = r.frame := by
  intro prices r lifting other
  have hrequired : r.memory.wordsRequired 0 1 = .ok 1 :=
    (Memory.wordsRequired_of_le (by decide) (by decide)).trans (congrArg Except.ok (by decide))
  have haffords : r.AffordsRestriction prices 0 1 1 [] 1 :=
    ⟨rfl, by decide, by decide, hrequired, by decide⟩
  have hlifts : lifting.AffordsRestriction prices 0 1 0 [] 1 :=
    ⟨rfl, by decide, by decide, hrequired, by decide⟩
  obtain ⟨-, hrestricted, -, -, hdeclares, hcost, hlocal⟩ := restrict_exact prices r
  obtain ⟨-, -, -, hlifting, -⟩ := restrict_exact prices lifting
  obtain ⟨-, -, hinvalid, -⟩ := restrict_exact prices { r with stack := ⟨[2, 1, 0]⟩ }
  have hdecode : Declaration.decode [0xc0] = .ok ⟨[]⟩ :=
    Declaration.decode_encode_of_wellFormed (d := ⟨[]⟩) (by decide) (by decide)
  obtain ⟨s, hs⟩ := (hdeclares 0 1 [] 1 haffords).mpr ⟨[0xc0], ⟨[]⟩, rfl, hdecode⟩
  obtain ⟨s', hs'⟩ := hlifting 0 1 [] 1 hlifts
  refine ⟨⟨s, hs, hrestricted s hs, s', hs', hcost 0 1 1 0 [] [] s lifting s' rfl rfl rfl hs hs'⟩,
    hlocal 0 1 1 [] other rfl (by decide) ?_, hinvalid 2 [1, 0] rfl (by decide) (by decide)⟩
  intro i hi
  obtain rfl : i = 0 := Nat.lt_one_iff.mp hi
  decide

end Exec
end MutationGuard
