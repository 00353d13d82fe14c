import MutationGuard.Machine.Op

/-!
Gas: what operations cost, and the meter that each frame's spending is held against. Amounts are
64-bit counters; costs that would pass the largest counter stay at it.
-/

namespace MutationGuard

/-- The amount as a counter: at most the largest one. -/
def saturate (n : Nat) : Nat := min n counterMax

theorem saturate_le (n : Nat) : saturate n ≤ counterMax := Nat.min_le_right ..

theorem saturate_mono {m n : Nat} (h : m ≤ n) : saturate m ≤ saturate n := by
  unfold saturate
  omega

/-- What every kind of operation costs. -/
structure GasSchedule where
  /-- Stack, arithmetic, control flow, memory and environment operations. -/
  base : Nat := 3
  /-- Reading balances, code hashes and storage. -/
  stateRead : Nat := 100
  /-- Writing persistent or transient storage. -/
  stateWrite : Nat := 2900
  /-- Entering any kind of call. -/
  call : Nat := 700
  /-- Creating an account. -/
  create : Nat := 32000
  /-- Destroying an account. -/
  selfDestruct : Nat := 5000
  /-- Each word of memory. -/
  memoryWord : Nat := 3
  /-- What the square of the memory size is divided by. -/
  memoryQuadraticDivisor : Nat := 512
  /-- The fixed cost of a restriction. -/
  restrictBase : Nat := 100
  /-- Each word of a restriction's declared maximum length. -/
  restrictPerWord : Nat := 3
  deriving DecidableEq

namespace GasSchedule

/-- The total cost of memory of `words` words: linear, and quadratic once it is large. A divisor of
zero counts as one. -/
def memoryCost (s : GasSchedule) (words : Nat) : Nat :=
  let linear := saturate (words * s.memoryWord)
  let quadratic := saturate (words * words) / max s.memoryQuadraticDivisor 1
  saturate (linear + quadratic)

/-- The cost of decoding a restriction of up to `maxLength` bytes. -/
def restrictDecodeCost (s : GasSchedule) (maxLength : Nat) : Nat :=
  saturate ((maxLength + 31) / 32 * s.restrictPerWord)

/-- The cost of an operation before it runs. Growing memory, decoding a restriction and the gas
handed to a child frame come on top. -/
def opCost (s : GasSchedule) : Op → Nat
  | .halt | .revert | .ret => 0
  | .push _ | .pop | .dup | .swap | .add | .sub | .eq | .lt | .not | .jump | .jumpIf
  | .mload | .mstore | .mstore8 | .address | .caller | .callValue => s.base
  | .balance | .selfBalance | .codeHash | .sload | .tload => s.stateRead
  | .sstore | .tstore => s.stateWrite
  | .call | .staticCall | .delegateCall => s.call
  | .create => s.create
  | .selfDestruct => s.selfDestruct
  | .restrict => s.restrictBase

theorem memoryCost_zero (s : GasSchedule) : s.memoryCost 0 = 0 := by simp [memoryCost, saturate]

/-- More memory never costs less, not even where the costs stay at the largest counter. -/
theorem memoryCost_mono (s : GasSchedule) {m n : Nat} (h : m ≤ n) :
    s.memoryCost m ≤ s.memoryCost n := by
  have hlinear := saturate_mono (Nat.mul_le_mul_right s.memoryWord h)
  have hsquare := saturate_mono (Nat.mul_le_mul h h)
  unfold memoryCost
  exact saturate_mono (Nat.add_le_add hlinear (Nat.div_le_div_right hsquare))

theorem memoryCost_le (s : GasSchedule) (words : Nat) : s.memoryCost words ≤ counterMax :=
  saturate_le _

/-- A longer declaration never costs less to decode. -/
theorem restrictDecodeCost_mono (s : GasSchedule) {m n : Nat} (h : m ≤ n) :
    s.restrictDecodeCost m ≤ s.restrictDecodeCost n := by
  have hwords : (m + 31) / 32 ≤ (n + 31) / 32 := by omega
  exact saturate_mono (Nat.mul_le_mul_right _ hwords)

theorem restrictDecodeCost_le (s : GasSchedule) (maxLength : Nat) :
    s.restrictDecodeCost maxLength ≤ counterMax := saturate_le _

end GasSchedule

/-- What a transaction is charged: the schedule, and the cost of each operation before it runs. -/
structure Pricing where
  schedule : GasSchedule
  opCost : Op → Nat

/-- Prices that follow the schedule alone. -/
def GasSchedule.pricing (s : GasSchedule) : Pricing := ⟨s, s.opCost⟩

/-- An operation would have spent more than the frame's limit. -/
structure OutOfGas where
  spent : Nat
  limit : Nat
  cost : Nat
  deriving DecidableEq

/-- The text of the error. -/
def OutOfGas.message (e : OutOfGas) : String :=
  "operation cost " ++ toString e.cost ++ " exceeds the remaining gas (" ++ toString e.spent ++
    " of " ++ toString e.limit ++ " spent)"

/-- The gas spent by one frame, against its limit. -/
structure GasMeter where
  limit : Nat
  spent : Nat := 0
  deriving DecidableEq

namespace GasMeter

/-- The gas still available. -/
def remaining (m : GasMeter) : Nat := m.limit - m.spent

/-- Spends gas, or nothing at all if there is not enough. -/
def charge (m : GasMeter) (gas : Nat) : Except OutOfGas GasMeter :=
  if m.spent + gas ≤ m.limit then .ok { m with spent := m.spent + gas }
  else .error ⟨m.spent, m.limit, gas⟩

/-- Returns gas that was spent but not used. -/
def refund (m : GasMeter) (gas : Nat) : GasMeter := { m with spent := m.spent - gas }

/-- Spends everything that remains. -/
def exhaust (m : GasMeter) : GasMeter := { m with spent := m.limit }

/-- No more is spent than the limit. -/
def Sound (m : GasMeter) : Prop := m.spent ≤ m.limit

instance (m : GasMeter) : Decidable m.Sound := inferInstanceAs (Decidable (m.spent ≤ m.limit))

theorem charge_eq_ok_iff {m n : GasMeter} {gas : Nat} :
    m.charge gas = .ok n ↔ m.spent + gas ≤ m.limit ∧ n = { m with spent := m.spent + gas } := by
  unfold charge
  by_cases h : m.spent + gas ≤ m.limit
  · rw [if_pos h]
    exact ⟨fun heq => by cases heq; exact ⟨h, rfl⟩, fun ⟨_, heq⟩ => heq ▸ rfl⟩
  · rw [if_neg h]
    exact ⟨nofun, fun ⟨hle, _⟩ => absurd hle h⟩

theorem sound_of_charge {m n : GasMeter} {gas : Nat} (h : m.charge gas = .ok n) : n.Sound := by
  unfold charge at h
  split at h <;> cases h
  assumption

theorem remaining_of_charge {m n : GasMeter} {gas : Nat} (h : m.charge gas = .ok n) :
    n.remaining + gas = m.remaining := by
  obtain ⟨hle, rfl⟩ := charge_eq_ok_iff.mp h
  unfold remaining
  dsimp only
  omega

theorem Sound.refund {m : GasMeter} (h : m.Sound) (gas : Nat) : (m.refund gas).Sound :=
  Nat.le_trans (Nat.sub_le ..) h

end GasMeter
end MutationGuard
