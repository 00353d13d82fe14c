import Mathlib.Algebra.BigOperators.Group.List.Basic
import Mathlib.Algebra.Order.Ring.Nat
import Mathlib.Data.List.Chain
import MutationGuard.Proofs.MemoryRange

/-!
What growing memory costs, taken step by step. Whatever the prices are, a cost never passes the largest
counter, and never falls as the size grows. So the charge from one size to the next is not cut off at zero,
and along a chain of sizes the charges add up to the cost of the last (`add_sum_growthCharges`). For a frame
this means that covering ranges one after the other costs what growing memory once, to cover them all,
would cost (`Exec.expandAll_eq_ok_iff`, by induction on the ranges). Main statement: `growth_paid_exactly`.
-/

namespace MutationGuard

/-! ## Chains of sizes -/

namespace GasSchedule

/-- What growing memory is charged from each size to the next: the cost of the new size, less that of the
old one. -/
def growthCharges (s : GasSchedule) : List Nat → List Nat
  | m :: n :: sizes => (s.memoryCost n - s.memoryCost m) :: s.growthCharges (n :: sizes)
  | _ => []

theorem add_sum_growthCharges (s : GasSchedule) {m : Nat} {sizes : List Nat}
    (h : (m :: sizes).IsChain (· ≤ ·)) :
    s.memoryCost m + (s.growthCharges (m :: sizes)).sum = s.memoryCost (sizes.getLastD m) := by
  induction sizes generalizing m with
  | nil => rfl
  | cons n sizes ih =>
    obtain ⟨hle, hrest⟩ := List.isChain_cons_cons.mp h
    have hmono := s.memoryCost_mono hle
    have hsum := ih hrest
    rw [growthCharges, List.sum_cons, List.getLastD_cons]
    omega

end GasSchedule

/-! ## Ranges -/

namespace Memory

/-- The words that a range, an offset and a length, reaches over. An empty range reaches over none. -/
def extent (range : Nat × Nat) : Nat := if range.2 = 0 then 0 else (range.1 + range.2 + 31) / 32

/-- The words that cover all of the ranges. -/
def cover (ranges : List (Nat × Nat)) : Nat :=
  ranges.foldr (fun range words => max (extent range) words) 0

/-- The range is empty, or ends within the size limit. -/
def Fits (range : Nat × Nat) : Prop := range.2 = 0 ∨ range.1 + range.2 ≤ sizeLimit

instance (range : Nat × Nat) : Decidable (Fits range) := inferInstanceAs (Decidable (_ ∨ _))

variable {m : Memory}

theorem wordsRequired_eq_ok_iff {range : Nat × Nat} {words : Nat} :
    m.wordsRequired range.1 range.2 = .ok words ↔
      Fits range ∧ words = max m.words (extent range) := by
  unfold wordsRequired Fits extent
  by_cases hlength : range.2 = 0
  · simp [hlength, eq_comm]
  · by_cases hlimit : range.1 + range.2 ≤ sizeLimit
    · simp [hlength, hlimit, Nat.not_lt.mpr hlimit, eq_comm]
    · simp [hlength, hlimit, Nat.not_le.mp hlimit]

theorem growTo_growTo (m : Memory) {words words' : Nat} (h : words ≤ words') :
    (m.growTo words).growTo words' = m.growTo words' := by
  obtain ⟨bytes⟩ := m
  have hsplit : 32 * words - bytes.size + (32 * words' - (bytes.size + (32 * words - bytes.size))) =
      32 * words' - bytes.size := by omega
  simp only [growTo, Array.size_append, Array.size_replicate, Array.append_assoc,
    Array.replicate_append_replicate, hsplit]

end Memory

/-! ## Growing in a frame -/

namespace Activation

variable {σ : Type} (prices : Pricing) (r : Activation σ)

/-- The frame once its memory has grown to so many words, and that is paid for. -/
def grown (words : Nat) : Activation σ :=
  { r with
    gas := { r.gas with spent := r.gas.spent + r.growthCost prices words }
    memory := r.memory.growTo words }

theorem grown_words : r.grown prices r.memory.words = r := by
  unfold grown growthCost
  rw [Nat.sub_self, Memory.growTo_words]
  rfl

/-- Growing twice costs as much as growing once. -/
theorem grown_grown {words words' : Nat} (h : r.memory.words ≤ words) (h' : words ≤ words') :
    (r.grown prices words).grown prices words' = r.grown prices words' := by
  have hmono := prices.schedule.memoryCost_mono h
  have hmono' := prices.schedule.memoryCost_mono h'
  have hspent : r.gas.spent + r.growthCost prices words +
      (r.grown prices words).growthCost prices words' = r.gas.spent + r.growthCost prices words' := by
    unfold growthCost grown
    rw [Memory.words_growTo h]
    omega
  have hmemory := r.memory.growTo_growTo h'
  unfold grown at hspent ⊢
  simp only [hspent, hmemory]

/-- What is enough for growing further is enough for growing so far. -/
theorem sound_grown {words words' : Nat} (h : words ≤ words')
    (hsound : (r.grown prices words').gas.Sound) : (r.grown prices words).gas.Sound := by
  have hmono := prices.schedule.memoryCost_mono h
  unfold GasMeter.Sound grown growthCost at hsound ⊢
  dsimp only at hsound ⊢
  omega

/-- A frame that starts to grow its memory is charged all that the memory costs. -/
theorem grown_start (f : Frame) (code : Code) (gasLimit : Nat) (t : Txn σ) (words : Nat) :
    (start f code gasLimit t).grown prices words =
      { start f code gasLimit t with
        gas := ⟨gasLimit, prices.schedule.memoryCost words⟩
        memory := Memory.growTo words {} } := by
  rw [grown, growthCost_start]
  simp only [start, Nat.zero_add]

end Activation

namespace Exec

variable {σ : Type} {prices : Pricing} {r s : Activation σ}

/-- Grows memory to cover ranges, one after the other, and charges for each growth. -/
def expandAll (prices : Pricing) (ranges : List (Nat × Nat)) : Exec σ Unit :=
  ranges.forM fun range => expand prices range.1 range.2

theorem expand_eq_ok_iff_grown {range : Nat × Nat} {u : Unit} :
    expand prices range.1 range.2 r = .ok u s ↔
      Memory.Fits range ∧
        (r.grown prices (max r.memory.words (Memory.extent range))).gas.Sound ∧
        s = r.grown prices (max r.memory.words (Memory.extent range)) := by
  rw [expand_eq_ok_iff]
  constructor
  · rintro ⟨words, meter, hwords, hmeter, rfl⟩
    obtain ⟨hfits, rfl⟩ := Memory.wordsRequired_eq_ok_iff.mp hwords
    obtain ⟨hle, rfl⟩ := GasMeter.charge_eq_ok_iff.mp hmeter
    exact ⟨hfits, hle, rfl⟩
  · rintro ⟨hfits, hle, rfl⟩
    exact ⟨_, _, Memory.wordsRequired_eq_ok_iff.mpr ⟨hfits, rfl⟩,
      GasMeter.charge_eq_ok_iff.mpr ⟨hle, rfl⟩, rfl⟩

/-- Ranges can be covered one after the other if they fit and all of them together can be paid for, and
then it does not show that memory has not grown at once. -/
theorem expandAll_eq_ok_iff {ranges : List (Nat × Nat)} {u : Unit} (hr : r.gas.Sound) :
    expandAll prices ranges r = .ok u s ↔
      (∀ range ∈ ranges, Memory.Fits range) ∧
        (r.grown prices (max r.memory.words (Memory.cover ranges))).gas.Sound ∧
        s = r.grown prices (max r.memory.words (Memory.cover ranges)) := by
  induction ranges generalizing r with
  | nil =>
    have hstays : max r.memory.words (Memory.cover []) = r.memory.words := Nat.max_eq_left (Nat.zero_le _)
    rw [hstays, r.grown_words]
    constructor
    · rintro ⟨⟩
      exact ⟨List.forall_mem_nil _, hr, rfl⟩
    · rintro ⟨-, -, rfl⟩
      rfl
  | cons range ranges ih =>
    generalize hfirst : max r.memory.words (Memory.extent range) = first
    have hle : r.memory.words ≤ first := hfirst ▸ Nat.le_max_left ..
    have hwords : (r.grown prices first).memory.words = first := Memory.words_growTo hle
    have hall : max r.memory.words (Memory.cover (range :: ranges)) =
        max first (Memory.cover ranges) := by
      rw [← hfirst]
      exact (Nat.max_assoc ..).symm
    have hgrown := r.grown_grown prices hle (Nat.le_max_left first (Memory.cover ranges))
    rw [hall, List.forall_mem_cons]
    constructor
    · intro h
      obtain ⟨_, r', hrange, hrest⟩ := ok_of_bind h
      obtain ⟨hfits, hsound, rfl⟩ := expand_eq_ok_iff_grown.mp hrange
      rw [hfirst] at hsound hrest
      have hih := (ih hsound).mp hrest
      rw [hwords, hgrown] at hih
      exact ⟨⟨hfits, hih.1⟩, hih.2⟩
    · rintro ⟨⟨hfits, hrest⟩, hsound, rfl⟩
      have hpaid := r.sound_grown prices (Nat.le_max_left first (Memory.cover ranges)) hsound
      have hrange : expand prices range.1 range.2 r = .ok () (r.grown prices first) := by
        rw [expand_eq_ok_iff_grown, hfirst]
        exact ⟨hfits, hpaid, rfl⟩
      refine (bind_of_ok hrange).trans ((ih hpaid).mpr ?_)
      rw [hwords, hgrown]
      exact ⟨hrest, hsound, rfl⟩

end Exec

/-- Memory of no words costs nothing, and neither memory nor decoding a restriction costs less where there
is more of it; no cost passes the largest counter. Along every chain of sizes that starts with none, no
charge is cut off at zero, and the charges add up to the cost of the last size. So a frame that starts to
cover ranges one after the other is charged the cost of the words that cover them all, no more and no
less, and gets there unless a range does not fit or that cost passes the limit. -/
theorem growth_paid_exactly (s : GasSchedule) :
    s.memoryCost 0 = 0 ∧
    (∀ m n, m ≤ n →
      s.memoryCost m ≤ s.memoryCost n ∧ s.restrictDecodeCost m ≤ s.restrictDecodeCost n) ∧
    (∀ n, s.memoryCost n ≤ counterMax ∧ s.restrictDecodeCost n ≤ counterMax) ∧
    (∀ sizes : List Nat, (0 :: sizes).IsChain (· ≤ ·) →
      (0 :: sizes).IsChain (fun m n => s.memoryCost m ≤ s.memoryCost n) ∧
      (s.growthCharges (0 :: sizes)).sum = s.memoryCost (sizes.getLastD 0)) ∧
    ∀ {σ : Type} (prices : Pricing) (f : Frame) (code : Code) (gasLimit : Nat) (t : Txn σ)
      (ranges : List (Nat × Nat)) (r : Activation σ), prices.schedule = s →
      (Exec.expandAll prices ranges (.start f code gasLimit t) = .ok () r ↔
        (∀ range ∈ ranges, Memory.Fits range) ∧ s.memoryCost (Memory.cover ranges) ≤ gasLimit ∧
          r = { Activation.start f code gasLimit t with
            gas := ⟨gasLimit, s.memoryCost (Memory.cover ranges)⟩
            memory := Memory.growTo (Memory.cover ranges) {} }) := by
  refine ⟨s.memoryCost_zero, fun m n hle => ⟨s.memoryCost_mono hle, s.restrictDecodeCost_mono hle⟩,
    fun n => ⟨s.memoryCost_le n, s.restrictDecodeCost_le n⟩, fun sizes hchain => ⟨?_, ?_⟩, ?_⟩
  · exact hchain.imp fun _ _ => s.memoryCost_mono
  · have hsum := s.add_sum_growthCharges hchain
    rw [s.memoryCost_zero, Nat.zero_add] at hsum
    exact hsum
  · rintro σ prices f code gasLimit t ranges r rfl
    have hsound : (Activation.start f code gasLimit t).gas.Sound := Nat.zero_le gasLimit
    rw [Exec.expandAll_eq_ok_iff hsound, Activation.words_start, Nat.zero_max, Activation.grown_start]
    exact Iff.rfl

/-- A word of memory costs half of what the counter holds, so that from two words on the cost stays at the
largest counter. Who has less than that cannot cover two words. -/
theorem growth_paid_exactly_steep :
    let s : GasSchedule :=
      { memoryWord := 2 ^ 63, memoryQuadraticDivisor := 0, restrictPerWord := counterMax }
    let sizes := [1, 1, 2, 4, counterMax]
    let ranges := [(0, 32), (64, 0), (31, 2)]
    let start := fun gasLimit =>
      Activation.start (Sample.frame .unrestricted) [] gasLimit (Sample.withContracts [])
    (0 :: sizes).IsChain (· ≤ ·) ∧
      s.memoryCost 2 ≤ s.memoryCost counterMax ∧
      s.restrictDecodeCost 2 ≤ s.restrictDecodeCost counterMax ∧
      (0 :: sizes).IsChain (fun m n => s.memoryCost m ≤ s.memoryCost n) ∧
      s.growthCharges (0 :: sizes) = [2 ^ 63 + 1, 0, 2 ^ 63 - 2, 0, 0] ∧
      (s.growthCharges (0 :: sizes)).sum = counterMax ∧
      (∃ r, Exec.expandAll s.pricing ranges (start counterMax) = .ok () r ∧
        r.gas = ⟨counterMax, counterMax⟩) ∧
      ∀ r, Exec.expandAll s.pricing ranges (start (counterMax - 1)) ≠ .ok () r := by
  intro s sizes ranges start
  obtain ⟨-, hmono, -, hchains, hframes⟩ := growth_paid_exactly s
  have hchain : (0 :: sizes).IsChain (· ≤ ·) := by decide
  have hle : 2 ≤ counterMax := by decide
  have hcharges : s.growthCharges (0 :: sizes) = [2 ^ 63 + 1, 0, 2 ^ 63 - 2, 0, 0] := by decide +kernel
  have hlast : s.memoryCost (sizes.getLastD 0) = counterMax := by decide +kernel
  have hcost : s.memoryCost (Memory.cover ranges) = counterMax := by decide +kernel
  have hfits : ∀ range ∈ ranges, Memory.Fits range := by decide
  refine ⟨hchain, (hmono 2 _ hle).1, (hmono 2 _ hle).2, (hchains sizes hchain).1, hcharges,
    (hchains sizes hchain).2.trans hlast,
    ⟨_, (hframes _ _ _ _ _ _ _ rfl).mpr ⟨hfits, Nat.le_of_eq hcost, rfl⟩, ?_⟩, fun r hr => ?_⟩
  · exact congrArg (GasMeter.mk counterMax) hcost
  · have hpaid := ((hframes _ _ _ _ _ _ _ rfl).mp hr).2.1
    rw [hcost] at hpaid
    exact absurd hpaid (by decide)

end MutationGuard
