import Mathlib.Algebra.Group.Nat.Defs
import Mathlib.Algebra.Order.Ring.Nat
import Mathlib.Data.List.Induction
import MutationGuard.Bytes

/-!
Numbers written as bytes and read back. Main statements: `toNat_ofNat`, by which `width` bytes keep a
number modulo 256 to the power of `width`; `ofNat_toNat`, by which bytes are what their number is
written in at their own width; and `minimal_toNat`, by which a number has one spelling without a
leading zero.
-/

namespace MutationGuard.Bytes

/-- Reading back what was written gives the number modulo the width. -/
theorem toNat_ofNat (width n : Nat) : toNat (ofNat width n) = n % 256 ^ width := by
  induction width generalizing n with
  | zero => rw [ofNat_zero, toNat_nil, pow_zero, Nat.mod_one]
  | succ width ih =>
    have low : (UInt8.ofNat n).toNat = n % 256 := by simp
    rw [ofNat_succ, toNat_append_singleton, ih, low, pow_succ', Nat.mod_mul]
    exact Nat.add_comm ..

theorem toNat_lt (bytes : Bytes) : toNat bytes < 256 ^ bytes.length := by
  induction bytes using List.reverseRecOn with
  | nil => simp
  | append_singleton bytes b ih =>
    have hb : b.toNat < 256 := b.toNat_lt
    rw [toNat_append_singleton, List.length_append, List.length_singleton, pow_succ]
    omega

/-- The first byte counts most. -/
theorem toNat_cons (b : UInt8) (bytes : Bytes) :
    toNat (b :: bytes) = b.toNat * 256 ^ bytes.length + toNat bytes := by
  induction bytes using List.reverseRecOn with
  | nil => simp [toNat]
  | append_singleton bytes c ih =>
    have hcons : b :: (bytes ++ [c]) = (b :: bytes) ++ [c] := rfl
    have hpow : b.toNat * (256 ^ bytes.length * 256) = 256 * (b.toNat * 256 ^ bytes.length) := by
      rw [Nat.mul_comm (256 ^ bytes.length), Nat.mul_left_comm]
    rw [hcons, toNat_append_singleton, toNat_append_singleton, ih, List.length_append,
      List.length_singleton, pow_succ, hpow]
    omega

/-- Writing back at the same width what was read gives the bytes. -/
theorem ofNat_toNat (bytes : Bytes) : ofNat bytes.length (toNat bytes) = bytes := by
  induction bytes using List.reverseRecOn with
  | nil => rfl
  | append_singleton bytes b ih =>
    have hb : b.toNat < 256 := b.toNat_lt
    have hhigh : (256 * toNat bytes + b.toNat) / 256 = toNat bytes := by omega
    have hlow : UInt8.ofNat (256 * toNat bytes + b.toNat) = b := by
      apply UInt8.toNat_inj.mp
      rw [UInt8.toNat_ofNat']
      omega
    rw [toNat_append_singleton, List.length_append, List.length_singleton, ofNat_succ, hhigh, ih,
      hlow]

@[simp] theorem minimal_zero : minimal 0 = [] := rfl

/-- A number takes as many bytes as it needs. -/
theorem length_minimal_le_iff (n width : Nat) : (minimal n).length ≤ width ↔ n < 256 ^ width := by
  by_cases hn : n = 0
  · subst hn
    simp
  · have hpow : 256 ^ width = 2 ^ (8 * width) := (Nat.pow_mul 2 8 width).symm
    have hlog : Nat.log2 n < 8 * width ↔ n < 2 ^ (8 * width) := Nat.log2_lt hn
    rw [minimal, if_neg hn, length_ofNat, hpow, ← hlog]
    omega

theorem length_minimal_pos {n : Nat} (hn : 0 < n) : 0 < (minimal n).length := by
  have h := (length_minimal_le_iff n 0).mp
  rw [pow_zero] at h
  omega

/-- A number is written in its minimal width. -/
theorem minimal_eq_ofNat (n : Nat) : minimal n = ofNat (minimal n).length n := by
  by_cases hn : n = 0
  · subst hn
    rfl
  · rw [minimal, if_neg hn, length_ofNat]

theorem toNat_minimal (n : Nat) : toNat (minimal n) = n := by
  have hlt : n < 256 ^ (minimal n).length := (length_minimal_le_iff n _).mp (Nat.le_refl _)
  rw [minimal_eq_ofNat, toNat_ofNat, Nat.mod_eq_of_lt hlt]

/-- No number is written with a zero in front. -/
theorem minimal_ne_zero_cons (n : Nat) (rest : Bytes) : minimal n ≠ 0 :: rest := by
  intro h
  have hn : n = toNat rest := by
    have hcons := toNat_cons 0 rest
    rw [← h, toNat_minimal] at hcons
    simpa using hcons
  have hle : (minimal n).length ≤ rest.length :=
    (length_minimal_le_iff n _).mpr (hn ▸ toNat_lt rest)
  rw [h, List.length_cons] at hle
  omega

/-- Bytes without a zero in front are how their number is written. -/
theorem minimal_toNat {first : UInt8} (hfirst : first ≠ 0) (rest : Bytes) :
    minimal (toNat (first :: rest)) = first :: rest := by
  have hpos : 0 < first.toNat := by
    have hne : first.toNat ≠ 0 := fun h => hfirst (UInt8.toNat_inj.mp h)
    omega
  have hlow : 256 ^ rest.length ≤ toNat (first :: rest) := by
    have hmul := Nat.le_mul_of_pos_left (256 ^ rest.length) hpos
    rw [toNat_cons]
    omega
  have hle := (length_minimal_le_iff _ _).mpr (toNat_lt (first :: rest))
  have hgt := mt (length_minimal_le_iff _ _).mp (Nat.not_lt.mpr hlow)
  have hlength : (minimal (toNat (first :: rest))).length = (first :: rest).length := by
    rw [List.length_cons] at hle ⊢
    omega
  rw [minimal_eq_ofNat, hlength, ofNat_toNat]

/-- A larger number takes no fewer bytes. -/
theorem length_minimal_mono {m n : Nat} (h : m ≤ n) :
    (minimal m).length ≤ (minimal n).length :=
  (length_minimal_le_iff m _).mpr
    (Nat.lt_of_le_of_lt h ((length_minimal_le_iff n _).mp (Nat.le_refl _)))

end MutationGuard.Bytes
