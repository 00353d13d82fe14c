/-!
Byte strings and the numbers they spell. Numbers are written most significant byte first; `ofNat`
fixes the width and keeps the low bytes, `toNat` reads any width back. `Bytes.groups` cuts a string
into the runs that fill one machine word each.
-/

namespace MutationGuard

/-- A string of bytes. -/
abbrev Bytes := List UInt8

namespace Bytes

/-- The number that the bytes spell, most significant byte first. -/
def toNat (bytes : Bytes) : Nat :=
  bytes.foldl (fun n b => 256 * n + b.toNat) 0

/-- The low `width` bytes of `n` in front of `rest`. -/
def ofNatOnto : (width n : Nat) → (rest : Bytes) → Bytes
  | 0, _, rest => rest
  | width + 1, n, rest => ofNatOnto width (n / 256) (UInt8.ofNat n :: rest)

/-- The low `width` bytes of `n`, most significant byte first. -/
def ofNat (width n : Nat) : Bytes :=
  ofNatOnto width n []

/-- The bytes of `n` without leading zeroes; none for zero. -/
def minimal (n : Nat) : Bytes :=
  if n = 0 then [] else ofNat (Nat.log2 n / 8 + 1) n

/-- The bytes cut into runs of `size`, the last of which may be shorter. -/
def groups (size : Nat) (bytes : Bytes) : List Bytes :=
  let whole := bytes.toArray
  (List.range ((whole.size + size - 1) / size)).map fun i =>
    (whole.extract (i * size) ((i + 1) * size)).toList

theorem length_ofNatOnto (width n : Nat) (rest : Bytes) :
    (ofNatOnto width n rest).length = width + rest.length := by
  induction width generalizing n rest with
  | zero => simp [ofNatOnto]
  | succ width ih => simp [ofNatOnto, ih]; omega

@[simp] theorem length_ofNat (width n : Nat) : (ofNat width n).length = width := by
  simp [ofNat, length_ofNatOnto]

theorem ofNatOnto_eq_append (width n : Nat) (rest : Bytes) :
    ofNatOnto width n rest = ofNat width n ++ rest := by
  induction width generalizing n rest with
  | zero => simp [ofNatOnto, ofNat]
  | succ width ih => rw [ofNat, ofNatOnto, ofNatOnto, ih, ih _ [_]]; simp

/-- One more byte of width puts the low byte last. -/
theorem ofNat_succ (width n : Nat) :
    ofNat (width + 1) n = ofNat width (n / 256) ++ [UInt8.ofNat n] := by
  rw [ofNat, ofNatOnto, ofNatOnto_eq_append]

@[simp] theorem ofNat_zero (n : Nat) : ofNat 0 n = [] := rfl

@[simp] theorem toNat_nil : toNat [] = 0 := rfl

theorem toNat_append_singleton (bytes : Bytes) (b : UInt8) :
    toNat (bytes ++ [b]) = 256 * toNat bytes + b.toNat := by
  simp [toNat]

end Bytes
end MutationGuard
