import MutationGuard.Bytes.Lemmas
import MutationGuard.Word

/-!
Sums and differences of words as numbers, and words, keys and addresses written as bytes and read back.
Each has a fixed width, and bytes of that width and values stand for each other one to one.
-/

namespace MutationGuard

theorem Word.toNat_of_sub?_eq_some {a b c : Word} (h : a.sub? b = some c) :
    c.toNat + b.toNat = a.toNat := by
  unfold sub? at h
  split at h
  · cases h
    have hsub := BitVec.toNat_sub_of_le (x := a) (y := b) (by assumption)
    omega
  · cases h

theorem Word.lt_of_sub?_eq_none {a b : Word} (h : a.sub? b = none) : a.toNat < b.toNat := by
  unfold sub? at h
  split at h
  · cases h
  · omega

theorem Word.toNat_of_add?_eq_some {a b c : Word} (h : a.add? b = some c) :
    c.toNat = a.toNat + b.toNat := by
  unfold add? at h
  split at h
  · cases h
  · cases h
    have hfits : ¬ a.toNat + b.toNat ≥ 2 ^ 256 := fun hge =>
      absurd (decide_eq_true hge) (by assumption)
    rw [BitVec.toNat_add, Nat.mod_eq_of_lt (by omega)]

theorem Word.ofBytes_toBytes (w : Word) : ofBytes w.toBytes = w := by
  rw [ofBytes, toBytes, Bytes.toNat_ofNat]
  apply BitVec.eq_of_toNat_eq
  have hlt : w.toNat < 256 ^ 32 := w.isLt
  rw [BitVec.toNat_ofNat, Nat.mod_eq_of_lt hlt, Nat.mod_eq_of_lt w.isLt]

theorem Word.toBytes_ofBytes {bytes : Bytes} (hlength : bytes.length = 32) :
    (ofBytes bytes).toBytes = bytes := by
  have hlt : Bytes.toNat bytes < 2 ^ 256 := by
    have hwidth := Bytes.toNat_lt bytes
    rw [hlength] at hwidth
    exact hwidth
  rw [ofBytes, toBytes, BitVec.toNat_ofNat, Nat.mod_eq_of_lt hlt, ← hlength, Bytes.ofNat_toNat]

theorem Key.ofBytes_toBytes (k : Key) : ofBytes k.toBytes = k :=
  congrArg Key.mk (Word.ofBytes_toBytes k.word)

theorem Key.toBytes_ofBytes {bytes : Bytes} (hlength : bytes.length = 32) :
    (ofBytes bytes).toBytes = bytes :=
  Word.toBytes_ofBytes hlength

theorem Key.length_toBytes (k : Key) : k.toBytes.length = 32 := Bytes.length_ofNat ..

theorem Address.ofBytes_toBytes (a : Address) : ofBytes a.toBytes = a := by
  have hlt : a.bits.toNat < 256 ^ 20 := a.bits.isLt
  rw [ofBytes, toBytes, Bytes.toNat_ofNat, Nat.mod_eq_of_lt hlt, BitVec.ofNat_toNat,
    BitVec.setWidth_eq]

theorem Address.toBytes_ofBytes {bytes : Bytes} (hlength : bytes.length = 20) :
    (ofBytes bytes).toBytes = bytes := by
  have hlt : Bytes.toNat bytes < 2 ^ 160 := by
    have hwidth := Bytes.toNat_lt bytes
    rw [hlength] at hwidth
    exact hwidth
  rw [ofBytes, toBytes, BitVec.toNat_ofNat, Nat.mod_eq_of_lt hlt, ← hlength, Bytes.ofNat_toNat]

theorem Address.length_toBytes (a : Address) : a.toBytes.length = 20 := Bytes.length_ofNat ..

end MutationGuard
