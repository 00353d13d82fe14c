import MutationGuard.Word

/-!
The memory of a frame: bytes that are zero until written. Memory only grows, in whole words of
thirty-two bytes; reading and writing never grow it.
-/

namespace MutationGuard

/-- Why a memory operation fails. -/
inductive MemoryError where
  /-- Memory would grow beyond its size limit. -/
  | overflow
  /-- The bytes are not all in memory. -/
  | indexOutOfBounds
  deriving DecidableEq, Repr

/-- The text of a memory error. -/
def MemoryError.message : MemoryError → String
  | .overflow => "memory exceeded its size limit"
  | .indexOutOfBounds => "index out of bounds"

/-- The memory of a frame. -/
structure Memory where
  bytes : Array UInt8 := #[]
  deriving DecidableEq

namespace Memory

/-- The largest number of bytes in memory. -/
def sizeLimit : Nat := 1024 * 1024

/-- The size of memory in words. -/
def words (m : Memory) : Nat := m.bytes.size / 32

/-- The number of words that memory has to have for the range to lie in it. An empty range needs no
growth. -/
def wordsRequired (m : Memory) (offset length : Nat) : Except MemoryError Nat :=
  if length = 0 then .ok m.words
  else if sizeLimit < offset + length then .error .overflow
  else .ok (max m.words ((offset + length + 31) / 32))

/-- Grows memory to a number of words, if it has fewer. -/
def growTo (words : Nat) : Memory → Memory
  | ⟨bytes⟩ => ⟨bytes ++ Array.replicate (32 * words - bytes.size) 0⟩

/-- The bytes of a range. -/
def slice (m : Memory) (offset length : Nat) : Except MemoryError Bytes :=
  if offset + length ≤ m.bytes.size then
    .ok (m.bytes.extract offset (offset + length)).toList
  else .error .indexOutOfBounds

/-- The word that starts at an offset. -/
def load (m : Memory) (offset : Nat) : Except MemoryError Word :=
  Word.ofBytes <$> m.slice offset 32

/-- Writes bytes over those from `offset` on. -/
def write (bytes : Array UInt8) (offset : Nat) : Bytes → Array UInt8
  | [] => bytes
  | b :: rest => write (bytes.setIfInBounds offset b) (offset + 1) rest

/-- Stores bytes at an offset, all of them or none. -/
def store (offset : Nat) (data : Bytes) : EStateM MemoryError Memory Unit
  | ⟨bytes⟩ =>
    if offset + data.length ≤ bytes.size then .ok () ⟨write bytes offset data⟩
    else .error .indexOutOfBounds ⟨bytes⟩

/-- Whole words only. -/
def Aligned (m : Memory) : Prop := m.bytes.size % 32 = 0

@[simp] theorem size_write (bytes : Array UInt8) (offset : Nat) (data : Bytes) :
    (write bytes offset data).size = bytes.size := by
  induction data generalizing bytes offset with
  | nil => rfl
  | cons b rest ih => simp [write, ih]

theorem size_growTo (m : Memory) (words : Nat) :
    (m.growTo words).bytes.size = max m.bytes.size (32 * words) := by
  cases m
  simp only [growTo, Array.size_append, Array.size_replicate]
  omega

/-- Memory only grows. -/
theorem words_le_of_wordsRequired {m : Memory} {offset length words : Nat}
    (h : m.wordsRequired offset length = .ok words) : m.words ≤ words := by
  unfold wordsRequired at h
  split at h
  · cases h
    exact Nat.le_refl _
  · split at h
    · cases h
    · cases h
      exact Nat.le_max_left ..

/-- Memory that is grown has as many words as it was grown to. -/
theorem words_growTo {m : Memory} {words : Nat} (h : m.words ≤ words) :
    (m.growTo words).words = words := by
  have hsize := size_growTo m words
  unfold Memory.words at h ⊢
  omega

/-- The bytes after a write are the written ones inside the range, and the old ones outside. -/
theorem getElem?_write (bytes : Array UInt8) (offset : Nat) (data : Bytes) (i : Nat) :
    (write bytes offset data)[i]? =
      if offset ≤ i ∧ i < offset + data.length ∧ i < bytes.size then data[i - offset]?
      else bytes[i]? := by
  induction data generalizing bytes offset with
  | nil =>
    have : ¬ (offset ≤ i ∧ i < offset + 0 ∧ i < bytes.size) := by omega
    simp [write]
    omega
  | cons b rest ih =>
    rw [write, ih, Array.size_setIfInBounds]
    rcases Nat.lt_trichotomy i offset with hlt | heq | hgt
    · rw [if_neg (by omega), if_neg (by omega), Array.getElem?_setIfInBounds_ne (by omega)]
    · subst heq
      rw [if_neg (by omega), Array.getElem?_setIfInBounds_self]
      by_cases hin : i < bytes.size
      · rw [if_pos hin, if_pos ⟨Nat.le_refl _, by simp, hin⟩, Nat.sub_self]
        rfl
      · rw [if_neg hin, if_neg (by omega), Array.getElem?_eq_none (by omega)]
    · have hsub : i - offset = (i - (offset + 1)) + 1 := by omega
      rw [Array.getElem?_setIfInBounds_ne (by omega), hsub, List.getElem?_cons_succ,
        List.length_cons]
      by_cases hin : i < offset + (rest.length + 1) ∧ i < bytes.size
      · rw [if_pos (by omega), if_pos (by omega)]
      · rw [if_neg (by omega), if_neg (by omega)]

end Memory
end MutationGuard
