import Mathlib.Data.List.Induction
import MutationGuard.Proofs.MemoryRange
import MutationGuard.Word.Lemmas

/-!
Memory as it is used: grown, stored to and read, in any order, and what it answers by what was asked of it
before. Nothing but the history counts: how long memory is, is settled by the largest growth, and what a
byte is, by the last store that covered it. Main statement: `Memory.reads_last_stored`.
-/

namespace MutationGuard.Memory

/-- What can be asked of a memory. -/
inductive Request where
  | growTo (words : Nat)
  | store (offset : Nat) (data : Bytes)
  | slice (offset length : Nat)
  | load (offset : Nat)
  | wordsRequired (offset length : Nat)

/-- What a memory answers when it does not fail. -/
inductive Answer where
  | done
  | bytes (bytes : Bytes)
  | word (w : Word)
  | words (n : Nat)

/-- The answer of a memory, and the memory after it. -/
def answer (m : Memory) : Request → Except MemoryError Answer × Memory
  | .growTo words => (.ok .done, m.growTo words)
  | .store offset data =>
    match store offset data m with
    | .ok () m' => (.ok .done, m')
    | .error e m' => (.error e, m')
  | .slice offset length => (.bytes <$> m.slice offset length, m)
  | .load offset => (.word <$> m.load offset, m)
  | .wordsRequired offset length => (.words <$> m.wordsRequired offset length, m)

/-- A memory in use. -/
structure Session where
  memory : Memory := {}
  /-- What was asked of it and what it answered, first to last. -/
  history : List (Request × Except MemoryError Answer) := []

namespace Session

/-- The session after one request. -/
def step (s : Session) (request : Request) : Session :=
  let (answer, memory) := s.memory.answer request
  ⟨memory, s.history ++ [(request, answer)]⟩

/-- The session after requests, made in order. -/
def run (requests : List Request) : Session := requests.foldl step {}

theorem run_append_singleton (requests : List Request) (request : Request) :
    run (requests ++ [request]) = (run requests).step request := by
  rw [run, List.foldl_append]
  rfl

end Session

/-! ## What counts of the history -/

/-- The number of words that a request grows memory to. -/
def Request.words : Request → Nat
  | .growTo words => words
  | _ => 0

/-- The largest number of words that memory was grown to. -/
def grownTo (requests : List Request) : Nat := (requests.map Request.words).foldl max 0

/-- The byte that a request stored at a place, if it did. -/
def stored? (place : Nat) : Request × Except MemoryError Answer → Option UInt8
  | (.store offset data, .ok _) => if offset ≤ place then data[place - offset]? else none
  | _ => none

/-- The byte of the last store that covered a place; zero if none did. -/
def lastStored (history : List (Request × Except MemoryError Answer)) (place : Nat) : UInt8 :=
  (history.filterMap (stored? place)).getLast?.getD 0

theorem grownTo_append_singleton (requests : List Request) (request : Request) :
    grownTo (requests ++ [request]) = max (grownTo requests) request.words := by
  simp [grownTo]

theorem lastStored_append_singleton (history : List (Request × Except MemoryError Answer))
    (event : Request × Except MemoryError Answer) (place : Nat) :
    lastStored (history ++ [event]) place = (stored? place event).getD (lastStored history place) := by
  rw [lastStored, List.filterMap_append, List.getLast?_append]
  cases h : stored? place event <;> simp [h, lastStored]

/-! ## One request -/

theorem store_of_le {m : Memory} {offset : Nat} {data : Bytes}
    (h : offset + data.length ≤ m.bytes.size) :
    store offset data m = .ok () ⟨write m.bytes offset data⟩ := if_pos h

theorem store_of_lt {m : Memory} {offset : Nat} {data : Bytes}
    (h : m.bytes.size < offset + data.length) :
    store offset data m = .error .indexOutOfBounds m := if_neg (Nat.not_le.mpr h)

/-- Memory is as long as it was, or as it was asked to be. -/
theorem size_answer (m : Memory) (request : Request) :
    (m.answer request).2.bytes.size = max m.bytes.size (32 * request.words) := by
  cases request with
  | growTo words => exact size_growTo m words
  | store offset data =>
    show _ = max m.bytes.size (32 * 0)
    rw [answer]
    rcases Nat.lt_or_ge m.bytes.size (offset + data.length) with hout | hin
    · rw [store_of_lt hout]
      simp
    · rw [store_of_le hin]
      simp
  | _ => simp [answer, Request.words]

/-- The byte at a place, zero past the end. -/
def byteAt (m : Memory) (place : Nat) : UInt8 := m.bytes[place]?.getD 0

theorem byteAt_growTo (m : Memory) (words place : Nat) :
    (m.growTo words).byteAt place = m.byteAt place := by
  rw [byteAt, byteAt, getElem?_growTo]
  by_cases hold : place < m.bytes.size
  · rw [if_pos hold]
  · rw [if_neg hold, Array.getElem?_eq_none (Nat.not_lt.mp hold)]
    split <;> rfl

/-- A byte is what was stored there last, if anything was, and otherwise what it was before. -/
theorem byteAt_answer (m : Memory) (request : Request) (place : Nat) :
    (m.answer request).2.byteAt place =
      (stored? place (request, (m.answer request).1)).getD (m.byteAt place) := by
  cases request with
  | growTo words => exact byteAt_growTo m words place
  | store offset data =>
    rw [answer]
    rcases Nat.lt_or_ge m.bytes.size (offset + data.length) with hout | hin
    · rw [store_of_lt hout]
      rfl
    · rw [store_of_le hin]
      show (write m.bytes offset data)[place]?.getD 0 =
        (if offset ≤ place then data[place - offset]? else none).getD (m.byteAt place)
      rw [getElem?_write]
      by_cases hcovered : offset ≤ place ∧ place < offset + data.length
      · have hlt : place - offset < data.length := by omega
        rw [if_pos ⟨hcovered.1, hcovered.2, by omega⟩, if_pos hcovered.1,
          List.getElem?_eq_getElem hlt]
        rfl
      · rw [if_neg fun h => hcovered ⟨h.1, h.2.1⟩]
        by_cases hle : offset ≤ place
        · rw [if_pos hle, List.getElem?_eq_none (by omega)]
          rfl
        · rw [if_neg hle]
          rfl
  | _ => rfl

/-! ## Any requests -/

theorem size_run (requests : List Request) :
    (Session.run requests).memory.bytes.size = 32 * grownTo requests := by
  induction requests using List.reverseRecOn with
  | nil => rfl
  | append_singleton requests request ih =>
    rw [Session.run_append_singleton, grownTo_append_singleton]
    have hsize := size_answer (Session.run requests).memory request
    show ((Session.run requests).memory.answer request).2.bytes.size = _
    omega

theorem byteAt_run (requests : List Request) (place : Nat) :
    (Session.run requests).memory.byteAt place = lastStored (Session.run requests).history place := by
  induction requests using List.reverseRecOn with
  | nil => rfl
  | append_singleton requests request ih =>
    rw [Session.run_append_singleton]
    show ((Session.run requests).memory.answer request).2.byteAt place =
      lastStored ((Session.run requests).history ++
        [(request, ((Session.run requests).memory.answer request).1)]) place
    rw [byteAt_answer, lastStored_append_singleton, ih]

/-- What was just stored is read back. -/
theorem slice_of_store {m m' : Memory} {offset : Nat} {data : Bytes}
    (h : store offset data m = .ok () m') : m'.slice offset data.length = .ok data := by
  rcases Nat.lt_or_ge m.bytes.size (offset + data.length) with hout | hin
  · rw [store_of_lt hout] at h
    cases h
  rw [store_of_le hin] at h
  obtain ⟨-, rfl⟩ := EStateM.Result.ok.inj h
  have hrange : offset + data.length ≤ (write m.bytes offset data).size := by rwa [size_write]
  obtain ⟨bytes, hslice, hreads⟩ := slice_of_le (m := ⟨write m.bytes offset data⟩) hrange
  have hbytes : bytes = data := by
    apply List.ext_getElem?
    intro i
    by_cases hi : i < data.length
    · rw [hreads.get i hi]
      show (write m.bytes offset data)[offset + i]? = _
      rw [getElem?_write, if_pos (by omega), Nat.add_sub_cancel_left]
    · have hlength := hreads.length_eq
      rw [List.getElem?_eq_none (by omega), List.getElem?_eq_none (by omega)]
  rw [hslice, hbytes]

theorem load_of_store {m m' : Memory} {offset : Nat} {w : Word}
    (h : store offset w.toBytes m = .ok () m') : m'.load offset = .ok w := by
  have hlength : w.toBytes.length = 32 := Bytes.length_ofNat ..
  have hslice := slice_of_store h
  rw [hlength] at hslice
  rw [load, hslice]
  exact congrArg Except.ok (Word.ofBytes_toBytes w)

/-- After any requests, made of a memory that was empty, memory is as long as the largest growth. A store
succeeds when its range lies in memory, and otherwise changes nothing. A range in memory is read, and each
byte of it is the one of the last store that succeeded and covered it, or zero; a range that does not lie
in memory is not read, nor is a word. A word is loaded as it was just stored. -/
theorem reads_last_stored (requests : List Request) :
    let s := Session.run requests
    let m := s.memory
    m.bytes.size = 32 * grownTo requests ∧
    (∀ offset data,
      ((∃ m', store offset data m = .ok () m') ↔ offset + data.length ≤ m.bytes.size) ∧
      (m.bytes.size < offset + data.length → store offset data m = .error .indexOutOfBounds m)) ∧
    (∀ offset length,
      (offset + length ≤ m.bytes.size →
        ∃ bytes, m.slice offset length = .ok bytes ∧ bytes.length = length ∧
          ∀ j < length, bytes[j]? = some (lastStored s.history (offset + j))) ∧
      (m.bytes.size < offset + length → m.slice offset length = .error .indexOutOfBounds)) ∧
    ∀ offset,
      (offset + 32 ≤ m.bytes.size →
        ∃ bytes, m.slice offset 32 = .ok bytes ∧ m.load offset = .ok (Word.ofBytes bytes)) ∧
      (m.bytes.size < offset + 32 → m.load offset = .error .indexOutOfBounds) ∧
      ∀ (w : Word) m', store offset w.toBytes m = .ok () m' → m'.load offset = .ok w := by
  intro s m
  refine ⟨size_run requests, fun offset data => ⟨⟨?_, fun hin => ⟨_, store_of_le hin⟩⟩, store_of_lt⟩,
    fun offset length => ⟨fun hin => ?_, slice_of_lt⟩, fun offset => ⟨fun hin => ?_, fun hout => ?_,
      fun w m' => load_of_store⟩⟩
  · rintro ⟨m', hstore⟩
    by_contra hout
    rw [store_of_lt (Nat.not_le.mp hout)] at hstore
    cases hstore
  · obtain ⟨bytes, hslice, hreads⟩ := slice_of_le hin
    refine ⟨bytes, hslice, hreads.length_eq, fun j hj => ?_⟩
    have hplace : offset + j < m.bytes.size := by omega
    rw [hreads.get j hj, ← byteAt_run, byteAt, Array.getElem?_eq_getElem hplace]
    rfl
  · obtain ⟨bytes, hslice, -⟩ := slice_of_le hin
    exact ⟨bytes, hslice, by rw [load, hslice]; rfl⟩
  · rw [load, slice_of_lt hout]
    rfl

/-- Three bytes over the end of the first word, the middle one stored again, a store past the end, and more
memory. -/
theorem reads_last_stored_overlap :
    let s := Session.run
      [.growTo 2, .store 30 [1, 2, 3], .store 31 [9], .store 63 [5, 5], .growTo 3, .growTo 1]
    let m := s.memory
    m.bytes.size = 96 ∧
      (List.range 5).map (fun j => lastStored s.history (29 + j)) = [0, 1, 9, 3, 0] ∧
      (∃ bytes, m.slice 29 5 = .ok bytes ∧ bytes.length = 5 ∧
        ∀ j < 5, bytes[j]? = some (lastStored s.history (29 + j))) ∧
      store 95 [5, 5] m = .error .indexOutOfBounds m ∧ m.slice 95 2 = .error .indexOutOfBounds ∧
      m.load 65 = .error .indexOutOfBounds ∧
      ∃ m', store 33 (Word.toBytes 7) m = .ok () m' ∧ m'.load 33 = .ok 7 := by
  intro s m
  obtain ⟨hsize, hstore, hslice, hload⟩ := reads_last_stored
    [.growTo 2, .store 30 [1, 2, 3], .store 31 [9], .store 63 [5, 5], .growTo 3, .growTo 1]
  have hbytes : m.bytes.size = 96 := hsize
  obtain ⟨m', hm'⟩ := (hstore 33 (Word.toBytes 7)).1.mpr (show 33 + 32 ≤ m.bytes.size by omega)
  refine ⟨hbytes, by decide +kernel, (hslice 29 5).1 (show 29 + 5 ≤ m.bytes.size by omega),
    (hstore 95 [5, 5]).2 (show m.bytes.size < 95 + 2 by omega),
    (hslice 95 2).2 (show m.bytes.size < 95 + 2 by omega),
    (hload 65).2.1 (show m.bytes.size < 65 + 32 by omega), m', hm', (hload 33).2.2 7 m' hm'⟩

end MutationGuard.Memory
