import MutationGuard.Proofs.Calls
import MutationGuard.Scenario.Sample

/-!
Ranges of memory, grown for and then read. Growing works out how many words a range needs, reading
compares the end of the range with the size of memory, and neither looks at what the other did. They agree
on every range that is not empty (`Memory.add_le_size_growTo_iff`). An empty range needs no words wherever
it starts, and can be read only up to the end of memory. Main statement: `readable_iff`, on growing and
reading, and on taking a range off the stack; what it excepts does fail, `empty_range_past_end`.
-/

namespace MutationGuard

variable {σ : Type}

namespace Memory

/-- Memory after it has grown: what was stored is still there, and what is new is zero. -/
structure Grown (m m' : Memory) : Prop where
  size_le : m.bytes.size ≤ m'.bytes.size
  kept : ∀ i < m.bytes.size, m'.bytes[i]? = m.bytes[i]?
  zero : ∀ i < m'.bytes.size, m.bytes.size ≤ i → m'.bytes[i]? = some 0

/-- The bytes of a range: as many as the range is long, each the one at its place in memory. -/
structure Reads (m : Memory) (offset length : Nat) (bytes : Bytes) : Prop where
  length_eq : bytes.length = length
  get : ∀ i < length, bytes[i]? = m.bytes[offset + i]?

variable {m : Memory} {offset length words : Nat}

theorem getElem?_growTo (m : Memory) (words i : Nat) :
    (m.growTo words).bytes[i]? =
      if i < m.bytes.size then m.bytes[i]? else if i < 32 * words then some 0 else none := by
  obtain ⟨bytes⟩ := m
  simp only [growTo, Array.getElem?_append, Array.getElem?_replicate]
  by_cases hold : i < bytes.size
  · rw [if_pos hold, if_pos hold]
  · have hnew : i - bytes.size < 32 * words - bytes.size ↔ i < 32 * words := by omega
    simp only [if_neg hold, hnew]

theorem grown_growTo (m : Memory) (words : Nat) : m.Grown (m.growTo words) where
  size_le := by
    rw [size_growTo]
    exact Nat.le_max_left ..
  kept i hi := by rw [getElem?_growTo, if_pos hi]
  zero i hi hnew := by
    rw [size_growTo] at hi
    rw [getElem?_growTo, if_neg (Nat.not_lt.mpr hnew), if_pos (by omega)]

/-- Growing to the words that are there does nothing. -/
theorem growTo_words (m : Memory) : m.growTo m.words = m := by
  obtain ⟨bytes⟩ := m
  have hnone : 32 * (bytes.size / 32) - bytes.size = 0 := by omega
  simp [growTo, words, hnone]

theorem wordsRequired_zero (m : Memory) (offset : Nat) : m.wordsRequired offset 0 = .ok m.words := rfl

theorem wordsRequired_of_le (hlength : length ≠ 0) (hlimit : offset + length ≤ sizeLimit) :
    m.wordsRequired offset length = .ok (max m.words ((offset + length + 31) / 32)) := by
  rw [wordsRequired, if_neg hlength, if_neg (Nat.not_lt.mpr hlimit)]

/-- Once memory has the words that a range requires, the range lies in it, unless it is empty and starts
past the end. -/
theorem add_le_size_growTo_iff (h : m.wordsRequired offset length = .ok words) :
    offset + length ≤ (m.growTo words).bytes.size ↔ (length = 0 → offset ≤ m.bytes.size) := by
  by_cases hlength : length = 0
  · subst hlength
    cases h
    rw [growTo_words, Nat.add_zero]
    exact ⟨fun hle _ => hle, fun hle => hle rfl⟩
  · rw [wordsRequired, if_neg hlength] at h
    split at h
    · cases h
    · cases h
      have hsize := size_growTo m (max m.words ((offset + length + 31) / 32))
      refine ⟨fun _ h => absurd h hlength, fun _ => ?_⟩
      omega

theorem slice_of_le (h : offset + length ≤ m.bytes.size) :
    ∃ bytes, m.slice offset length = .ok bytes ∧ m.Reads offset length bytes := by
  refine ⟨_, if_pos h, ?_, fun i hi => ?_⟩
  · rw [Array.length_toList, Array.size_extract]
    omega
  · rw [Array.getElem?_toList, Array.getElem?_extract, if_pos (by omega)]

theorem slice_of_lt (h : m.bytes.size < offset + length) :
    m.slice offset length = .error .indexOutOfBounds := if_neg (Nat.not_le.mpr h)

theorem le_of_slice {bytes : Bytes} (h : m.slice offset length = .ok bytes) :
    offset + length ≤ m.bytes.size := by
  rcases Nat.lt_or_ge m.bytes.size (offset + length) with hout | hin
  · rw [slice_of_lt hout] at h
    cases h
  · exact hin

/-- The bytes that are read of a range. -/
theorem reads_of_slice {bytes : Bytes} (h : m.slice offset length = .ok bytes) :
    m.Reads offset length bytes := by
  obtain ⟨found, hslice, hreads⟩ := slice_of_le (le_of_slice h)
  cases h.symm.trans hslice
  exact hreads

namespace Reads

variable {m' : Memory} {bytes bytes' : Bytes}

theorem unique (h : m.Reads offset length bytes) (h' : m.Reads offset length bytes') :
    bytes' = bytes := by
  apply List.ext_getElem?
  intro i
  by_cases hi : i < length
  · rw [h'.get i hi, h.get i hi]
  · rw [List.getElem?_eq_none (by rw [h'.length_eq]; omega),
      List.getElem?_eq_none (by rw [h.length_eq]; omega)]

theorem congr (h : m.Reads offset length bytes)
    (hsame : ∀ i < length, m'.bytes[offset + i]? = m.bytes[offset + i]?) :
    m'.Reads offset length bytes :=
  ⟨h.length_eq, fun i hi => (h.get i hi).trans (hsame i hi).symm⟩

/-- The bytes of a range lie in memory. -/
theorem lt_size (h : m.Reads offset length bytes) {i : Nat} (hi : i < length) :
    offset + i < m.bytes.size := by
  refine Nat.lt_of_not_le fun hout => ?_
  have hget := h.get i hi
  rw [Array.getElem?_eq_none hout, List.getElem?_eq_none_iff, h.length_eq] at hget
  omega

/-- What is read stays where memory grows. -/
theorem grown (h : m.Reads offset length bytes) (hgrown : m.Grown m') : m'.Reads offset length bytes :=
  h.congr fun _ hi => hgrown.kept _ (h.lt_size hi)

theorem take (h : m.Reads offset length bytes) {k : Nat} (hk : k ≤ length) :
    m.Reads offset k (bytes.take k) where
  length_eq := by
    rw [List.length_take, h.length_eq]
    omega
  get i hi := by rw [List.getElem?_take, if_pos hi, h.get i (by omega)]

end Reads

theorem slice_of_reads {bytes : Bytes} (h : m.Reads offset length bytes)
    (hle : offset + length ≤ m.bytes.size) : m.slice offset length = .ok bytes := by
  obtain ⟨found, hslice, hreads⟩ := slice_of_le hle
  rw [hslice, h.unique hreads]

/-- A range is read alike of memories of one size with the same bytes there. -/
theorem slice_congr {m' : Memory} (hsize : m'.bytes.size = m.bytes.size)
    (hsame : ∀ i < length, m'.bytes[offset + i]? = m.bytes[offset + i]?) :
    m'.slice offset length = m.slice offset length := by
  rcases Nat.lt_or_ge m.bytes.size (offset + length) with hout | hin
  · rw [slice_of_lt hout, slice_of_lt (hsize ▸ hout)]
  · obtain ⟨bytes, hslice, hreads⟩ := slice_of_le hin
    rw [hslice, slice_of_reads (hreads.congr hsame) (hsize ▸ hin)]

/-- How much memory a range requires is told by the size of memory. -/
theorem wordsRequired_congr {m' : Memory} (hsize : m'.bytes.size = m.bytes.size) (offset length : Nat) :
    m'.wordsRequired offset length = m.wordsRequired offset length := by
  unfold wordsRequired Memory.words
  rw [hsize]

/-- What memory has grown by is zero, and it is whole words if memory was. -/
theorem bytes_growTo (m : Memory) (words : Nat) :
    ∃ n, (m.growTo words).bytes = m.bytes ++ Array.replicate n 0 ∧
      (m.Aligned → n = 32 * (words - m.words)) := by
  refine ⟨32 * words - m.bytes.size, rfl, fun haligned => ?_⟩
  unfold Aligned at haligned
  unfold Memory.words
  omega

end Memory

/-- The two words on top of the stack are an offset and a length that fit their counters, memory may hold
the range, and there is gas to grow it. -/
structure Activation.Affords (prices : Pricing) (r : Activation σ) (offset length : Word)
    (rest : List Word) : Prop where
  stack : r.stack.words = length :: offset :: rest
  offset_le : offset.toNat ≤ counterMax
  length_le : length.toNat ≤ counterMax
  limit : length.toNat ≠ 0 → offset.toNat + length.toNat ≤ Memory.sizeLimit
  gas : ∀ words, r.memory.wordsRequired offset.toNat length.toNat = .ok words →
    r.gas.spent + r.growthCost prices words ≤ r.gas.limit

/-- For an empty range nothing is missing, wherever it starts. -/
theorem Activation.affords_empty (prices : Pricing) {r : Activation σ} {offset : Word}
    {rest : List Word} (hstack : r.stack.words = 0 :: offset :: rest)
    (hoffset : offset.toNat ≤ counterMax) (hgas : r.gas.Sound) : r.Affords prices offset 0 rest where
  stack := hstack
  offset_le := hoffset
  length_le := Nat.zero_le _
  limit := nofun
  gas words hwords := by
    have hsame : words = r.memory.words := (Except.ok.inj hwords).symm
    rw [hsame, growthCost, Nat.sub_self]
    exact hgas

namespace Exec

variable {prices : Pricing} {r s : Activation σ} {offset length : Nat}

theorem slice_eq (offset length : Nat) (r : Activation σ) :
    slice offset length r =
      match r.memory.slice offset length with
      | .ok bytes => .ok bytes r
      | .error e => .error (.memory e) r := by
  unfold slice
  rw [bind_get]
  cases r.memory.slice offset length <;> rfl

/-- Memory once it has grown, and when the range lies in it. -/
theorem memory_of_expand (h : expand prices offset length r = .ok () s) :
    r.memory.Grown s.memory ∧
      (offset + length ≤ s.memory.bytes.size ↔ (length = 0 → offset ≤ r.memory.bytes.size)) := by
  obtain ⟨words, meter, hw, -, rfl⟩ := expand_eq_ok_iff.mp h
  exact ⟨r.memory.grown_growTo words, Memory.add_le_size_growTo_iff hw⟩

/-- An empty range costs nothing and changes nothing, wherever it starts. -/
theorem expand_empty (prices : Pricing) (offset : Nat) (h : r.gas.Sound) :
    expand prices offset 0 r = .ok () r := by
  have hcharge : r.gas.charge (r.growthCost prices r.memory.words) = .ok r.gas := by
    rw [Activation.growthCost, Nat.sub_self]
    exact GasMeter.charge_eq_ok_iff.mpr ⟨h, rfl⟩
  refine expand_eq_ok_iff.mpr ⟨_, _, r.memory.wordsRequired_zero offset, hcharge, ?_⟩
  rw [Memory.growTo_words]

/-- A range that lies in memory is read, and any other refused. -/
theorem exists_slice_iff :
    (∃ bytes, slice offset length r = .ok bytes r ∧ r.memory.Reads offset length bytes) ↔
      offset + length ≤ r.memory.bytes.size := by
  rw [slice_eq]
  by_cases h : offset + length ≤ r.memory.bytes.size
  · obtain ⟨bytes, hslice, hreads⟩ := Memory.slice_of_le h
    rw [hslice]
    exact ⟨fun _ => h, fun _ => ⟨bytes, rfl, hreads⟩⟩
  · rw [Memory.slice_of_lt (Nat.not_le.mp h)]
    constructor
    · rintro ⟨_, hok, -⟩
      cases hok
    · exact fun hle => absurd hle h

theorem counter_of_le {w : Word} (h : w.toNat ≤ counterMax) : counter w r = .ok w.toNat r := by
  rw [counter, Word.toCounter?, if_pos h]
  rfl

/-- With all that it needs, a range is taken off the stack by growing memory and reading it. -/
theorem popRange_of_affords {offset length : Word} {rest : List Word}
    (h : r.Affords prices offset length rest) :
    ∃ s, expand prices offset.toNat length.toNat { r with stack := ⟨rest⟩ } = .ok () s ∧
      popRange prices r = slice offset.toNat length.toNat s := by
  have hpop : onStack Stack.pop2 r = .ok (offset, length) { r with stack := ⟨rest⟩ } := by
    obtain ⟨frame, pc, ⟨words⟩, memory, gas, program, txn⟩ := r
    obtain rfl : words = length :: offset :: rest := h.stack
    rfl
  obtain ⟨words, hwords⟩ : ∃ words, r.memory.wordsRequired offset.toNat length.toNat = .ok words := by
    by_cases hlength : length.toNat = 0
    · rw [hlength]
      exact ⟨_, Memory.wordsRequired_zero _ _⟩
    · exact ⟨_, Memory.wordsRequired_of_le hlength (h.limit hlength)⟩
  have hcharge := GasMeter.charge_eq_ok_iff.mpr ⟨h.gas words hwords, rfl⟩
  have hexpand : ∃ s, expand prices offset.toNat length.toNat { r with stack := ⟨rest⟩ } = .ok () s :=
    ⟨_, expand_eq_ok_iff.mpr ⟨words, _, hwords, hcharge, rfl⟩⟩
  obtain ⟨s, hexpand⟩ := hexpand
  refine ⟨s, hexpand, ?_⟩
  unfold popRange
  rw [bind_of_ok hpop]
  dsimp only
  rw [bind_of_ok (counter_of_le h.offset_le), bind_of_ok (counter_of_le h.length_le),
    bind_of_ok hexpand]

/-- An empty range past the end of memory is refused when it is taken off the stack, though nothing is
missing for it. -/
theorem popRange_empty_of_lt {offset : Word} {rest : List Word}
    (hstack : r.stack.words = 0 :: offset :: rest) (hoffset : offset.toNat ≤ counterMax)
    (hgas : r.gas.Sound) (hpast : r.memory.bytes.size < offset.toNat) :
    popRange prices r = .error (.memory .indexOutOfBounds) { r with stack := ⟨rest⟩ } := by
  obtain ⟨u, hexpand, hpop⟩ := popRange_of_affords (Activation.affords_empty prices hstack hoffset hgas)
  have hempty : expand prices offset.toNat 0 { r with stack := ⟨rest⟩ } =
      .ok () { r with stack := ⟨rest⟩ } := expand_empty prices _ hgas
  cases hexpand.symm.trans hempty
  rw [hpop, slice_eq, Memory.slice_of_lt]
  exact hpast

/-- Growing memory for a range keeps what is stored and adds zeroes, and it makes the range readable, all
of it, unless the range is empty and starts past the end of memory. An empty range needs no growth,
wherever it starts. So where there is all that a range on the stack needs, taking it gives its bytes,
with the same exception. -/
theorem readable_iff (prices : Pricing) (r : Activation σ) :
    (∀ offset length s, expand prices offset length r = .ok () s →
      r.memory.Grown s.memory ∧
      ((∃ bytes, slice offset length s = .ok bytes s ∧ s.memory.Reads offset length bytes) ↔
        (length = 0 → offset ≤ r.memory.bytes.size))) ∧
    (r.gas.Sound → ∀ offset, expand prices offset 0 r = .ok () r) ∧
    ∀ offset length rest, r.Affords prices offset length rest →
      ((∃ bytes s, popRange prices r = .ok bytes s ∧ r.memory.Grown s.memory ∧
          s.memory.Reads offset.toNat length.toNat bytes) ↔
        (length.toNat = 0 → offset.toNat ≤ r.memory.bytes.size)) := by
  refine ⟨fun offset length s h => ?_, fun h offset => expand_empty prices offset h,
    fun offset length rest h => ?_⟩
  · obtain ⟨hgrown, hrange⟩ := memory_of_expand h
    exact ⟨hgrown, exists_slice_iff.trans hrange⟩
  · obtain ⟨u, hexpand, hpop⟩ := popRange_of_affords h
    obtain ⟨hgrown, hrange⟩ := memory_of_expand hexpand
    rw [hpop]
    refine Iff.trans ⟨?_, ?_⟩ (exists_slice_iff.trans hrange)
    · rintro ⟨bytes, s, hslice, -, hreads⟩
      obtain rfl := eq_of_slice hslice
      exact ⟨bytes, hslice, hreads⟩
    · rintro ⟨bytes, hslice, hreads⟩
      exact ⟨bytes, u, hslice, hgrown, hreads⟩

/-- Two bytes over the end of the first word, in a frame that has no memory yet. -/
theorem readable_iff_two_words :
    let prices := ({} : GasSchedule).pricing
    let r : Activation Table :=
      { Activation.start (Sample.frame .unrestricted) [] 10 (Sample.withContracts []) with stack := ⟨[2, 31]⟩ }
    r.Affords prices 31 2 [] ∧ r.gas.Sound ∧
      (∃ bytes s, popRange prices r = .ok bytes s ∧ r.memory.Grown s.memory ∧
        s.memory.Reads 31 2 bytes) ∧
      ∃ s, expand prices 31 2 r = .ok () s ∧ r.memory.Grown s.memory ∧
        ∃ bytes, slice 31 2 s = .ok bytes s ∧ s.memory.Reads 31 2 bytes := by
  intro prices r
  have haffords : r.Affords prices 31 2 [] :=
    { stack := rfl
      offset_le := by decide
      length_le := by decide
      limit := by decide
      gas := by
        intro words hwords
        cases hwords
        decide }
  have hsound : r.gas.Sound := by decide
  obtain ⟨hexpand, -, htake⟩ := readable_iff prices r
  have hexpands : ∃ s, expand prices 31 2 r = .ok () s :=
    ⟨_, expand_eq_ok_iff.mpr ⟨_, _, Memory.wordsRequired_of_le (by decide) (by decide),
      GasMeter.charge_eq_ok_iff.mpr ⟨by decide, rfl⟩, rfl⟩⟩
  obtain ⟨s, hs⟩ := hexpands
  obtain ⟨hgrown, hreads⟩ := hexpand 31 2 s hs
  exact ⟨haffords, hsound, (htake 31 2 [] haffords).mpr nofun, s, hs, hgrown, hreads.mpr nofun⟩

/-- An empty range one byte past the end of memory is grown for and then refused, and a frame that returns
it is halted. -/
theorem empty_range_past_end :
    let prices := ({} : GasSchedule).pricing
    let r : Activation Table :=
      { Activation.start (Sample.frame .unrestricted) [] 10 (Sample.withContracts []) with
        stack := ⟨[0, 1]⟩ }
    expand prices 1 0 r = .ok () r ∧ slice 1 0 r = .error (.memory .indexOutOfBounds) r ∧
      popRange prices r = .error (.memory .indexOutOfBounds) { r with stack := ⟨[]⟩ } ∧
      (Sample.execute [(Sample.guarded, [.push 1, .push 0, .ret])]).ok?.map (·.1.status) =
        some .halted := by
  intro prices r
  have hslice : slice 1 0 r = .error (.memory .indexOutOfBounds) r := by
    rw [slice_eq, Memory.slice_of_lt (by decide)]
  have hpop : popRange prices r = .error (.memory .indexOutOfBounds) { r with stack := ⟨[]⟩ } :=
    popRange_empty_of_lt rfl (by decide) (by decide) (by decide)
  exact ⟨expand_empty prices 1 (by decide), hslice, hpop, by decide +kernel⟩

end Exec
end MutationGuard
