import MutationGuard.Proofs.Advance
import MutationGuard.Proofs.MemoryHistory
import MutationGuard.Proofs.RestrictOperation

/-!
Bytes laid out in memory by a program that is made from them: for each word of the bytes two pushes and a
store, the last word filled up with zeroes. Every store writes where memory ends, so memory grows by what is
written (`pays_mstore`), and the cost of growing it word by word is that of growing it at once
(`Activation.appending_appending`). Main statement: `performs_storeBytes`, by induction on the groups.
-/

namespace MutationGuard

variable {σ : Type}

/-! ## Groups -/

namespace Bytes

theorem groups_eq (bytes : Bytes) :
    groups 32 bytes =
      (List.range ((bytes.length + 31) / 32)).map fun i => (bytes.drop (32 * i)).take 32 := by
  unfold groups
  simp only [List.size_toArray]
  refine List.map_congr_left fun i _ => ?_
  rw [Array.toList_extract, List.extract_eq_take_drop, Nat.mul_comm i 32, Nat.succ_mul]
  congr 1
  omega

/-- The first group, and the groups of what is left. -/
theorem groups_of_ne_nil {bytes : Bytes} (h : bytes ≠ []) :
    groups 32 bytes = bytes.take 32 :: groups 32 (bytes.drop 32) := by
  have hpos := List.length_pos_iff.mpr h
  have hcount : (bytes.length + 31) / 32 = ((bytes.drop 32).length + 31) / 32 + 1 := by
    rw [List.length_drop]
    omega
  rw [groups_eq, groups_eq, hcount, List.range_succ_eq_map, List.map_cons, List.map_map, Nat.mul_zero,
    List.drop_zero]
  refine congrArg _ (List.map_congr_left fun i _ => ?_)
  rw [Function.comp_apply, List.drop_drop, Nat.mul_succ, Nat.add_comm]

theorem length_groups (bytes : Bytes) : (groups 32 bytes).length = (bytes.length + 31) / 32 := by
  rw [groups_eq, List.length_map, List.length_range]

end Bytes

namespace Fragment

/-- The bytes as they lie in memory: whole words, the last one filled up with zeroes. -/
def filled (bytes : Bytes) : Bytes :=
  bytes ++ List.replicate (32 * ((bytes.length + 31) / 32) - bytes.length) 0

theorem length_filled (bytes : Bytes) : (filled bytes).length = 32 * ((bytes.length + 31) / 32) := by
  rw [filled, List.length_append, List.length_replicate]
  omega

theorem toBytes_leftAligned {group : Bytes} (h : group.length ≤ 32) :
    (leftAligned group).toBytes = group ++ List.replicate (32 - group.length) 0 := by
  refine Word.toBytes_ofBytes ?_
  rw [List.length_append, List.length_replicate]
  omega

/-- The words of the groups, one after the other. -/
theorem flatMap_groups (bytes : Bytes) :
    (Bytes.groups 32 bytes).flatMap (fun group => (leftAligned group).toBytes) = filled bytes := by
  induction hn : bytes.length using Nat.strongRecOn generalizing bytes with
  | ind n ih =>
    by_cases hnil : bytes = []
    · subst hnil
      rfl
    have hpos := List.length_pos_iff.mpr hnil
    have hrest := ih (bytes.drop 32).length (by rw [List.length_drop]; omega) (bytes.drop 32) rfl
    rw [Bytes.groups_of_ne_nil hnil, List.flatMap_cons, hrest,
      toBytes_leftAligned (List.length_take_le ..), filled, filled, List.length_take, List.length_drop]
    rcases Nat.lt_or_ge bytes.length 32 with hlast | hwhole
    · rw [List.take_of_length_le (by omega), List.drop_of_length_le (by omega), List.nil_append,
        List.append_assoc, List.replicate_append_replicate]
      congr 2
      omega
    · have hnone : 32 - min 32 bytes.length = 0 := by omega
      have hfill : 32 * ((bytes.length - 32 + 31) / 32) - (bytes.length - 32) =
          32 * ((bytes.length + 31) / 32) - bytes.length := by omega
      rw [hnone, hfill, List.replicate_zero, List.append_nil, ← List.append_assoc, List.take_append_drop]

end Fragment

/-! ## Writing at the end of memory -/

namespace Memory

variable {m : Memory}

/-- Memory with more bytes at its end. -/
def append (m : Memory) (data : Bytes) : Memory := ⟨m.bytes ++ data.toArray⟩

theorem size_append (m : Memory) (data : Bytes) :
    (m.append data).bytes.size = m.bytes.size + data.length := by
  simp [append]

theorem words_le_append (m : Memory) (data : Bytes) : m.words ≤ (m.append data).words := by
  unfold words
  rw [size_append]
  omega

theorem append_append (m : Memory) (data more : Bytes) :
    (m.append data).append more = m.append (data ++ more) := by
  simp [append]

/-- Writing over all that memory has grown by. -/
theorem write_append (bytes fill : Array UInt8) {data : Bytes} (h : data.length = fill.size) :
    write (bytes ++ fill) bytes.size data = bytes ++ data.toArray := by
  apply Array.ext_getElem?
  intro i
  rw [getElem?_write, Array.size_append]
  rcases Nat.lt_or_ge i bytes.size with hold | hnew
  · rw [if_neg (by omega), Array.getElem?_append_left hold, Array.getElem?_append_left hold]
  · have hdata : data.toArray[i - bytes.size]? = data[i - bytes.size]? := List.getElem?_toArray
    rw [Array.getElem?_append_right hnew, Array.getElem?_append_right hnew, hdata]
    by_cases hin : i < bytes.size + data.length
    · rw [if_pos (by omega)]
    · rw [if_neg (by omega), Array.getElem?_eq_none (by omega), List.getElem?_eq_none (by omega)]

/-- A word that is stored where memory ends. -/
theorem store_end (haligned : m.Aligned) (w : Word) :
    store m.bytes.size w.toBytes (m.growTo (m.words + 1)) = .ok () (m.append w.toBytes) := by
  unfold Aligned at haligned
  have hlength : w.toBytes.length = 32 := Bytes.length_ofNat ..
  have hfill : 32 * (m.words + 1) - m.bytes.size = 32 := by
    unfold words
    omega
  have hin : m.bytes.size + w.toBytes.length ≤ (m.growTo (m.words + 1)).bytes.size := by
    rw [size_growTo, hlength]
    omega
  rw [store_of_le hin]
  unfold growTo append
  dsimp only
  rw [hfill, write_append _ _ (by rw [hlength, Array.size_replicate])]

theorem wordsRequired_end (haligned : m.Aligned) (hlimit : m.bytes.size + 32 ≤ sizeLimit) :
    m.wordsRequired m.bytes.size 32 = .ok (m.words + 1) := by
  unfold Aligned at haligned
  rw [wordsRequired_of_le (by decide) hlimit]
  unfold words
  congr 1
  omega

end Memory

namespace Exec

variable {prices : Pricing} {r : Activation σ} {offset word : Word} {rest : List Word}

theorem pop2_of_words {a b : Word} (h : r.stack.words = b :: a :: rest) :
    onStack Stack.pop2 r = .ok (a, b) { r with stack := ⟨rest⟩ } := by
  obtain ⟨frame, pc, ⟨words⟩, memory, gas, program, txn⟩ := r
  obtain rfl : words = b :: a :: rest := h
  rfl

theorem andNext_of_ok {x : Exec σ Unit} {s : Activation σ} (h : x r = .ok () s) :
    andNext x r = .ok (.next (s.pc + 1)) s := bind_of_ok h

theorem onMemory_of_ok {α : Type} {action : EStateM MemoryError Memory α} {a : α} {m m' : Memory}
    (h : action m = .ok a m') (r : Activation σ) (hr : r.memory = m) :
    onMemory action r = .ok a { r with memory := m' } := by
  unfold onMemory
  subst hr
  dsimp only
  rw [h]

theorem expand_of_lt {offset length words : Nat}
    (hrequired : r.memory.wordsRequired offset length = .ok words)
    (h : r.gas.limit < r.gas.spent + r.growthCost prices words) :
    expand prices offset length r =
      .error (.outOfGas ⟨r.gas.spent, r.gas.limit, r.growthCost prices words⟩) r := by
  rw [expand_eq, hrequired]
  dsimp only
  rw [GasMeter.charge_of_lt h]

theorem mstore_of_words (prices : Pricing) (hstack : r.stack.words = word :: offset :: rest)
    (hoffset : offset.toNat ≤ counterMax) :
    mstore prices r = (expand prices offset.toNat 32 >>= fun _ =>
      onMemory (Memory.store offset.toNat word.toBytes)) { r with stack := ⟨rest⟩ } := by
  rw [mstore, bind_of_ok (pop2_of_words hstack)]
  exact bind_of_ok (counter_of_le hoffset)

/-- Storing a word where memory ends. -/
theorem pays_mstore [Source σ] {run : Runner σ} (hstack : r.stack.words = word :: offset :: rest)
    (hend : offset.toNat = r.memory.bytes.size) (haligned : r.memory.Aligned)
    (hlimit : r.memory.bytes.size + 32 ≤ Memory.sizeLimit) :
    Pays (perform prices run .mstore) r
      { r with
        pc := r.pc + 1
        stack := ⟨rest⟩
        memory := r.memory.append word.toBytes
        gas := { r.gas with spent := r.gas.spent + r.growthCost prices (r.memory.words + 1) } } := by
  have hcounter : offset.toNat ≤ counterMax := by
    have hmax : Memory.sizeLimit ≤ counterMax := by decide
    omega
  have hrequired : r.memory.wordsRequired offset.toNat 32 = .ok (r.memory.words + 1) :=
    hend ▸ Memory.wordsRequired_end haligned hlimit
  have hstore : Memory.store offset.toNat word.toBytes (r.memory.growTo (r.memory.words + 1)) =
      .ok () (r.memory.append word.toBytes) := hend ▸ Memory.store_end haligned word
  have hmstore := mstore_of_words prices hstack hcounter
  refine ⟨rfl, Nat.le_add_right _ _, rfl, fun hsound => ?_, fun _ hover => ?_⟩
  · have hexpand : expand prices offset.toNat 32 { r with stack := ⟨rest⟩ } = .ok () _ :=
      expand_eq_ok_iff.mpr ⟨_, _, hrequired, GasMeter.charge_eq_ok_iff.mpr ⟨hsound, rfl⟩, rfl⟩
    exact andNext_of_ok (hmstore.trans ((bind_of_ok hexpand).trans (onMemory_of_ok hstore _ rfl)))
  · have hexpand : expand prices offset.toNat 32 { r with stack := ⟨rest⟩ } = .error (.outOfGas _) _ :=
      expand_of_lt hrequired (Nat.not_le.mp hover)
    exact ⟨_, _, bind_of_error (hmstore.trans (bind_of_error hexpand)), rfl⟩

end Exec

/-! ## Laying out -/

/-- A frame under way behind so many operations that leave the stack as it is and write bytes at the end of
memory, each operation and the growth of memory being paid for. -/
def Activation.appending (prices : Pricing) (r : Activation σ) (ops : List Op) (data : Bytes) :
    Activation σ :=
  { r with
    pc := r.pc + ops.length
    memory := r.memory.append data
    gas := { r.gas with
      spent := r.gas.spent +
        ((ops.map prices.opCost).sum + r.growthCost prices (r.memory.append data).words) } }

namespace Activation

variable {prices : Pricing} {r : Activation σ}

/-- Memory that grows twice costs what it costs to grow it at once. -/
theorem appending_appending (ops more : List Op) (data rest : Bytes) :
    (r.appending prices ops data).appending prices more rest =
      r.appending prices (ops ++ more) (data ++ rest) := by
  have hcost := prices.schedule.memoryCost_mono (r.memory.words_le_append data)
  have hmore := prices.schedule.memoryCost_mono ((r.memory.append data).words_le_append rest)
  rw [Memory.append_append] at hmore
  unfold appending growthCost
  dsimp only
  rw [Memory.append_append, List.length_append, List.map_append, List.sum_append, Nat.add_assoc]
  congr 2
  omega

theorem appending_nil : r.appending prices [] [] = r := by
  have hmemory : r.memory.append [] = r.memory := by
    unfold Memory.append
    simp
  unfold appending growthCost
  rw [hmemory, Nat.sub_self]
  rfl

end Activation

namespace Fragment

/-- The operations that write one group of the bytes at its place. -/
def storeGroup (offset : Nat) (group : Bytes) (i : Nat) : List Op :=
  [number (offset + 32 * i), .push (leftAligned group), .mstore]

/-- The operations that write the groups from the `i`th on. -/
def storeGroups (offset : Nat) : List Bytes → Nat → List Op
  | [], _ => []
  | group :: groups, i => storeGroup offset group i ++ storeGroups offset groups (i + 1)

theorem storeGroups_eq (offset : Nat) (groups : List Bytes) (i : Nat) :
    storeGroups offset groups i =
      (groups.zipIdx i).flatMap fun (group, i) => storeGroup offset group i := by
  induction groups generalizing i with
  | nil => rfl
  | cons group groups ih => rw [storeGroups, ih, List.zipIdx_cons, List.flatMap_cons]

theorem storeBytes_eq (offset : Nat) (bytes : Bytes) :
    storeBytes offset bytes = storeGroups offset (Bytes.groups 32 bytes) 0 :=
  (storeGroups_eq offset (Bytes.groups 32 bytes) 0).symm

theorem toNat_number {n : Nat} (h : n ≤ Memory.sizeLimit) : (BitVec.ofNat 256 n).toNat = n := by
  have hlimit : Memory.sizeLimit < 2 ^ 256 := by decide
  rw [BitVec.toNat_ofNat, Nat.mod_eq_of_lt (Nat.lt_of_le_of_lt h hlimit)]

end Fragment

namespace Activation.Performs

variable [Source σ] {prices : Pricing} {l : Listing} {r : Activation σ} {offset : Nat}

open Fragment

/-- A word is written where memory ends. -/
theorem store {place word : Word} (hhas : l.Has r.pc [.push place, .push word, .mstore])
    (hroom : r.stack.words.length + 2 ≤ Stack.sizeLimit) (haligned : r.memory.Aligned)
    (hend : place.toNat = r.memory.bytes.size) (hlimit : r.memory.bytes.size + 32 ≤ Memory.sizeLimit) :
    Performs prices l 3 r (r.appending prices [.push place, .push word, .mstore] word.toBytes) := by
  have hplace : Performs prices l 1 r (r.pushing prices place) := push hhas.head (by omega)
  have hword : Performs prices l 1 (r.pushing prices place)
      ((r.pushing prices place).pushing prices word) :=
    push hhas.tail.head (by
      change r.stack.words.length + 1 < Stack.sizeLimit
      omega)
  have hstore : Performs prices l 1 ((r.pushing prices place).pushing prices word) _ :=
    of_pays hhas.tail.tail.head fun _ => Exec.pays_mstore rfl hend haligned hlimit
  have hwords : (r.memory.append word.toBytes).words = r.memory.words + 1 := by
    have hlength : word.toBytes.length = 32 := Bytes.length_ofNat ..
    unfold Memory.Aligned at haligned
    unfold Memory.words
    rw [Memory.size_append, hlength]
    omega
  have hspent : r.gas.spent + (([.push place, .push word, .mstore].map prices.opCost).sum +
        r.growthCost prices (r.memory.append word.toBytes).words) =
      r.gas.spent + prices.opCost (.push place) + prices.opCost (.push word) + prices.opCost .mstore +
        r.growthCost prices (r.memory.words + 1) := by
    simp only [hwords, List.map_cons, List.map_nil, List.sum_cons, List.sum_nil]
    omega
  unfold appending
  rw [hspent]
  exact (hplace.trans hword).trans hstore

/-- The groups are written one after the other, each where the one before it ends. -/
theorem storeGroups (groups : List Bytes) (i : Nat) (hhas : l.Has r.pc (storeGroups offset groups i))
    (hroom : r.stack.words.length + 2 ≤ Stack.sizeLimit) (haligned : r.memory.Aligned)
    (hend : r.memory.bytes.size = offset + 32 * i)
    (hlimit : r.memory.bytes.size + 32 * groups.length ≤ Memory.sizeLimit) :
    Performs prices l (Fragment.storeGroups offset groups i).length r
      (r.appending prices (Fragment.storeGroups offset groups i)
        (groups.flatMap fun group => (leftAligned group).toBytes)) := by
  induction groups generalizing i r with
  | nil =>
    rw [Fragment.storeGroups, List.flatMap_nil, appending_nil]
    exact .refl r
  | cons group groups ih =>
    rw [List.length_cons] at hlimit
    have hlength : (leftAligned group).toBytes.length = 32 := Bytes.length_ofNat ..
    have hplace : (BitVec.ofNat 256 (offset + 32 * i)).toNat = r.memory.bytes.size := by
      rw [toNat_number (by omega), hend]
    have hfirst : Performs prices l 3 r
        (r.appending prices (storeGroup offset group i) (leftAligned group).toBytes) :=
      store hhas.left hroom haligned hplace (by omega)
    have hsize : (r.memory.append (leftAligned group).toBytes).bytes.size = r.memory.bytes.size + 32 := by
      rw [Memory.size_append, hlength]
    have hrest := ih (r := r.appending prices (storeGroup offset group i) (leftAligned group).toBytes)
      (i + 1) hhas.right hroom (by
        unfold Memory.Aligned at haligned ⊢
        change (r.memory.append (leftAligned group).toBytes).bytes.size % 32 = 0
        omega) (by
        change (r.memory.append (leftAligned group).toBytes).bytes.size = _
        omega) (by
        change (r.memory.append (leftAligned group).toBytes).bytes.size + _ ≤ _
        omega)
    rw [appending_appending] at hrest
    rw [Fragment.storeGroups, List.flatMap_cons, List.length_append]
    exact hfirst.trans hrest

/-- Bytes are laid out where memory ends, filled up to whole words. -/
theorem storeBytes (bytes : Bytes) (hhas : l.Has r.pc (storeBytes r.memory.bytes.size bytes))
    (hroom : r.stack.words.length + 2 ≤ Stack.sizeLimit) (haligned : r.memory.Aligned)
    (hlimit : r.memory.bytes.size + bytes.length ≤ Memory.sizeLimit) :
    Performs prices l (Fragment.storeBytes r.memory.bytes.size bytes).length r
      (r.appending prices (Fragment.storeBytes r.memory.bytes.size bytes) (filled bytes)) := by
  have hwhole : r.memory.bytes.size + 32 * (Bytes.groups 32 bytes).length ≤ Memory.sizeLimit := by
    -- the limit is itself a whole number of words
    have hwords : Memory.sizeLimit = 32 * 32768 := rfl
    unfold Memory.Aligned at haligned
    rw [Bytes.length_groups]
    omega
  rw [storeBytes_eq] at hhas ⊢
  rw [← flatMap_groups]
  exact storeGroups _ 0 hhas hroom haligned rfl hwhole

end Activation.Performs

/-! ## Bytes at the start of memory -/

namespace Fragment

/-- What it costs to lay out bytes from the start of memory and to push their range. -/
def presentCost (prices : Pricing) (bytes : Bytes) : Nat :=
  ((storeBytes 0 bytes ++ [number 0, number bytes.length]).map prices.opCost).sum +
    prices.schedule.memoryCost ((bytes.length + 31) / 32)

/-- The memory of a frame that has laid out bytes and nothing else. -/
def laidOut (bytes : Bytes) : Memory := Memory.append {} (filled bytes)

theorem size_laidOut (bytes : Bytes) : (laidOut bytes).bytes.size = 32 * ((bytes.length + 31) / 32) := by
  rw [laidOut, Memory.size_append, length_filled]
  exact Nat.zero_add _

theorem words_laidOut (bytes : Bytes) : (laidOut bytes).words = (bytes.length + 31) / 32 := by
  unfold Memory.words
  rw [size_laidOut]
  omega

/-- The bytes are read back, without what they were filled up with. -/
theorem slice_laidOut (bytes : Bytes) : (laidOut bytes).slice 0 bytes.length = .ok bytes := by
  refine Memory.slice_of_reads ⟨rfl, fun i hi => ?_⟩ (by rw [size_laidOut]; omega)
  have hfilled : (laidOut bytes).bytes[0 + i]? = (filled bytes)[i]? := by
    simp [laidOut, Memory.append]
  rw [hfilled, filled, List.getElem?_append_left hi]

/-- Taking the range of the bytes needs no growth. -/
theorem wordsRequired_laidOut {bytes : Bytes} (hsize : bytes.length ≤ Memory.sizeLimit) :
    (laidOut bytes).wordsRequired 0 bytes.length = .ok (laidOut bytes).words := by
  by_cases hempty : bytes.length = 0
  · rw [hempty, Memory.wordsRequired_zero]
  · rw [Memory.wordsRequired_of_le hempty (by omega), words_laidOut]
    congr 1
    omega

end Fragment

/-- A frame that has laid out bytes from the start of memory and pushed their range. -/
def Activation.presenting (prices : Pricing) (f : Frame) (code : Code) (gasLimit : Nat) (t : Txn σ)
    (bytes : Bytes) : Activation σ :=
  { start f code gasLimit t with
    pc := (Fragment.storeBytes 0 bytes).length + 2
    stack := ⟨[BitVec.ofNat 256 bytes.length, 0]⟩
    memory := Fragment.laidOut bytes
    gas := ⟨gasLimit, Fragment.presentCost prices bytes⟩ }

/-- Code that starts by laying out bytes comes to present them. -/
theorem Activation.Performs.present [Source σ] {prices : Pricing} {l : Listing} {f : Frame} {code : Code}
    {gasLimit : Nat} {t : Txn σ} {bytes : Bytes}
    (hhas : l.Has 0 (Fragment.storeBytes 0 bytes ++ [Fragment.number 0, Fragment.number bytes.length]))
    (hsize : bytes.length ≤ Memory.sizeLimit) :
    Performs prices l ((Fragment.storeBytes 0 bytes).length + 2) (start f code gasLimit t)
      (presenting prices f code gasLimit t bytes) := by
  have hroom : ([] : List Word).length + 2 ≤ Stack.sizeLimit := by decide
  have hlimit : 0 + bytes.length ≤ Memory.sizeLimit := by omega
  let stored := (start f code gasLimit t).appending prices (Fragment.storeBytes 0 bytes)
    (Fragment.filled bytes)
  have hstore : Performs prices l _ (start f code gasLimit t) stored :=
    Performs.storeBytes bytes hhas.left hroom rfl hlimit
  have hranges : l.Has stored.pc [Fragment.number 0, Fragment.number bytes.length] := hhas.right
  have hempty : 0 < Stack.sizeLimit := by decide
  have hone : 1 < Stack.sizeLimit := by decide
  have hoffset : Performs prices l 1 stored (stored.pushing prices 0) := push hranges.head hempty
  have hlength : Performs prices l 1 (stored.pushing prices 0)
      ((stored.pushing prices 0).pushing prices (BitVec.ofNat 256 bytes.length)) :=
    push hranges.tail.head hone
  have hcost : ((stored.pushing prices 0).pushing prices (BitVec.ofNat 256 bytes.length)).gas =
      ⟨gasLimit, Fragment.presentCost prices bytes⟩ := by
    have hgrowth : (start f code gasLimit t).growthCost prices (Fragment.laidOut bytes).words =
        prices.schedule.memoryCost ((bytes.length + 31) / 32) := by
      rw [growthCost_start, Fragment.words_laidOut]
    change GasMeter.mk gasLimit (0 + (_ + (start f code gasLimit t).growthCost prices
      (Fragment.laidOut bytes).words) + prices.opCost (Fragment.number 0) +
      prices.opCost (Fragment.number bytes.length)) = _
    rw [hgrowth, Fragment.presentCost, List.map_append, List.sum_append]
    simp only [List.map_cons, List.map_nil, List.sum_cons, List.sum_nil]
    congr 1
    omega
  have hpresents := (hstore.trans hoffset).trans hlength
  have hstate : presenting prices f code gasLimit t bytes =
      (stored.pushing prices 0).pushing prices (BitVec.ofNat 256 bytes.length) := by
    have hpc : (Fragment.storeBytes 0 bytes).length + 2 =
        0 + (Fragment.storeBytes 0 bytes).length + 1 + 1 := by omega
    unfold presenting
    rw [← hcost, hpc]
    rfl
  rw [hstate]
  exact hpresents

end MutationGuard
