import MutationGuard.Machine.Access
import MutationGuard.Proofs.Tiling

/-!
A program that is mapped as it is read, asked for the same index again. Operations that were parsed stay
mapped, so an operation that was answered is answered ever after, and so is the end. An error is not kept:
the bytes it was parsed from are used up, and the next reading goes on behind them
(`LazyBytecode.readings_other_than_first`). Main statement: `LazyBytecode.consistent_iff`, by which answers
change only where there was an error, and programs without errors are the ones that never change theirs;
operations in a list or packed are such programs.
-/

namespace MutationGuard

namespace Op

/-- The operations among what was parsed, errors left out. -/
def operations (results : List (Except ParseError Op)) : List Op := results.filterMap Except.toOption

/-- The error that a result is, if it is one. -/
def fault? : Except ParseError Op → Option ParseError
  | .ok _ => none
  | .error e => some e

/-- The errors among what was parsed. -/
def faults (results : List (Except ParseError Op)) : List ParseError := results.filterMap fault?

end Op

theorem Listing.error_ofResults (results : List (Except ParseError Op)) :
    (ofResults results).error = (Op.faults results).head? := by
  induction results with
  | nil => rfl
  | cons result results ih =>
    cases result with
    | error e => rfl
    | ok op => exact ih

namespace LazyBytecode

open Op Program

variable {code : Bytes} {met : List ParseError} {p : LazyBytecode} {i j : Nat}

/-- What was parsed of the code so far is mapped if it is an operation, and otherwise is among the errors
met; the rest of the code is unread. -/
structure After (code : Bytes) (met : List ParseError) (p : LazyBytecode) : Prop where
  operations : ∃ seen, p.mapped = .ofOps seen ∧
    operations (parseAll code) = seen ++ operations (parseAll p.unread)
  faults : faults (parseAll code) = met ++ faults (parseAll p.unread)

theorem after_ofCode (code : Bytes) : After code [] (ofCode code) := ⟨⟨[], rfl, rfl⟩, rfl⟩

/-- Mapping up to an index finds it, or uses up an error, or comes to the end of the code. -/
theorem After.fill {mapped : Bytecode} {unread : Bytes} (h : After code met ⟨mapped, unread⟩) (i : Nat) :
    match LazyBytecode.fill i mapped unread with
    | (some (.ok ()), q) => After code met q ∧ i < q.mapped.starts.size
    | (some (.error e), q) => After code (met ++ [e]) q
    | (none, q) => After code met q ∧ q.mapped.starts.size ≤ i ∧ q.unread = [] := by
  induction hn : unread.length using Nat.strongRecOn generalizing mapped unread with
  | ind n ih =>
    by_cases hi : i < mapped.starts.size
    · rw [fill_of_lt hi]
      exact ⟨h, hi⟩
    rw [fill_of_le (Nat.not_lt.mp hi)]
    have hresults := parseAll_eq unread
    obtain ⟨⟨seen, hseen, hops⟩, hfaults⟩ := h
    match hparse : parse unread with
    | none => exact ⟨⟨⟨seen, hseen, hops⟩, hfaults⟩, Nat.not_lt.mp hi, eq_nil_of_parse hparse⟩
    | some (.error e, rest) =>
      simp only [hparse] at hresults
      refine ⟨⟨seen, hseen, ?_⟩, ?_⟩
      · rw [hops, hresults]
        rfl
      · rw [hfaults, hresults, List.append_assoc]
        rfl
    | some (.ok op, rest) =>
      simp only [hparse] at hresults
      refine ih _ (hn ▸ length_lt_of_parse hparse) ⟨⟨seen ++ [op], ?_, ?_⟩, ?_⟩ rfl
      · rw [Bytecode.ofOps_append_singleton, ← hseen]
      · rw [hops, hresults, List.append_assoc]
        rfl
      · rw [hfaults, hresults]
        rfl

/-- Nothing is left to find out about the index: its operation is mapped, or all code is read. -/
def Settled (p : LazyBytecode) (i : Nat) : Prop := i < p.mapped.starts.size ∨ p.unread = []

/-- An answer is what stands at the index when errors are left out, and settles it, or it is an error, which
is one more that was met. -/
theorem After.access (h : After code met p) (i : Nat) :
    After code (met ++ ((p.access i).1.bind fault?).toList) (p.access i).2 ∧
      ((p.access i).1.bind fault? = none →
        (p.access i).1 = (Op.operations (parseAll code))[i]?.map .ok ∧ (p.access i).2.Settled i) := by
  obtain ⟨mapped, unread⟩ := p
  have hfill := h.fill i
  unfold LazyBytecode.access
  dsimp only
  generalize LazyBytecode.fill i mapped unread = result at hfill ⊢
  obtain ⟨found, q⟩ := result
  rcases found with _ | ⟨e | ⟨⟩⟩
  · obtain ⟨hafter, hsize, hend⟩ := hfill
    obtain ⟨⟨seen, hseen, hops⟩, hfaults⟩ := hafter
    have hnone : (Op.operations (parseAll code))[i]? = none := by
      rw [hseen, Bytecode.size_starts_ofOps] at hsize
      rw [hops, hend, parseAll_nil, List.getElem?_eq_none]
      simpa [Op.operations] using hsize
    rw [hnone]
    exact ⟨⟨⟨seen, hseen, hops⟩, by simpa using hfaults⟩, fun _ => ⟨rfl, .inr hend⟩⟩
  · exact ⟨hfill, nofun⟩
  · obtain ⟨hafter, hsize⟩ := hfill
    obtain ⟨⟨seen, hseen, hops⟩, hfaults⟩ := hafter
    have hop : q.mapped.op? i = (Op.operations (parseAll code))[i]? := by
      have hlt := hsize
      rw [hseen, Bytecode.size_starts_ofOps] at hlt
      rw [hseen, Bytecode.op?_ofOps, hops, List.getElem?_append_left hlt]
    have hfault : ((q.mapped.op? i).map Except.ok).bind fault? = none := by
      cases q.mapped.op? i <;> rfl
    dsimp only
    rw [hfault]
    exact ⟨⟨⟨seen, hseen, hops⟩, by simpa using hfaults⟩, fun _ => ⟨by rw [hop], .inl hsize⟩⟩

theorem access_snd (p : LazyBytecode) (i : Nat) :
    (p.access i).2 = (fill i p.mapped p.unread).2 := by
  unfold access
  dsimp only
  generalize fill i p.mapped p.unread = result
  obtain ⟨found, q⟩ := result
  rcases found with _ | ⟨e | ⟨⟩⟩ <;> rfl

/-- Mapping goes on from what is mapped, and not past the end. -/
theorem fill_grows (i : Nat) (mapped : Bytecode) (unread : Bytes) :
    mapped.starts.size ≤ (fill i mapped unread).2.mapped.starts.size ∧
      (unread = [] → (fill i mapped unread).2.unread = []) := by
  induction hn : unread.length using Nat.strongRecOn generalizing mapped unread with
  | ind n ih =>
    by_cases hi : i < mapped.starts.size
    · rw [fill_of_lt hi]
      exact ⟨Nat.le_refl _, id⟩
    rw [fill_of_le (Nat.not_lt.mp hi)]
    match hparse : parse unread with
    | none => exact ⟨Nat.le_refl _, id⟩
    | some (.error e, rest) =>
      refine ⟨Nat.le_refl _, ?_⟩
      rintro rfl
      cases hparse
    | some (.ok op, rest) =>
      obtain ⟨hsize, -⟩ := ih _ (hn ▸ length_lt_of_parse hparse) (mapped.push op) rest rfl
      have hpush : (mapped.push op).starts.size = mapped.starts.size + 1 := Array.size_push ..
      refine ⟨by dsimp only; omega, ?_⟩
      rintro rfl
      cases hparse

theorem Settled.access (h : p.Settled i) (j : Nat) : (p.access j).2.Settled i := by
  obtain ⟨hsize, hend⟩ := fill_grows j p.mapped p.unread
  unfold Settled
  rw [access_snd]
  rcases h with hmapped | hread
  · exact .inl (Nat.lt_of_lt_of_le hmapped hsize)
  · exact .inr (hend hread)

/-- No error is met on the way to a settled index. -/
theorem Settled.fault?_eq_none (h : p.Settled i) : (p.access i).1.bind fault? = none := by
  obtain ⟨mapped, unread⟩ := p
  unfold LazyBytecode.access
  dsimp only
  by_cases hi : i < mapped.starts.size
  · rw [fill_of_lt hi]
    dsimp only
    cases mapped.op? i <;> rfl
  · have hend : unread = [] := h.resolve_left hi
    rw [fill_of_le (Nat.not_lt.mp hi), hend]
    rfl

/-! ## Readings -/

/-- What is answered without an error is what stands at the index when errors are left out. -/
theorem After.readings_of_fault?_eq_none (h : After code met p) {indices : List Nat}
    {answer : Option (Except ParseError Op)} (hread : (i, answer) ∈ readings p indices)
    (hfault : answer.bind fault? = none) :
    answer = (Op.operations (parseAll code))[i]?.map .ok := by
  refine forall_mem_readings (fun p => ∃ met, After code met p)
    (fun i answer => answer.bind fault? = none →
      answer = (Op.operations (parseAll code))[i]?.map .ok) ?_ ⟨met, h⟩ hread hfault
  rintro p i ⟨met, h⟩
  obtain ⟨hafter, hanswer⟩ := h.access i
  exact ⟨fun hnone => (hanswer hnone).1, _, hafter⟩

/-- Reading on, there are no errors to be met on the way to a settled index. -/
theorem Settled.readings (h : p.Settled i) {indices : List Nat}
    {answer : Option (Except ParseError Op)} (hread : (i, answer) ∈ Program.readings p indices) :
    answer.bind fault? = none := by
  refine forall_mem_readings (·.Settled i) (fun j answer => j = i → answer.bind fault? = none)
    ?_ h hread rfl
  intro p j h
  refine ⟨?_, h.access j⟩
  rintro rfl
  exact h.fault?_eq_none

theorem filterMap_readings_cons (p : LazyBytecode) (i : Nat) (indices : List Nat) :
    (readings p (i :: indices)).filterMap (·.2.bind fault?) =
      ((p.access i).1.bind fault?).toList ++
        (readings (p.access i).2 indices).filterMap (·.2.bind fault?) := by
  show ((i, (p.access i).1) :: readings (p.access i).2 indices).filterMap _ = _
  rw [List.filterMap_cons]
  cases (p.access i).1.bind fault? <;> rfl

/-- The errors that are met are the first of those that the code holds. -/
theorem After.faults_readings (h : After code met p) (indices : List Nat) :
    met ++ (readings p indices).filterMap (·.2.bind fault?) <+: Op.faults (parseAll code) := by
  induction indices generalizing met p with
  | nil =>
    rw [h.faults]
    simp [readings]
  | cons i indices ih =>
    have hmore := ih (h.access i).1
    rwa [filterMap_readings_cons, ← List.append_assoc]

/-- What is answered without an error is answered again. -/
theorem After.pairwise_readings (h : After code met p) (indices : List Nat) :
    (readings p indices).Pairwise fun earlier later =>
      earlier.1 = later.1 → earlier.2.bind fault? = none → later.2 = earlier.2 := by
  induction indices generalizing met p with
  | nil => exact .nil
  | cons i indices ih =>
    obtain ⟨hafter, hanswer⟩ := h.access i
    refine .cons ?_ (ih hafter)
    rintro ⟨j, answer⟩ hlater (rfl : i = j) hfault
    obtain ⟨hfirst, hsettled⟩ := hanswer hfault
    show answer = (p.access i).1
    rw [hfirst]
    exact hafter.readings_of_fault?_eq_none hlater (hsettled.readings hlater)

/-- Asked often enough for what comes first after the operations in front of an error, a program gives
another answer than that error: each answer that is an error takes one of them away. -/
theorem not_consistent_of_faults (h : faults (parseAll code) ≠ []) :
    ∃ indices, ¬ Consistent (readings (ofCode code) indices) := by
  obtain ⟨e, he⟩ : ∃ e, (faults (parseAll code)).head? = some e :=
    Option.ne_none_iff_exists'.mp (mt List.head?_eq_none_iff.mp h)
  let i := (Listing.ofCode code).ops.length
  let indices := List.replicate ((faults (parseAll code)).length + 1) i
  refine ⟨indices, fun hconsistent => ?_⟩
  have hfirst : ((ofCode code).access i).1 = some (.error e) := by
    rw [(access_of_maps (maps_ofCode code) i).1, Listing.at?_of_le (Nat.le_refl _), Listing.ofCode,
      Listing.error_ofResults, he]
    rfl
  have hall : ∀ read ∈ readings (ofCode code) indices, (read.2.bind fault?).isSome = true := by
    rintro ⟨j, answer⟩ hread
    obtain rfl : j = i := List.eq_of_mem_replicate (mem_of_mem_readings hread)
    have hanswer := hconsistent i answer ((ofCode code).access i).1 hread List.mem_cons_self
    rw [hanswer, hfirst]
    rfl
  have hprefix := ((after_ofCode code).faults_readings indices).length_le
  rw [List.nil_append, List.filterMap_length_eq_length.mpr hall, length_readings,
    List.length_replicate] at hprefix
  omega

/-- Of code without errors every answer is what stands at the index. -/
theorem consistent_of_faults_eq_nil (h : faults (parseAll code) = []) (indices : List Nat) :
    Consistent (readings (ofCode code) indices) := by
  have hstart := after_ofCode code
  have hnone : (readings (ofCode code) indices).filterMap (·.2.bind fault?) = [] := by
    have hprefix := hstart.faults_readings indices
    rwa [h, List.prefix_nil] at hprefix
  have hanswers : ∀ i answer, (i, answer) ∈ readings (ofCode code) indices →
      answer = (operations (parseAll code))[i]?.map .ok := fun i answer hread =>
    hstart.readings_of_fault?_eq_none hread (List.filterMap_eq_nil_iff.mp hnone _ hread)
  intro i answer other hread hother
  rw [hanswers i answer hread, hanswers i other hother]

/-- Of a program that is mapped as it is read, an answer without an error is what stands at the index when
errors are left out, and any later answer to that index is the same. Each error that the code holds
is answered at most once, in their order. So answers never change, whatever is asked for, exactly when the
code holds no error. Lists of operations and packed operations, which hold none, never change theirs. -/
theorem consistent_iff (code : Bytes) :
    (∀ indices,
      (∀ i answer, (i, answer) ∈ readings (ofCode code) indices → answer.bind fault? = none →
        answer = (operations (parseAll code))[i]?.map .ok) ∧
      (readings (ofCode code) indices).Pairwise (fun earlier later =>
        earlier.1 = later.1 → earlier.2.bind fault? = none → later.2 = earlier.2) ∧
      (readings (ofCode code) indices).filterMap (·.2.bind fault?) <+: faults (parseAll code)) ∧
    ((∀ indices, Consistent (readings (ofCode code) indices)) ↔ faults (parseAll code) = []) ∧
    ∀ indices, (∀ ops : List Op, Consistent (readings ops indices)) ∧
      ∀ packed : Bytecode, Consistent (readings packed indices) := by
  have hstart := after_ofCode code
  refine ⟨fun indices => ⟨fun i answer hread hfault => ?_, hstart.pairwise_readings indices,
    hstart.faults_readings indices⟩, ⟨fun h => ?_, consistent_of_faults_eq_nil⟩, fun indices =>
    ⟨fun ops => consistent_operations ops indices, fun packed => consistent_bytecode packed indices⟩⟩
  · exact hstart.readings_of_fault?_eq_none hread hfault
  · by_contra hfaults
    obtain ⟨indices, hnot⟩ := not_consistent_of_faults hfaults
    exact hnot (h indices)

/-- A byte that is no opcode, in front of a pop: the first of three answers to the same index is the error,
the others are the pop. Without the byte, all answers are; so they are of the packed pop. -/
theorem consistent_iff_invalid :
    let code : Bytes := [0xFF, 0x02]
    let read := readings (ofCode code) [0, 0, 0]
    read = [(0, some (.error (.invalidOpcode 0xFF))), (0, some (.ok .pop)), (0, some (.ok .pop))] ∧
      (operations (parseAll code))[0]?.map Except.ok = some (.ok .pop : Except ParseError Op) ∧
      read.filterMap (·.2.bind fault?) <+: faults (parseAll code) ∧
      (faults (parseAll [0x02]) = [] ∧ ∀ indices, Consistent (readings (ofCode [0x02]) indices)) ∧
      Consistent (readings (Bytecode.ofOps [.pop]) [0, 0, 0]) := by
  intro code read
  have hread : read =
      [(0, some (.error (.invalidOpcode 0xFF))), (0, some (.ok .pop)), (0, some (.ok .pop))] := by
    decide +kernel
  have hpop : (0, some (.ok .pop)) ∈ read := by
    rw [hread]
    exact List.mem_cons_of_mem _ List.mem_cons_self
  obtain ⟨hreadings, -, hsiblings⟩ := consistent_iff code
  obtain ⟨hanswers, -, hfaults⟩ := hreadings [0, 0, 0]
  have hnone : faults (parseAll [0x02]) = [] := by decide +kernel
  exact ⟨hread, (hanswers 0 _ hpop rfl).symm, hfaults,
    ⟨hnone, (consistent_iff [0x02]).2.1.mpr hnone⟩, (hsiblings [0, 0, 0]).2 (Bytecode.ofOps [.pop])⟩

/-- A byte that is no opcode is answered as an error once, and then the operation behind it is answered. -/
theorem readings_other_than_first :
    let read := readings (ofCode [0xFF, 0x02]) [0, 0]
    read = [(0, some (.error (.invalidOpcode 0xFF))), (0, some (.ok .pop))] ∧ ¬ Consistent read := by
  intro read
  have hread : read = [(0, some (.error (.invalidOpcode 0xFF))), (0, some (.ok .pop))] := by
    decide +kernel
  refine ⟨hread, fun h => ?_⟩
  rw [hread] at h
  have hsame := h 0 _ _ List.mem_cons_self (List.mem_cons_of_mem _ List.mem_cons_self)
  cases hsame

end LazyBytecode
end MutationGuard
