import MutationGuard.Proofs.LazyDecoding
import MutationGuard.Proofs.Ledger

/-!
The resources of a frame stay within their bounds, at every moment of its run: before a step, after one,
and between the actions that an operation is put together from (`Activation.ComesBy`). The stack, memory
and the meter are kept by every such action (`Built.stays`), so by every operation and by every run.
Where an operation is performed, the program is mapped that far, and whatever is mapped can be read again.
So no difference, product or sum that is taken on the way leaves the counters. Main statement:
`resources_bounded`.
-/

namespace MutationGuard

variable {σ α β : Type}

/-! ## Bounds -/

/-- The stack, the memory and the meter of a frame under way are within their bounds. -/
structure Activation.Bounded (r : Activation σ) : Prop where
  stack : r.stack.words.length ≤ Stack.sizeLimit
  aligned : r.memory.Aligned
  memory : r.memory.bytes.size ≤ Memory.sizeLimit
  gas : r.gas.Sound

theorem Activation.bounded_start (f : Frame) (code : Code) (gasLimit : Nat) (t : Txn σ) :
    (start f code gasLimit t).Bounded :=
  ⟨Nat.zero_le _, rfl, Nat.zero_le _, Nat.zero_le _⟩

/-- One moment and a later one of the same operation: at the same place of the same program, with the
same gas limit, and within the bounds. -/
structure Activation.Stays (r s : Activation σ) : Prop where
  pc : s.pc = r.pc
  program : s.program = r.program
  limit : s.gas.limit = r.gas.limit
  bounded : s.Bounded

theorem Activation.Bounded.stays {r : Activation σ} (h : r.Bounded) : r.Stays r := ⟨rfl, rfl, rfl, h⟩

theorem Activation.Stays.trans {r u s : Activation σ} (h : r.Stays u) (h' : u.Stays s) : r.Stays s :=
  ⟨h'.pc.trans h.pc, h'.program.trans h.program, h'.limit.trans h.limit, h'.bounded⟩

/-- Memory that holds whole words and is not too large is asked for no more words than it may have. -/
theorem Memory.le_of_wordsRequired {m : Memory} (hsize : m.bytes.size ≤ sizeLimit)
    {offset length words : Nat} (h : m.wordsRequired offset length = .ok words) :
    32 * words ≤ sizeLimit := by
  have hwords : 32 * m.words ≤ m.bytes.size := Nat.mul_div_le ..
  unfold wordsRequired at h
  split at h
  · cases h
    omega
  · split at h <;> cases h
    unfold sizeLimit at *
    omega

/-- What a charge leaves is within the limit, and the limit stays. -/
theorem GasMeter.limit_of_charge {m n : GasMeter} {gas : Nat} (h : m.charge gas = .ok n) :
    n.limit = m.limit := by
  rw [(charge_eq_ok_iff.mp h).2]

namespace Exec

section Actions

variable {r : Activation σ}

theorem stays_push (w : Word) (hr : r.Bounded) :
    r.Stays (onStack (Stack.push w) r).state := by
  rw [onStack_eq, Stack.push]
  by_cases hfull : Stack.sizeLimit ≤ r.stack.words.length
  · rw [if_pos hfull]
    exact ⟨rfl, rfl, rfl, hr.stack, hr.aligned, hr.memory, hr.gas⟩
  · rw [if_neg hfull]
    have hroom : (w :: r.stack.words).length ≤ Stack.sizeLimit := by
      rw [List.length_cons]
      omega
    exact ⟨rfl, rfl, rfl, hroom, hr.aligned, hr.memory, hr.gas⟩

theorem stays_pop (hr : r.Bounded) : r.Stays (onStack Stack.pop r).state := by
  obtain ⟨frame, pc, ⟨words⟩, memory, gas, program, txn⟩ := r
  cases words with
  | nil => exact hr.stays
  | cons w rest =>
    have hrest : rest.length ≤ Stack.sizeLimit := Nat.le_of_succ_le hr.stack
    exact ⟨rfl, rfl, rfl, hrest, hr.aligned, hr.memory, hr.gas⟩

theorem stays_charge (gas : Nat) (hr : r.Bounded) : r.Stays (charge gas r).state := by
  rw [charge_eq]
  cases hm : r.gas.charge gas with
  | error e => exact hr.stays
  | ok meter =>
    exact ⟨rfl, rfl, GasMeter.limit_of_charge hm, hr.stack, hr.aligned, hr.memory,
      GasMeter.sound_of_charge hm⟩

theorem stays_expand (prices : Pricing) (offset length : Nat) (hr : r.Bounded) :
    r.Stays (expand prices offset length r).state := by
  rw [expand_eq]
  cases hw : r.memory.wordsRequired offset length with
  | error e => exact hr.stays
  | ok words =>
    dsimp only
    cases hm : r.gas.charge (r.growthCost prices words) with
    | error e => exact hr.stays
    | ok meter =>
      have hsize := r.memory.size_growTo words
      have hlimit := Memory.le_of_wordsRequired hr.memory hw
      have haligned : r.memory.bytes.size % 32 = 0 := hr.aligned
      refine ⟨rfl, rfl, GasMeter.limit_of_charge hm, hr.stack, ?_, ?_, GasMeter.sound_of_charge hm⟩
      · change (r.memory.growTo words).bytes.size % 32 = 0
        omega
      · change (r.memory.growTo words).bytes.size ≤ _
        have := hr.memory
        omega

theorem stays_store (offset : Nat) (data : Bytes) (hr : r.Bounded) :
    r.Stays (onMemory (Memory.store offset data) r).state := by
  obtain ⟨frame, pc, stack, ⟨bytes⟩, gas, program, txn⟩ := r
  unfold onMemory Memory.store
  by_cases h : offset + data.length ≤ bytes.size
  · have hsize := Memory.size_write bytes offset data
    simp only [if_pos h]
    refine ⟨rfl, rfl, rfl, hr.stack, ?_, ?_, hr.gas⟩
    · change (Memory.write bytes offset data).size % 32 = 0
      rw [hsize]
      exact hr.aligned
    · change (Memory.write bytes offset data).size ≤ _
      rw [hsize]
      exact hr.memory
  · simp only [if_neg h]
    exact hr.stays

/-- The gas that a frame leaves comes back to a meter that has paid for all it was handed. -/
theorem stays_enter (run : Runner σ) (child : Frame) (code : Code) (requested : Word)
    (prepare : Txn σ → Except Fault (Option (Txn σ))) (hr : r.Bounded) :
    r.Stays (enter run child code requested prepare r).state := by
  rw [enter_eq]
  dsimp only
  generalize min (saturate requested.toNat) r.gas.remaining = handed
  cases hm : r.gas.charge handed with
  | error e => exact hr.stays
  | ok meter =>
    have hlimit := GasMeter.limit_of_charge hm
    have hsound := GasMeter.sound_of_charge hm
    have hmeter : ∀ (meter' : GasMeter) (t : Txn σ), meter'.limit = meter.limit → meter'.Sound →
        r.Stays { r with gas := meter', txn := t } :=
      fun _ _ h hs => ⟨rfl, rfl, h.trans hlimit, hr.stack, hr.aligned, hr.memory, hs⟩
    cases prepare r.txn with
    | error fault => exact hmeter meter r.txn rfl hsound
    | ok found =>
      cases found with
      | none => exact hmeter (meter.refund handed) r.txn rfl (hsound.refund handed)
      | some prepared =>
        dsimp only
        cases run child code handed prepared with
        | ok outcome after => exact hmeter _ _ rfl (hsound.refund outcome.gasLeft)
        | error cause after => exact hmeter meter after rfl hsound

end Actions

/-- Every action that operations are made of keeps the bounds. -/
theorem Built.stays {prices : Pricing} {run : Runner σ} {x : Exec σ α} (h : Built prices run x)
    {r : Activation σ} (hr : r.Bounded) : r.Stays (x r).state := by
  induction h generalizing r with
  | pure | throw => exact hr.stays
  | write | restrict => exact ⟨rfl, rfl, rfl, hr.stack, hr.aligned, hr.memory, hr.gas⟩
  | bind _ _ ihx ihg =>
    have hx := ihx hr
    rename_i x g _ _
    cases hs : x r with
    | ok a s =>
      rw [hs] at hx
      rw [bind_of_ok hs]
      exact hx.trans (ihg a hx.bounded)
    | error e s =>
      rw [hs] at hx
      rw [bind_of_error hs]
      exact hx
  | look _ _ ihg => exact ihg r hr
  | push w => exact stays_push w hr
  | pop => exact stays_pop hr
  | charge gas => exact stays_charge gas hr
  | expand offset length => exact stays_expand prices offset length hr
  | store offset data => exact stays_store offset data hr
  | enter child code requested prepare => exact stays_enter run child code requested prepare hr

/-! ## Moments -/

/-- The states that an action comes by: the one it starts from, those between the actions that it is put
together from, and the one it ends in. -/
inductive Passes (prices : Pricing) (run : Runner σ) :
    {α : Type} → Exec σ α → Activation σ → Activation σ → Prop
  | start {α : Type} {x : Exec σ α} {r : Activation σ} : Passes prices run x r r
  | done {α : Type} {x : Exec σ α} {r : Activation σ} (hx : Built prices run x) :
    Passes prices run x r (x r).state
  | first {α β : Type} {x : Exec σ α} {g : α → Exec σ β} {r s : Activation σ}
    (h : Passes prices run x r s) : Passes prices run (x >>= g) r s
  | look {α : Type} {g : Activation σ → Exec σ α} {r s : Activation σ}
    (h : Passes prices run (g r) r s) : Passes prices run (get >>= g) r s
  | later {α β : Type} {x : Exec σ α} {g : α → Exec σ β} {r u s : Activation σ} {a : α}
    (hx : Built prices run x) (hu : x r = .ok a u) (h : Passes prices run (g a) u s) :
    Passes prices run (x >>= g) r s

theorem Passes.stays {prices : Pricing} {run : Runner σ} {x : Exec σ α} {r s : Activation σ}
    (h : Passes prices run x r s) (hr : r.Bounded) : r.Stays s := by
  induction h with
  | start => exact hr.stays
  | done hx => exact hx.stays hr
  | first _ ih => exact ih hr
  | look _ ih => exact ih hr
  | later hx hu _ ih =>
    have hstays := hx.stays hr
    rw [hu] at hstays
    exact hstays.trans (ih hstays.bounded)

end Exec

/-! ## Programs -/

theorem Op.length_le_length_encodeAll (ops : List Op) : ops.length ≤ (encodeAll ops).length := by
  induction ops with
  | nil => exact Nat.le_refl _
  | cons op ops ih =>
    have hbyte : 0 < op.encode.length := by cases op <;> exact Nat.succ_pos _
    rw [encodeAll_cons, List.length_append, List.length_cons]
    omega

/-- Where an operation is said to start, one can be read. -/
theorem Bytecode.parse_drop_start {ops : List Op} {i start : Nat}
    (h : (ofOps ops).starts[i]? = some start) :
    start < (ofOps ops).bytes.size ∧
      ∃ op rest, Op.parse ((ofOps ops).bytes.toList.drop start) = some (.ok op, rest) := by
  obtain ⟨hi, -⟩ := Array.getElem?_eq_some_iff.mp h
  rw [size_starts_ofOps] at hi
  have hparse := parse_drop_ofOps hi h
  refine ⟨?_, _, _, hparse⟩
  -- past the end there is nothing to parse
  by_contra hend
  rw [List.drop_of_length_le (by rw [Array.length_toList]; omega)] at hparse
  cases hparse

namespace LazyBytecode

variable {p : LazyBytecode}

/-- Reading an operation maps the program that far. -/
theorem lt_size_of_access {l : Listing} (h : p.Maps l) {i : Nat} {op : Op}
    (hop : (p.access i).1 = some (.ok op)) :
    (p.access i).2.Maps l ∧ i < (p.access i).2.mapped.starts.size := by
  obtain ⟨haccess, hmaps⟩ := access_of_maps h i
  rw [haccess] at hop
  obtain ⟨mapped, unread⟩ := p
  have hfill := fill_of_maps h i
  rw [if_pos (Listing.lt_of_at? hop)] at hfill
  obtain ⟨q, hfound, hsize, -⟩ := hfill
  refine ⟨hmaps ⟨op, hop⟩, ?_⟩
  simp only [access, hfound]
  exact hsize

/-- No more is mapped than the code holds. -/
theorem size_le_of_maps {code : Code} (h : p.Maps (.ofCode code)) :
    p.mapped.starts.size ≤ code.length := by
  obtain ⟨seen, hseen, hlisting⟩ := h
  have hops : (Listing.ofCode code).ops.length = seen.length + (Listing.ofCode p.unread).ops.length := by
    rw [hlisting, List.length_append]
  have hencoded := Op.length_le_length_encodeAll (Listing.ofCode code).ops
  have hcode := (Listing.encodeAll_ops_prefix code).length_le
  rw [hseen, Bytecode.size_starts_ofOps]
  omega

theorem parse_of_maps {l : Listing} (h : p.Maps l) :
    ∀ start ∈ p.mapped.starts, start < p.mapped.bytes.size ∧
      ∃ op rest, Op.parse (p.mapped.bytes.toList.drop start) = some (.ok op, rest) := by
  obtain ⟨seen, hseen, -⟩ := h
  intro start hstart
  obtain ⟨i, hi⟩ := Array.mem_iff_getElem?.mp hstart
  rw [hseen] at hi ⊢
  exact Bytecode.parse_drop_start hi

end LazyBytecode

theorem Activation.access_of_next? {r : Activation σ} {op : Op} (h : r.next? = some op) :
    (r.program.access r.pc).1 = some (.ok op) := by
  unfold next? at h
  split at h
  · cases h
    assumption
  · cases h

/-! ## Runs -/

namespace Activation

variable [Source σ]

/-- The states that a frame under way comes by until it ends, each with the operation that it is
performing, if any. The frames below it are not looked into: each of them starts afresh. -/
inductive ComesBy (prices : Pricing) : Nat → Activation σ → Option Op → Activation σ → Prop
  | start {budget : Nat} {r : Activation σ} : ComesBy prices budget r none r
  /-- There is no operation to read. -/
  | idle {budget : Nat} {r : Activation σ} (h : r.next? = none) :
    ComesBy prices (budget + 1) r none { r with program := (r.program.access r.pc).2 }
  /-- An operation is paid for and performed. -/
  | within {budget : Nat} {r s : Activation σ} {op : Op} (h : r.next? = some op)
    (hs : Exec.Passes prices (Frame.run prices budget)
      (do Exec.charge (prices.opCost op); Exec.perform prices (Frame.run prices budget) op)
      { r with program := (r.program.access r.pc).2 } s) :
    ComesBy prices (budget + 1) r (some op) s
  /-- The frame goes on with its next operation. -/
  | onward {budget pc : Nat} {r u s : Activation σ} {now : Option Op}
    (h : Exec.step prices (Frame.run prices budget) r = .ok (.next pc) u)
    (hs : ComesBy prices budget { u with pc := pc } now s) : ComesBy prices (budget + 1) r now s

variable {prices : Pricing} {budget : Nat} {r s : Activation σ}

theorem built_paid (prices : Pricing) (run : Runner σ) (op : Op) :
    Exec.Built prices run (do Exec.charge (prices.opCost op); Exec.perform prices run op) :=
  (Exec.Built.charge _).bind fun _ => Exec.built_perform op

/-- What a step leaves is among what the frame comes by. -/
theorem comesBy_step (prices : Pricing) (budget : Nat) (r : Activation σ) :
    r.ComesBy prices (budget + 1) r.next? (Exec.step prices (Frame.run prices budget) r).state := by
  cases h : r.next? with
  | some op =>
    rw [Exec.step_of_next?_eq_some prices _ h]
    exact .within h (.done (built_paid prices _ op))
  | none =>
    obtain hend | ⟨e, hend⟩ := Exec.step_of_next?_eq_none prices (Frame.run prices budget) h
    · rw [hend]
      exact .idle h
    · rw [hend]
      exact .idle h

/-- A step keeps the bounds. -/
theorem bounded_step (prices : Pricing) (run : Runner σ) (hr : r.Bounded) :
    (Exec.step prices run r).state.Bounded ∧ (Exec.step prices run r).state.gas.limit = r.gas.limit := by
  have hread : Bounded { r with program := (r.program.access r.pc).2 } :=
    ⟨hr.stack, hr.aligned, hr.memory, hr.gas⟩
  cases h : r.next? with
  | some op =>
    have hstays := (built_paid prices run op).stays hread
    rw [Exec.step_of_next?_eq_some prices run h]
    exact ⟨hstays.bounded, hstays.limit⟩
  | none =>
    obtain hend | ⟨e, hend⟩ := Exec.step_of_next?_eq_none prices run h
    · rw [hend]
      exact ⟨hread, rfl⟩
    · rw [hend]
      exact ⟨hread, rfl⟩

/-- A frame that starts within the bounds stays within them, on the way through every operation. -/
theorem ComesBy.bounded {now : Option Op} (h : r.ComesBy prices budget now s) (hr : r.Bounded) :
    s.Bounded ∧ s.gas.limit = r.gas.limit := by
  induction h with
  | start => exact ⟨hr, rfl⟩
  | idle => exact ⟨⟨hr.stack, hr.aligned, hr.memory, hr.gas⟩, rfl⟩
  | within _ hs =>
    have hstays := hs.stays ⟨hr.stack, hr.aligned, hr.memory, hr.gas⟩
    exact ⟨hstays.bounded, hstays.limit⟩
  | @onward budget pc r u s now h _ ih =>
    obtain ⟨hbounded, hlimit⟩ := bounded_step prices (Frame.run prices budget) hr
    rw [h] at hbounded hlimit
    obtain ⟨hs, hlimit'⟩ := ih ⟨hbounded.stack, hbounded.aligned, hbounded.memory, hbounded.gas⟩
    exact ⟨hs, hlimit'.trans hlimit⟩

/-- While a frame performs an operation, its program is mapped past it. -/
theorem ComesBy.mapped {now : Option Op} {l : Listing} (h : r.ComesBy prices budget now s)
    (hr : r.Bounded) (hmaps : r.program.Maps l) {op : Op} (hnow : now = some op) :
    s.program.Maps l ∧ s.pc < s.program.mapped.starts.size := by
  induction h with
  | start | idle => cases hnow
  | within hop hs =>
    -- an operation moves neither the counter nor the program once it is read
    have hstays := hs.stays ⟨hr.stack, hr.aligned, hr.memory, hr.gas⟩
    rw [hstays.pc, hstays.program]
    exact LazyBytecode.lt_size_of_access hmaps (access_of_next? hop)
  | @onward budget pc r u s now h _ ih =>
    obtain ⟨hbounded, -⟩ := bounded_step prices (Frame.run prices budget) hr
    rw [h] at hbounded
    have hrest := (Exec.step_of_maps prices (Frame.run prices budget) hmaps r.program).2 pc u h
    exact ih ⟨hbounded.stack, hbounded.aligned, hbounded.memory, hbounded.gas⟩ hrest hnow

/-- A run leaves the transaction as it is when the frame last comes by, and no more gas than the frame
has then. -/
theorem exists_comesBy_of_finish (r : Activation σ) {outcome : Outcome} {after : Txn σ}
    (h : r.finish prices budget = .ok outcome after) :
    ∃ now s, r.ComesBy prices budget now s ∧ s.txn = after ∧ outcome.gasLeft ≤ s.gas.remaining := by
  induction budget generalizing r with
  | zero => cases h
  | succ budget ih =>
    have hlast := comesBy_step prices budget r
    rw [finish_succ] at h
    cases hstep : Exec.step prices (Frame.run prices budget) r with
    | error e s =>
      -- a frame that is halted is left no gas
      have hgas : s.gas.exhaust.remaining = 0 := Nat.sub_self _
      rw [hstep] at h hlast
      cases e with
      | abort cause => cases h
      | _ =>
        cases h
        exact ⟨_, s, hlast, rfl, hgas ▸ Nat.zero_le _⟩
    | ok next s =>
      rw [hstep] at h hlast
      cases next with
      | exit status output =>
        cases h
        exact ⟨_, s, hlast, rfl, Nat.le_refl _⟩
      | next pc =>
        obtain ⟨now, u, hu, htxn, hleft⟩ := ih { s with pc := pc } h
        exact ⟨now, u, .onward hstep hu, htxn, hleft⟩

end Activation

/-- Whatever the code, the prices and the state that a frame starts from, at every moment of its run the
stack is no higher than its limit, memory is made of whole words and no larger than its limit, and no
more gas is spent than the frame was given. Memory that is asked for fits the limit, and costs no less
than the memory there is. While an operation is performed, the program counter is below the number of
mapped operations, which is at most the number of bytes in the code, and where a mapped operation is said
to start one can be read. So a frame, and a transaction, ends with no more gas than it was given. -/
theorem resources_bounded [Source σ] (prices : Pricing) (budget : Nat) :
    (∀ (f : Frame) (code : Code) (gasLimit : Nat) (t : Txn σ),
      (∀ now s, (Activation.start f code gasLimit t).ComesBy prices budget now s →
        s.stack.words.length ≤ Stack.sizeLimit ∧
        s.memory.bytes.size % 32 = 0 ∧ s.memory.bytes.size ≤ Memory.sizeLimit ∧
        s.gas.limit = gasLimit ∧ s.gas.spent ≤ s.gas.limit ∧
        (∀ offset length words, s.memory.wordsRequired offset length = .ok words →
          32 * words ≤ Memory.sizeLimit ∧
          prices.schedule.memoryCost s.memory.words ≤ prices.schedule.memoryCost words) ∧
        ∀ op, now = some op →
          s.pc < s.program.mapped.starts.size ∧ s.program.mapped.starts.size ≤ code.length ∧
          ∀ start ∈ s.program.mapped.starts, start < s.program.mapped.bytes.size ∧
            ∃ op rest, Op.parse (s.program.mapped.bytes.toList.drop start) = some (.ok op, rest)) ∧
      ∀ outcome after, f.run prices budget code gasLimit t = .ok outcome after →
        (∃ now s, (Activation.start f code gasLimit t).ComesBy prices budget now s ∧ s.txn = after) ∧
        outcome.gasLeft ≤ gasLimit) ∧
    ∀ (tx : Transaction) (t after : Txn σ) (receipt : Receipt),
      tx.execute prices budget t = .ok receipt after →
        ∃ (code : Code) (paid left : Txn σ) (outcome : Outcome),
          tx.frame.run prices budget code tx.gasLimit paid = .ok outcome left ∧
          receipt.gasUsed = tx.gasLimit - outcome.gasLeft ∧ outcome.gasLeft ≤ tx.gasLimit := by
  have hleft : ∀ {f : Frame} {code : Code} {gasLimit : Nat} {t after : Txn σ} {outcome : Outcome},
      f.run prices budget code gasLimit t = .ok outcome after →
        (∃ now s, (Activation.start f code gasLimit t).ComesBy prices budget now s ∧ s.txn = after) ∧
        outcome.gasLeft ≤ gasLimit := by
    intro f code gasLimit t after outcome h
    obtain ⟨now, s, hs, htxn, hgas⟩ := Activation.exists_comesBy_of_finish _ h
    obtain ⟨-, hlimit⟩ := hs.bounded (Activation.bounded_start f code gasLimit t)
    have hlimit : s.gas.limit = gasLimit := hlimit
    have hremaining : s.gas.remaining ≤ s.gas.limit := Nat.sub_le ..
    exact ⟨⟨now, s, hs, htxn⟩, by omega⟩
  refine ⟨fun f code gasLimit t => ⟨fun now s hs => ?_, fun outcome after h => hleft h⟩,
    fun tx t after receipt h => ?_⟩
  · have hstart := Activation.bounded_start f code gasLimit t
    obtain ⟨hbounded, hlimit⟩ := hs.bounded hstart
    refine ⟨hbounded.stack, hbounded.aligned, hbounded.memory, hlimit, hbounded.gas,
      fun offset length words hw => ⟨?_, ?_⟩, fun op hnow => ?_⟩
    · exact Memory.le_of_wordsRequired hbounded.memory hw
    · exact prices.schedule.memoryCost_mono (Memory.words_le_of_wordsRequired hw)
    · obtain ⟨hmaps, hlt⟩ := hs.mapped hstart (LazyBytecode.maps_ofCode code) hnow
      exact ⟨hlt, LazyBytecode.size_le_of_maps hmaps, LazyBytecode.parse_of_maps hmaps⟩
  · obtain ⟨code, paid, left, outcome, hrun, hused⟩ := Transaction.run_of_execute h
    exact ⟨code, paid, left, outcome, hrun, hused, (hleft hrun).2⟩

/-- The guarded contract pushes a zero and loads the word at the start of memory, for which memory grows
to its first word. -/
theorem resources_bounded_load :
    let prices := ({} : GasSchedule).pricing
    let program := [.callValue, .mload]
    let code := Op.encodeAll program
    let t := Sample.withContracts [(Sample.guarded, program)]
    let f := Sample.frame .unrestricted
    let tx := Sample.transaction Sample.guarded
    (∃ s, (Activation.start f code 1000 t).ComesBy prices 9 (some .mload) s ∧
      s.memory.bytes.size = 32 ∧ s.gas.spent ≤ s.gas.limit ∧
      s.memory.wordsRequired 0 33 = .ok 2 ∧ 32 * 2 ≤ Memory.sizeLimit ∧
      s.pc < s.program.mapped.starts.size) ∧
    (∃ outcome after, f.run prices 9 code 1000 t = .ok outcome after ∧ outcome.gasLeft ≤ 1000) ∧
    ∃ receipt after, tx.execute prices 9 t = .ok receipt after ∧
      ∃ left, receipt.gasUsed = tx.gasLimit - left ∧ left ≤ tx.gasLimit := by
  intro prices program code t f tx
  obtain ⟨hframes, htransactions⟩ := resources_bounded (σ := Table) prices 9
  obtain ⟨hmoments, hends⟩ := hframes f code 1000 t
  refine ⟨?_, ?_, ?_⟩
  · have hsteps : (Exec.step prices (Frame.run prices 8) (.start f code 1000 t)).ok?.map (fun x =>
          let r := { x.2 with pc := 1 }
          (x.1, r.next?, (Exec.step prices (Frame.run prices 7) r).state.memory.bytes.size)) =
        some (.next 1, some .mload, 32) := by decide +kernel
    obtain ⟨next, u, hstep, hload⟩ := EStateM.Result.exists_of_ok? hsteps
    obtain ⟨hnext, hload⟩ := Prod.mk.inj hload
    obtain ⟨hop, hsize⟩ := Prod.mk.inj hload
    obtain rfl : next = .next 1 := hnext
    have hlast := Activation.comesBy_step prices 7 { u with pc := 1 }
    rw [hop] at hlast
    have hs := Activation.ComesBy.onward hstep hlast
    obtain ⟨-, -, -, -, hspent, hgrowth, hprogram⟩ := hmoments _ _ hs
    have hwords : ∀ m : Memory, m.bytes.size = 32 → m.wordsRequired 0 33 = .ok 2 := by
      intro m hm
      simp [Memory.wordsRequired, Memory.words, Memory.sizeLimit, hm]
    have hrequired := hwords _ hsize
    exact ⟨_, hs, hsize, hspent, hrequired, (hgrowth 0 33 2 hrequired).1, (hprogram .mload rfl).1⟩
  · have hruns : (f.run prices 9 code 1000 t).ok?.map (·.1.status) = some .success := by decide +kernel
    obtain ⟨outcome, after, hrun, -⟩ := EStateM.Result.exists_of_ok? hruns
    exact ⟨outcome, after, hrun, (hends outcome after hrun).2⟩
  · have hends : (tx.execute prices 9 t).ok?.map (·.1.status) = some .success := by decide +kernel
    obtain ⟨receipt, after, hexecute, -⟩ := EStateM.Result.exists_of_ok? hends
    obtain ⟨-, -, -, outcome, -, hused, hleft⟩ := htransactions tx t after receipt hexecute
    exact ⟨receipt, after, hexecute, outcome.gasLeft, hused, hleft⟩

end MutationGuard
