import MutationGuard.Machine.Run
import MutationGuard.Proofs.Restriction

/-!
Actions seen from the frame and the transaction they start in. `Ensures f t x ok fail` says what an
action leaves of the two when it starts in frame `f` on transaction `t`, whatever the program
counter, stack, memory, gas and program are. One rule for each action of a step, and `Ensures.bind`
to put them one after the other, so that an operation is followed statement by statement. Most
actions leave both as they are; `Quiet` says so once for an action of any length.
-/

namespace EStateM.Result

/-- The state that a computation leaves, whether it succeeds or fails. -/
def state {ε σ α : Type} : EStateM.Result ε σ α → σ
  | .ok _ s | .error _ s => s

/-- The same end with the state seen through `view`. -/
def mapState {ε σ τ α : Type} (view : σ → τ) : EStateM.Result ε σ α → EStateM.Result ε τ α
  | .ok a s => .ok a (view s)
  | .error e s => .error e (view s)

section View

variable {ε σ τ α : Type} {view : σ → τ} {x : EStateM.Result ε σ α} {t : τ}

theorem state_mapState : (x.mapState view).state = view x.state := by
  cases x <;> rfl

theorem ok_of_mapState {a : α} (h : x.mapState view = .ok a t) :
    ∃ s, x = .ok a s ∧ view s = t := by
  cases x with
  | ok b s =>
    cases h
    exact ⟨s, rfl, rfl⟩
  | error e s => cases h

theorem error_of_mapState {e : ε} (h : x.mapState view = .error e t) :
    ∃ s, x = .error e s ∧ view s = t := by
  cases x with
  | ok b s => cases h
  | error e' s =>
    cases h
    exact ⟨s, rfl, rfl⟩

end View

/-- What a computation that succeeds gives and leaves. -/
def ok? {ε σ α : Type} : EStateM.Result ε σ α → Option (α × σ)
  | .ok a s => some (a, s)
  | .error _ _ => none

theorem exists_of_ok? {ε σ α β : Type} {x : EStateM.Result ε σ α} {view : α × σ → β} {b : β}
    (h : x.ok?.map view = some b) : ∃ a s, x = .ok a s ∧ view (a, s) = b := by
  cases x with
  | ok a s => exact ⟨a, s, rfl, Option.some.inj h⟩
  | error e s => cases h

end EStateM.Result

namespace MutationGuard

/-- The operation that a frame under way is about to perform, if its code has one there. -/
def Activation.next? {σ : Type} (r : Activation σ) : Option Op :=
  match (r.program.access r.pc).1 with
  | some (.ok op) => some op
  | _ => none

end MutationGuard

namespace MutationGuard.Exec

variable {σ α β ε : Type} {f : Frame} {t : Txn σ}

theorem bind_of_ok {x : Exec σ α} {g : α → Exec σ β} {r s : Activation σ} {a : α}
    (h : x r = .ok a s) : (x >>= g) r = g a s := by
  simp only [bind, EStateM.bind, h]

theorem bind_of_error {x : Exec σ α} {g : α → Exec σ β} {r s : Activation σ} {e : OpError}
    (h : x r = .error e s) : (x >>= g) r = .error e s := by
  simp only [bind, EStateM.bind, h]

/-- An action that succeeds has first done the one part and then the other. -/
theorem ok_of_bind {x : Exec σ α} {g : α → Exec σ β} {r u : Activation σ} {b : β}
    (h : (x >>= g) r = .ok b u) : ∃ a s, x r = .ok a s ∧ g a s = .ok b u := by
  cases hr : x r with
  | ok a s =>
    rw [bind_of_ok hr] at h
    exact ⟨a, s, rfl, h⟩
  | error e s =>
    rw [bind_of_error hr] at h
    cases h

theorem bind_get {g : Activation σ → Exec σ β} (r : Activation σ) : (get >>= g) r = g r r := rfl

theorem readState_eq (read : Txn σ → Except Fault α) (r : Activation σ) :
    readState read r =
      match read r.txn with
      | .ok a => .ok a r
      | .error fault => .error (.abort (.state fault)) r := by
  unfold readState
  rw [bind_get]
  cases read r.txn <;> rfl

theorem charge_eq (gas : Nat) (r : Activation σ) :
    charge gas r =
      match r.gas.charge gas with
      | .ok meter => .ok () { r with gas := meter }
      | .error e => .error (.outOfGas e) r := by
  unfold charge
  rw [bind_get]
  cases r.gas.charge gas <;> rfl

/-- Reading the operation at the program counter, which maps the program as far as it has to. -/
theorem fetch_eq (r : Activation σ) :
    fetch r =
      match (r.program.access r.pc).1 with
      | none => .ok none { r with program := (r.program.access r.pc).2 }
      | some (.ok op) => .ok (some op) { r with program := (r.program.access r.pc).2 }
      | some (.error e) => .error (.bytecode e) { r with program := (r.program.access r.pc).2 } := by
  obtain ⟨frame, pc, stack, memory, gas, program, txn⟩ := r
  unfold fetch
  dsimp only
  rcases program.access pc with ⟨_ | _ | _, _⟩ <;> rfl

/-- What an action started in a frame on a transaction ensures of those it leaves: `ok` together with
the value it gives, `fail` if it fails. -/
def Ensures (f : Frame) (t : Txn σ) (x : Exec σ α) (ok : α → Frame → Txn σ → Prop)
    (fail : Frame → Txn σ → Prop) : Prop :=
  ∀ r, r.frame = f → r.txn = t →
    match x r with
    | .ok a s => ok a s.frame s.txn
    | .error _ s => fail s.frame s.txn

/-- The action leaves the frame's context and the transaction alone. -/
def Quiet (x : Exec σ α) : Prop :=
  ∀ f t, Ensures f t x (fun _ f' t' => f' = f ∧ t' = t) fun f' t' => f' = f ∧ t' = t

section Rules

variable {ok : β → Frame → Txn σ → Prop} {fail : Frame → Txn σ → Prop}

theorem Ensures.bind {x : Exec σ α} {g : α → Exec σ β}
    (h : Ensures f t x (fun a f' t' => Ensures f' t' (g a) ok fail) fail) :
    Ensures f t (x >>= g) ok fail := by
  intro r hf ht
  have hx := h r hf ht
  cases hr : x r with
  | ok a s =>
    rw [hr] at hx
    rw [bind_of_ok hr]
    exact hx s rfl rfl
  | error e s =>
    rw [hr] at hx
    rw [bind_of_error hr]
    exact hx

theorem Ensures.weaken {x : Exec σ β} {ok' : β → Frame → Txn σ → Prop}
    {fail' : Frame → Txn σ → Prop} (h : Ensures f t x ok fail)
    (hok : ∀ b f' t', ok b f' t' → ok' b f' t') (hfail : ∀ f' t', fail f' t' → fail' f' t') :
    Ensures f t x ok' fail' := by
  intro r hf ht
  have hx := h r hf ht
  cases hr : x r with
  | ok b s =>
    rw [hr] at hx
    exact hok b _ _ hx
  | error e s =>
    rw [hr] at hx
    exact hfail _ _ hx

theorem Ensures.of_ok {x : Exec σ β} (h : Ensures f t x ok fail) {r s : Activation σ} {b : β}
    (hr : x r = .ok b s) (hf : r.frame = f) (ht : r.txn = t) : ok b s.frame s.txn := by
  have hx := h r hf ht
  rw [hr] at hx
  exact hx

theorem Ensures.of_error {x : Exec σ β} (h : Ensures f t x ok fail) {r s : Activation σ}
    {e : OpError} (hr : x r = .error e s) (hf : r.frame = f) (ht : r.txn = t) :
    fail s.frame s.txn := by
  have hx := h r hf ht
  rw [hr] at hx
  exact hx

/-- What is ensured in either case holds of the frame and the transaction that are left. -/
theorem Ensures.state {x : Exec σ β} (h : Ensures f t x (fun _ => fail) fail) {r : Activation σ}
    (hf : r.frame = f) (ht : r.txn = t) : fail (x r).state.frame (x r).state.txn := by
  have hx := h r hf ht
  cases hr : x r <;> rw [hr] at hx <;> exact hx

theorem Quiet.ensures {x : Exec σ β} (hx : Quiet x) (hok : ∀ b, ok b f t) (hfail : fail f t) :
    Ensures f t x ok fail := by
  refine (hx f t).weaken (fun b f' t' h => ?_) fun f' t' h => ?_
  · rw [h.1, h.2]
    exact hok b
  · rw [h.1, h.2]
    exact hfail

/-- A quiet action in front changes nothing but the value that the rest is given. -/
theorem Quiet.then {x : Exec σ α} {g : α → Exec σ β} (hx : Quiet x)
    (hg : ∀ a, Ensures f t (g a) ok fail) (hfail : fail f t) : Ensures f t (x >>= g) ok fail :=
  Ensures.bind (hx.ensures hg hfail)

theorem ensures_pure {b : β} (h : ok b f t) : Ensures f t (pure b) ok fail := by
  rintro r rfl rfl
  exact h

theorem ensures_throw {e : OpError} (h : fail f t) : Ensures f t (throw e : Exec σ β) ok fail := by
  rintro r rfl rfl
  exact h

theorem ensures_get {ok : Activation σ → Frame → Txn σ → Prop}
    (h : ∀ r : Activation σ, r.frame = f → r.txn = t → ok r f t) : Ensures f t get ok fail := by
  rintro r rfl rfl
  exact h r rfl rfl

end Rules

/-! ## Quiet actions -/

theorem quiet_pure (a : α) : Quiet (pure a : Exec σ α) := fun _ _ => ensures_pure ⟨rfl, rfl⟩

theorem quiet_throw (e : OpError) : Quiet (throw e : Exec σ α) :=
  fun _ _ => ensures_throw ⟨rfl, rfl⟩

theorem Quiet.bind {x : Exec σ α} {g : α → Exec σ β} (hx : Quiet x) (hg : ∀ a, Quiet (g a)) :
    Quiet (x >>= g) :=
  fun f t => hx.then (fun a => hg a f t) ⟨rfl, rfl⟩

theorem Quiet.map {x : Exec σ α} (hx : Quiet x) (g : α → β) : Quiet (g <$> x) := by
  rw [map_eq_pure_bind]
  exact hx.bind fun a => quiet_pure (g a)

theorem quiet_get : Quiet (get : Exec σ (Activation σ)) :=
  fun _ _ => ensures_get fun _ _ _ => ⟨rfl, rfl⟩

theorem quiet_frame : Quiet (frame : Exec σ Frame) := quiet_get.bind fun _ => quiet_pure _

theorem quiet_ofExcept (error : ε → OpError) (e : Except ε α) :
    Quiet (ofExcept error e : Exec σ α) := by
  cases e with
  | error e => exact quiet_throw _
  | ok a => exact quiet_pure a

theorem quiet_onStack (action : Stack.Action α) : Quiet (onStack action : Exec σ α) := by
  rintro f t ⟨frame, pc, stack, memory, gas, program, txn⟩ rfl rfl
  unfold onStack
  cases h : action stack <;> simp [h]

theorem quiet_onMemory (action : EStateM MemoryError Memory α) :
    Quiet (onMemory action : Exec σ α) := by
  rintro f t ⟨frame, pc, stack, memory, gas, program, txn⟩ rfl rfl
  unfold onMemory
  cases h : action memory <;> simp [h]

theorem quiet_fetch : Quiet (fetch : Exec σ (Option Op)) := by
  rintro f t ⟨frame, pc, stack, memory, gas, program, txn⟩ rfl rfl
  unfold fetch
  rcases h : program.access pc with ⟨_ | _ | _, _⟩ <;> simp [h]

theorem quiet_charge (gas : Nat) : Quiet (charge gas : Exec σ Unit) := by
  intro f t r hf ht
  rw [charge_eq]
  cases r.gas.charge gas with
  | ok meter => exact ⟨hf, ht⟩
  | error e => exact ⟨hf, ht⟩

theorem quiet_readState (read : Txn σ → Except Fault α) : Quiet (readState read : Exec σ α) :=
  quiet_get.bind fun _ => quiet_ofExcept _ _

theorem quiet_requireMutable : Quiet (requireMutable : Exec σ Unit) :=
  quiet_frame.bind fun f => by
    split
    · exact quiet_throw _
    · exact quiet_pure _

theorem quiet_counter (w : Word) : Quiet (counter w : Exec σ Nat) := by
  unfold counter
  split
  · exact quiet_pure _
  · exact quiet_throw _

theorem quiet_expand (prices : Pricing) (offset length : Nat) :
    Quiet (expand prices offset length : Exec σ Unit) :=
  quiet_get.bind fun _ => (quiet_ofExcept _ _).bind fun _ =>
    (quiet_charge _).bind fun _ => quiet_onMemory _

theorem quiet_slice (offset length : Nat) : Quiet (slice offset length : Exec σ Bytes) :=
  quiet_get.bind fun _ => quiet_ofExcept _ _

theorem quiet_popRange (prices : Pricing) : Quiet (popRange prices : Exec σ Bytes) :=
  (quiet_onStack _).bind fun _ => (quiet_counter _).bind fun _ => (quiet_counter _).bind fun _ =>
    (quiet_expand _ _ _).bind fun _ => quiet_slice _ _

theorem quiet_mload (prices : Pricing) : Quiet (mload prices : Exec σ Unit) :=
  (quiet_onStack _).bind fun _ => (quiet_counter _).bind fun _ => (quiet_expand _ _ _).bind fun _ =>
    quiet_get.bind fun _ => (quiet_ofExcept _ _).bind fun _ => quiet_onStack _

theorem quiet_mstore (prices : Pricing) : Quiet (mstore prices : Exec σ Unit) :=
  (quiet_onStack _).bind fun _ => (quiet_counter _).bind fun _ => (quiet_expand _ _ _).bind fun _ =>
    quiet_onMemory _

theorem quiet_mstore8 (prices : Pricing) : Quiet (mstore8 prices : Exec σ Unit) :=
  (quiet_onStack _).bind fun _ => (quiet_counter _).bind fun _ => (quiet_expand _ _ _).bind fun _ =>
    quiet_onMemory _

theorem quiet_destination (w : Word) : Quiet (destination w : Exec σ Nat) := by
  unfold destination
  split
  · exact quiet_pure _
  · exact quiet_throw _

theorem quiet_jump : Quiet (jump : Exec σ Nat) := (quiet_onStack _).bind fun _ => quiet_destination _

theorem quiet_jumpIf : Quiet (jumpIf : Exec σ Nat) :=
  (quiet_onStack _).bind fun (target, condition) => by
    dsimp only
    split
    · exact quiet_destination _
    · exact quiet_get.bind fun _ => quiet_pure _
    · exact quiet_throw _

theorem quiet_tload : Quiet (tload : Exec σ Unit) :=
  (quiet_onStack _).bind fun _ => quiet_get.bind fun _ => quiet_onStack _

section State

variable [Source σ]

theorem quiet_balance : Quiet (balance : Exec σ Unit) :=
  (quiet_onStack _).bind fun _ => (quiet_readState _).bind fun _ => quiet_onStack _

theorem quiet_selfBalance : Quiet (selfBalance : Exec σ Unit) :=
  quiet_frame.bind fun _ => (quiet_readState _).bind fun _ => quiet_onStack _

theorem quiet_codeHash : Quiet (codeHash : Exec σ Unit) :=
  (quiet_onStack _).bind fun _ => (quiet_readState _).bind fun _ => quiet_onStack _

theorem quiet_sload : Quiet (sload : Exec σ Unit) :=
  (quiet_onStack _).bind fun _ => quiet_frame.bind fun _ => (quiet_readState _).bind fun _ =>
    quiet_onStack _

theorem quiet_occupied (address : Address) : Quiet (occupied address : Exec σ Bool) :=
  (quiet_readState _).bind fun _ => by
    split
    · exact quiet_pure _
    · exact (quiet_readState _).bind fun _ => quiet_pure _

end State

/-! ## Actions that read, check and write -/

section Rules

variable {ok : β → Frame → Txn σ → Prop} {fail : Frame → Txn σ → Prop}

theorem ensures_frame {ok : Frame → Frame → Txn σ → Prop} (h : ok f f t) :
    Ensures f t frame ok fail :=
  Ensures.bind (ensures_get fun _ hf _ => ensures_pure (hf ▸ h))

theorem ensures_readState {read : Txn σ → Except Fault β} (h : ∀ b, read t = .ok b → ok b f t)
    (hfail : fail f t) : Ensures f t (readState read) ok fail := by
  refine Ensures.bind (ensures_get fun r _ ht => ?_)
  rw [ht]
  cases hr : read t with
  | ok b => exact ensures_pure (h b hr)
  | error fault => exact ensures_throw hfail

theorem ensures_writeState {ok : Unit → Frame → Txn σ → Prop} {write : Txn σ → Txn σ}
    (h : ok () f (write t)) : Ensures f t (writeState write) ok fail := by
  rintro r rfl rfl
  exact h

theorem ensures_requireMutable {ok : Unit → Frame → Txn σ → Prop}
    (h : f.isStatic = false → ok () f t) (hfail : fail f t) :
    Ensures f t requireMutable ok fail := by
  refine Ensures.bind (ensures_frame ?_)
  cases hs : f.isStatic with
  | true => exact ensures_throw hfail
  | false => exact ensures_pure (h hs)

theorem ensures_require {ok : Unit → Frame → Txn σ → Prop} {ms : List Mutation}
    (h : (∀ m ∈ ms, f.guard.permits m = true) → ok () f t) (hfail : fail f t) :
    Ensures f t (require ms) ok fail := by
  refine Ensures.bind (ensures_frame ?_)
  cases hc : f.guard.checkAll ms with
  | ok _ => exact ensures_pure (h ((FrameGuard.checkAll_eq_ok_iff _ _).mp hc))
  | error _ => exact ensures_throw hfail

theorem Ensures.andNext {x : Exec σ Unit} (h : Ensures f t x (fun _ => fail) fail) :
    Ensures f t (andNext x) (fun _ => fail) fail := by
  refine Ensures.bind (h.weaken (fun _ f' t' he => ?_) fun _ _ he => he)
  exact quiet_get.then (fun _ => ensures_pure he) he

end Rules

/-! ## Whole steps -/

section Step

variable [Source σ]

/-- A step whose operation is known: what is left of it once the operation is read. -/
theorem step_of_access (prices : Pricing) (run : Runner σ) {r : Activation σ} {op : Op}
    (h : (r.program.access r.pc).1 = some (.ok op)) :
    step prices run r = (do charge (prices.opCost op); perform prices run op)
      { r with program := (r.program.access r.pc).2 } := by
  have hfetch := fetch_eq r
  rw [h] at hfetch
  exact bind_of_ok hfetch

theorem step_of_next?_eq_some (prices : Pricing) (run : Runner σ) {r : Activation σ} {op : Op}
    (h : r.next? = some op) :
    step prices run r = (do charge (prices.opCost op); perform prices run op)
      { r with program := (r.program.access r.pc).2 } := by
  unfold Activation.next? at h
  split at h
  · cases h
    exact step_of_access prices run (by assumption)
  · cases h

/-- A step without an operation: the code has come to its end, or cannot be read. -/
theorem step_of_next?_eq_none (prices : Pricing) (run : Runner σ) {r : Activation σ}
    (h : r.next? = none) :
    step prices run r = .ok (.exit .success []) { r with program := (r.program.access r.pc).2 } ∨
      ∃ e, step prices run r =
        .error (.bytecode e) { r with program := (r.program.access r.pc).2 } := by
  have hfetch := fetch_eq r
  unfold Activation.next? at h
  cases hfound : (r.program.access r.pc).1 with
  | none =>
    rw [hfound] at hfetch
    exact .inl (bind_of_ok hfetch)
  | some parsed =>
    rw [hfound] at hfetch h
    cases parsed with
    | ok op => cases h
    | error e => exact .inr ⟨e, bind_of_error hfetch⟩

end Step

end MutationGuard.Exec
