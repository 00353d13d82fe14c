import MutationGuard.Machine.Fragment
import MutationGuard.Proofs.Ensures
import MutationGuard.Scenario.Sample

/-!
Runs that keep a record. What a run returns says nothing of what happened inside it: a failure in a
called frame shows in its caller as a call without success, and is rolled back. A recorded run is the
run of the same program on a source that holds a list of events besides the accounts. The events of
each step are added to the list, in the frame itself and in every frame below, and a rollback leaves
them where they are. All else goes on as without the record (`Uniform`, for one action).
-/

namespace MutationGuard

/-- A source of account state, and a record of what was done. It answers as the source does. -/
structure Recorded (ε σ : Type) where
  source : σ
  events : List ε := []

variable {ε σ : Type}

instance [Source σ] : Source (Recorded ε σ) where
  balance s := Source.balance s.source
  nonce s := Source.nonce s.source
  code s := Source.code s.source
  storage s := Source.storage s.source

namespace Txn

/-- The events recorded so far, in order. -/
def events (t : Txn (Recorded ε σ)) : List ε := t.base.events

/-- The transaction with more events recorded. -/
def record (t : Txn (Recorded ε σ)) (events : List ε) : Txn (Recorded ε σ) :=
  { t with base := { t.base with events := t.base.events ++ events } }

/-- The transaction with an empty record. -/
def recording (t : Txn σ) : Txn (Recorded ε σ) := ⟨⟨t.base, []⟩, t.pending⟩

/-- The transaction without its record. -/
def plain (t : Txn (Recorded ε σ)) : Txn σ := ⟨t.base.source, t.pending⟩

end Txn

/-- What a step adds to the record, from the frame before it and from how it ends. -/
abbrev Note (ε σ : Type) :=
  Activation (Recorded ε σ) → EStateM.Result OpError (Activation (Recorded ε σ)) Step → List ε

/-- The error of a step that fails. -/
def Note.error : Note OpError σ
  | _, .ok _ _ => []
  | _, .error e _ => [e]

/-- One operation, and its events on record, whether it succeeds or fails. -/
def Exec.recorded [Source σ] (note : Note ε σ) (prices : Pricing) (run : Runner (Recorded ε σ)) :
    Exec (Recorded ε σ) Step := fun r =>
  let result := Exec.step prices run r
  result.mapState fun s => { s with txn := s.txn.record (note r result) }

/-- A recorded step leaves what the step leaves, and its events on record. -/
theorem Exec.state_recorded [Source σ] (note : Note ε σ) (prices : Pricing)
    (run : Runner (Recorded ε σ)) (r : Activation (Recorded ε σ)) :
    (recorded note prices run r).state =
      { (step prices run r).state with
        txn := (step prices run r).state.txn.record (note r (step prices run r)) } := by
  unfold recorded
  cases step prices run r <;> rfl

namespace Frame

/-- Runs the code of a frame and records the events of every step, of the frame and of all the frames
below it. -/
def recorded [Source σ] (note : Note ε σ) (prices : Pricing) (budget : Nat) :
    Runner (Recorded ε σ) :=
  fun frame code gasLimit txn =>
    (Activation.start frame code gasLimit txn).finishWith (Exec.recorded note prices) budget

/-- The errors that are raised while the code of a frame runs, in the frame and in all the frames
below it. -/
def errors [Source σ] (prices : Pricing) (budget : Nat) (f : Frame) (code : Code) (gasLimit : Nat)
    (t : Txn σ) : List OpError :=
  (f.recorded Note.error prices budget code gasLimit t.recording).state.events

/-- A denial halts the contract called and is rolled back with it, but stays on record. -/
example :
    (Sample.frame (.inherited ∅)).errors ({} : GasSchedule).pricing 9
      (Op.encodeAll (Fragment.call Sample.bob 0 5000)) 10000
      (Sample.withContracts [(Sample.bob, [.callValue, .caller, .sstore])]) =
        [.denied ⟨.storage Sample.bob ⟨0⟩⟩] := by
  decide +kernel

end Frame

/-! ## The state without the record -/

namespace Txn

/-- A transfer is refused or not whatever was recorded, and moves the same value. -/
theorem transfer?_plain [Source σ] (t : Txn (Recorded ε σ)) (sender recipient : Address)
    (value : Word) :
    t.plain.transfer? sender recipient value =
      (t.transfer? sender recipient value).map (Option.map plain) := by
  have hread : ∀ a, t.plain.balance a = t.balance a := fun _ => rfl
  unfold transfer?
  rw [hread sender, hread recipient]
  cases t.balance sender with
  | error fault => rfl
  | ok had =>
    simp only [bind, Except.bind]
    cases had.sub? value with
    | none => rfl
    | some left =>
      dsimp only
      split
      · rfl
      · cases t.balance recipient with
        | error fault => rfl
        | ok held =>
          dsimp only
          cases held.add? value <;> rfl

end Txn

/-- The frame under way with an empty record. -/
def Activation.recording (r : Activation σ) : Activation (Recorded ε σ) where
  frame := r.frame
  pc := r.pc
  stack := r.stack
  memory := r.memory
  gas := r.gas
  program := r.program
  txn := r.txn.recording

/-- The frame under way without the record, restricted by a guard of its own. -/
def Activation.plain (r : Activation (Recorded ε σ)) (guard : FrameGuard) : Activation σ where
  frame := { r.frame with guard := guard }
  pc := r.pc
  stack := r.stack
  memory := r.memory
  gas := r.gas
  program := r.program
  txn := r.txn.plain

namespace Exec

variable {α β γ : Type}

/-- The second action does without the record what the first one does with it, in a frame restricted
in any other way. -/
def Uniform (x : Exec (Recorded ε σ) α) (y : Exec σ α) : Prop :=
  ∀ r guard, y (r.plain guard) = (x r).mapState (·.plain guard)

theorem Uniform.bind {x : Exec (Recorded ε σ) α} {y : Exec σ α} {g : α → Exec (Recorded ε σ) β}
    {k : α → Exec σ β} (hx : Uniform x y) (hg : ∀ a, Uniform (g a) (k a)) :
    Uniform (x >>= g) (y >>= k) := by
  intro r guard
  have hy := hx r guard
  cases hr : x r with
  | ok a s =>
    rw [hr] at hy
    rw [bind_of_ok hr, bind_of_ok hy]
    exact hg a s guard
  | error e s =>
    rw [hr] at hy
    rw [bind_of_error hr, bind_of_error hy]
    rfl

theorem uniform_pure (a : α) : Uniform (pure a : Exec (Recorded ε σ) α) (pure a) :=
  fun _ _ => rfl

theorem uniform_throw (e : OpError) : Uniform (throw e : Exec (Recorded ε σ) α) (throw e) :=
  fun _ _ => rfl

/-- What is done with a frame under way is done with its plain view. -/
theorem uniform_get {g : Activation (Recorded ε σ) → Exec (Recorded ε σ) α}
    {k : Activation σ → Exec σ α} (h : ∀ r guard, Uniform (g r) (k (r.plain guard))) :
    Uniform (get >>= g) (get >>= k) :=
  fun r guard => h r guard r guard

theorem uniform_frame {g : Frame → Exec (Recorded ε σ) α} {k : Frame → Exec σ α}
    (h : ∀ f guard, Uniform (g f) (k { f with guard := guard })) :
    Uniform (frame >>= g) (frame >>= k) :=
  fun r guard => h r.frame guard r guard

theorem uniform_ofExcept (error : γ → OpError) (e : Except γ α) :
    Uniform (ofExcept error e : Exec (Recorded ε σ) α) (ofExcept error e) := by
  cases e with
  | error e => exact uniform_throw _
  | ok a => exact uniform_pure a

theorem uniform_onStack (action : Stack.Action α) :
    Uniform (onStack action : Exec (Recorded ε σ) α) (onStack action) := by
  intro r guard
  unfold onStack Activation.plain
  cases h : action r.stack <;> simp [h, EStateM.Result.mapState]

theorem uniform_onMemory (action : EStateM MemoryError Memory α) :
    Uniform (onMemory action : Exec (Recorded ε σ) α) (onMemory action) := by
  intro r guard
  unfold onMemory Activation.plain
  cases h : action r.memory <;> simp [h, EStateM.Result.mapState]

theorem uniform_fetch : Uniform (fetch : Exec (Recorded ε σ) (Option Op)) fetch := by
  intro r guard
  unfold fetch Activation.plain
  rcases h : r.program.access r.pc with ⟨_ | _ | _, _⟩ <;> simp [h, EStateM.Result.mapState]

theorem uniform_charge (gas : Nat) : Uniform (charge gas : Exec (Recorded ε σ) Unit) (charge gas) := by
  intro r guard
  have hgas : (r.plain guard).gas = r.gas := rfl
  rw [charge_eq, charge_eq, hgas]
  cases r.gas.charge gas <;> rfl

theorem uniform_readState {read : Txn (Recorded ε σ) → Except Fault α}
    {read' : Txn σ → Except Fault α} (h : ∀ t, read' t.plain = read t) :
    Uniform (readState read) (readState read') :=
  uniform_get fun r guard => by
    have hr : read' (r.plain guard).txn = read r.txn := h r.txn
    rw [hr]
    exact uniform_ofExcept _ _

theorem uniform_writeState {write : Txn (Recorded ε σ) → Txn (Recorded ε σ)}
    {write' : Txn σ → Txn σ} (h : ∀ t, write' t.plain = (write t).plain) :
    Uniform (writeState write) (writeState write') := by
  intro r guard
  have hw : write' (r.plain guard).txn = (write r.txn).plain := h r.txn
  change EStateM.Result.ok () { r.plain guard with txn := write' (r.plain guard).txn } = _
  rw [hw]
  rfl

/-! ## Operations that do not look at the guard -/

theorem uniform_requireMutable : Uniform (requireMutable : Exec (Recorded ε σ) Unit) requireMutable :=
  uniform_frame fun f _ => by
    dsimp only
    split
    · exact uniform_throw _
    · exact uniform_pure _

theorem uniform_counter (w : Word) : Uniform (counter w : Exec (Recorded ε σ) Nat) (counter w) := by
  unfold counter
  split
  · exact uniform_pure _
  · exact uniform_throw _

theorem uniform_expand (prices : Pricing) (offset length : Nat) :
    Uniform (expand prices offset length : Exec (Recorded ε σ) Unit) (expand prices offset length) :=
  uniform_get fun _ _ => (uniform_ofExcept _ _).bind fun _ => (uniform_charge _).bind fun _ =>
    uniform_onMemory _

theorem uniform_slice (offset length : Nat) :
    Uniform (slice offset length : Exec (Recorded ε σ) Bytes) (slice offset length) :=
  uniform_get fun _ _ => uniform_ofExcept _ _

theorem uniform_popRange (prices : Pricing) :
    Uniform (popRange prices : Exec (Recorded ε σ) Bytes) (popRange prices) :=
  (uniform_onStack _).bind fun _ => (uniform_counter _).bind fun _ =>
    (uniform_counter _).bind fun _ => (uniform_expand _ _ _).bind fun _ => uniform_slice _ _

theorem uniform_mload (prices : Pricing) :
    Uniform (mload prices : Exec (Recorded ε σ) Unit) (mload prices) :=
  (uniform_onStack _).bind fun _ => (uniform_counter _).bind fun _ =>
    (uniform_expand _ _ _).bind fun _ => uniform_get fun _ _ =>
      (uniform_ofExcept _ _).bind fun _ => uniform_onStack _

theorem uniform_mstore (prices : Pricing) :
    Uniform (mstore prices : Exec (Recorded ε σ) Unit) (mstore prices) :=
  (uniform_onStack _).bind fun _ => (uniform_counter _).bind fun _ =>
    (uniform_expand _ _ _).bind fun _ => uniform_onMemory _

theorem uniform_mstore8 (prices : Pricing) :
    Uniform (mstore8 prices : Exec (Recorded ε σ) Unit) (mstore8 prices) :=
  (uniform_onStack _).bind fun _ => (uniform_counter _).bind fun _ =>
    (uniform_expand _ _ _).bind fun _ => uniform_onMemory _

theorem uniform_destination (w : Word) :
    Uniform (destination w : Exec (Recorded ε σ) Nat) (destination w) := by
  unfold destination
  split
  · exact uniform_pure _
  · exact uniform_throw _

theorem uniform_jump : Uniform (jump : Exec (Recorded ε σ) Nat) jump :=
  (uniform_onStack _).bind fun _ => uniform_destination _

theorem uniform_jumpIf : Uniform (jumpIf : Exec (Recorded ε σ) Nat) jumpIf :=
  (uniform_onStack _).bind fun (target, condition) => by
    dsimp only
    split
    · exact uniform_destination _
    · exact uniform_get fun _ _ => uniform_pure _
    · exact uniform_throw _

theorem uniform_tload : Uniform (tload : Exec (Recorded ε σ) Unit) tload :=
  (uniform_onStack _).bind fun _ => uniform_get fun _ _ => uniform_onStack _

section State

variable [Source σ]

theorem uniform_balance : Uniform (balance : Exec (Recorded ε σ) Unit) balance :=
  (uniform_onStack _).bind fun _ => (uniform_readState fun _ => rfl).bind fun _ =>
    uniform_onStack _

theorem uniform_selfBalance : Uniform (selfBalance : Exec (Recorded ε σ) Unit) selfBalance :=
  uniform_frame fun _ _ => (uniform_readState fun _ => rfl).bind fun _ => uniform_onStack _

theorem uniform_codeHash : Uniform (codeHash : Exec (Recorded ε σ) Unit) codeHash :=
  (uniform_onStack _).bind fun _ => (uniform_readState fun _ => rfl).bind fun _ =>
    uniform_onStack _

theorem uniform_sload : Uniform (sload : Exec (Recorded ε σ) Unit) sload :=
  (uniform_onStack _).bind fun _ => uniform_frame fun _ _ =>
    (uniform_readState fun _ => rfl).bind fun _ => uniform_onStack _

theorem uniform_occupied (address : Address) :
    Uniform (occupied address : Exec (Recorded ε σ) Bool) (occupied address) :=
  (uniform_readState fun _ => rfl).bind fun _ => by
    split
    · exact uniform_pure _
    · exact (uniform_readState fun _ => rfl).bind fun _ => uniform_pure _

end State

end Exec
end MutationGuard
