import MutationGuard.Proofs.Ensures
import MutationGuard.Proofs.Txn

/-!
Actions without a price. Gas goes in three places only: an operation's cost, the growth of memory, and
the frames that are entered. Every other action of a step leaves the meter, the size of memory and
the source as they are, and never ends because the steps ran out (`Free`).
-/

namespace MutationGuard.Exec

variable {σ α β ε : Type}

/-- Nothing has been paid between two states of a frame. -/
structure SameMeter (r s : Activation σ) : Prop where
  gas : s.gas = r.gas
  words : s.memory.words = r.memory.words
  base : s.txn.base = r.txn.base

theorem SameMeter.refl (r : Activation σ) : SameMeter r r := ⟨rfl, rfl, rfl⟩

theorem SameMeter.trans {r s u : Activation σ} (h : SameMeter r s) (h' : SameMeter s u) :
    SameMeter r u :=
  ⟨h'.gas.trans h.gas, h'.words.trans h.words, h'.base.trans h.base⟩

/-- The action costs nothing, whether it succeeds or fails. -/
def Free (x : Exec σ α) : Prop :=
  ∀ r, match x r with
    | .ok _ s => SameMeter r s
    | .error e s => SameMeter r s ∧ e ≠ .abort .outOfSteps

theorem Free.of_ok {x : Exec σ α} (hx : Free x) {r s : Activation σ} {a : α} (h : x r = .ok a s) :
    SameMeter r s := by
  have hr := hx r
  rw [h] at hr
  exact hr

theorem Free.of_error {x : Exec σ α} (hx : Free x) {r s : Activation σ} {e : OpError}
    (h : x r = .error e s) : SameMeter r s ∧ e ≠ .abort .outOfSteps := by
  have hr := hx r
  rw [h] at hr
  exact hr

theorem Free.bind {x : Exec σ α} {g : α → Exec σ β} (hx : Free x) (hg : ∀ a, Free (g a)) :
    Free (x >>= g) := by
  intro r
  cases hr : x r with
  | error e s =>
    rw [bind_of_error hr]
    exact hx.of_error hr
  | ok a s =>
    have hs := hx.of_ok hr
    rw [bind_of_ok hr]
    cases hgs : g a s with
    | ok b u => exact hs.trans ((hg a).of_ok hgs)
    | error e u =>
      obtain ⟨hu, he⟩ := (hg a).of_error hgs
      exact ⟨hs.trans hu, he⟩

theorem free_pure (a : α) : Free (pure a : Exec σ α) := fun r => SameMeter.refl r

theorem free_throw {e : OpError} (he : e ≠ .abort .outOfSteps) : Free (throw e : Exec σ α) :=
  fun r => ⟨SameMeter.refl r, he⟩

theorem free_get : Free (get : Exec σ (Activation σ)) := fun r => SameMeter.refl r

theorem Free.map {x : Exec σ α} (hx : Free x) (g : α → β) : Free (g <$> x) := by
  rw [map_eq_pure_bind]
  exact hx.bind fun a => free_pure (g a)

theorem free_frame : Free (frame : Exec σ Frame) := free_get.bind fun _ => free_pure _

theorem free_ofExcept {error : ε → OpError} (he : ∀ e, error e ≠ .abort .outOfSteps)
    (x : Except ε α) : Free (ofExcept error x : Exec σ α) := by
  cases x with
  | error e => exact free_throw (he e)
  | ok a => exact free_pure a

theorem onStack_eq (action : Stack.Action α) (r : Activation σ) :
    onStack action r =
      match action r.stack with
      | .ok a stack => .ok a { r with stack := stack }
      | .error e stack => .error (.stack e) { r with stack := stack } := rfl

theorem free_onStack (action : Stack.Action α) : Free (onStack action : Exec σ α) := by
  intro r
  rw [onStack_eq]
  cases action r.stack with
  | ok a stack => exact ⟨rfl, rfl, rfl⟩
  | error e stack => exact ⟨⟨rfl, rfl, rfl⟩, nofun⟩

theorem free_readState (read : Txn σ → Except Fault α) : Free (readState read : Exec σ α) :=
  free_get.bind fun _ => free_ofExcept (fun _ => by nofun) _

/-- Writes stay pending. -/
theorem free_writeState {write : Txn σ → Txn σ} (h : ∀ t, (write t).base = t.base) :
    Free (writeState write) :=
  fun r => ⟨rfl, rfl, h r.txn⟩

theorem free_requireMutable : Free (requireMutable : Exec σ Unit) :=
  free_frame.bind fun f => by
    split
    · exact free_throw nofun
    · exact free_pure _

theorem free_require (ms : List Mutation) : Free (require ms : Exec σ Unit) :=
  free_frame.bind fun _ => free_ofExcept (fun _ => by nofun) _

theorem free_counter (w : Word) : Free (counter w : Exec σ Nat) := by
  unfold counter
  split
  · exact free_pure _
  · exact free_throw nofun

theorem free_slice (offset length : Nat) : Free (slice offset length : Exec σ Bytes) :=
  free_get.bind fun _ => free_ofExcept (fun _ => by nofun) _

theorem Free.andNext {x : Exec σ Unit} (hx : Free x) : Free (andNext x) :=
  hx.bind fun _ => free_get.bind fun _ => free_pure _

/-! ## Operations -/

theorem free_destination (w : Word) : Free (destination w : Exec σ Nat) := by
  unfold destination
  split
  · exact free_pure _
  · exact free_throw nofun

theorem free_jump : Free (jump : Exec σ Nat) := (free_onStack _).bind fun _ => free_destination _

theorem free_jumpIf : Free (jumpIf : Exec σ Nat) :=
  (free_onStack _).bind fun (target, condition) => by
    dsimp only
    split
    · exact free_destination _
    · exact free_get.bind fun _ => free_pure _
    · exact free_throw nofun

theorem free_tload : Free (tload : Exec σ Unit) :=
  (free_onStack _).bind fun _ => free_get.bind fun _ => free_onStack _

theorem free_sstore : Free (sstore : Exec σ Unit) :=
  (free_onStack _).bind fun _ => free_requireMutable.bind fun _ => free_frame.bind fun _ =>
    (free_require _).bind fun _ => free_writeState fun _ => rfl

theorem free_tstore : Free (tstore : Exec σ Unit) :=
  (free_onStack _).bind fun _ => free_requireMutable.bind fun _ => free_frame.bind fun _ =>
    (free_require _).bind fun _ => free_writeState fun _ => rfl

section State

variable [Source σ]

theorem free_balance : Free (balance : Exec σ Unit) :=
  (free_onStack _).bind fun _ => (free_readState _).bind fun _ => free_onStack _

theorem free_selfBalance : Free (selfBalance : Exec σ Unit) :=
  free_frame.bind fun _ => (free_readState _).bind fun _ => free_onStack _

theorem free_codeHash : Free (codeHash : Exec σ Unit) :=
  (free_onStack _).bind fun _ => (free_readState _).bind fun _ => free_onStack _

theorem free_sload : Free (sload : Exec σ Unit) :=
  (free_onStack _).bind fun _ => free_frame.bind fun _ => (free_readState _).bind fun _ =>
    free_onStack _

theorem free_occupied (address : Address) : Free (occupied address : Exec σ Bool) :=
  (free_readState _).bind fun _ => by
    split
    · exact free_pure _
    · exact (free_readState _).bind fun _ => free_pure _

/-- Moving a balance, if it can be moved, and erasing the account. What is moved comes from the state
it is written back to. -/
theorem free_erase (address beneficiary : Address) (balance : Word) :
    Free
      (do let moved ← readState (·.transfer? address beneficiary balance)
          writeState fun t => (moved.getD t).destroy address : Exec σ Unit) := by
  intro r
  have hread := readState_eq (·.transfer? address beneficiary balance) r
  cases hm : r.txn.transfer? address beneficiary balance with
  | error fault =>
    rw [hm] at hread
    rw [bind_of_error hread]
    exact ⟨.refl r, nofun⟩
  | ok moved =>
    rw [hm] at hread
    rw [bind_of_ok hread]
    have hbase : (moved.getD r.txn).base = r.txn.base := Txn.base_getD_of_transfer? hm
    exact ⟨rfl, rfl, hbase⟩

theorem free_selfDestruct : Free (selfDestruct : Exec σ Unit) :=
  (free_onStack _).bind fun _ => free_requireMutable.bind fun _ => free_frame.bind fun _ =>
    (free_require _).bind fun _ => (free_readState _).bind fun _ => free_erase _ _ _

end State

end MutationGuard.Exec
