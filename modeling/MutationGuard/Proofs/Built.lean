import MutationGuard.Proofs.Spending

/-!
The actions that operations are made of. Every operation is put together from a few basic actions: it
takes and pushes words, grows and writes memory, spends gas, looks at the frame under way, writes the
transaction, changes the restriction, enters a frame. What holds of these and of one action after
another holds of every operation (`built_perform`), by one induction. The program is none of an
operation's business: it neither looks at it nor changes it (`Built.replaceProgram`).
-/

namespace MutationGuard

/-- The frame under way with another program. -/
def Activation.withProgram {σ : Type} (r : Activation σ) (program : LazyBytecode) : Activation σ :=
  { r with program := program }

namespace Exec

variable {σ α β ε : Type}

/-- The actions put together from basic ones, where `run` runs the frames that are entered. -/
inductive Built (prices : Pricing) (run : Runner σ) : {α : Type} → Exec σ α → Prop
  | pure {α : Type} (a : α) : Built prices run (pure a)
  | throw {α : Type} (e : OpError) : Built prices run (throw e : Exec σ α)
  | bind {α β : Type} {x : Exec σ α} {g : α → Exec σ β} (hx : Built prices run x)
    (hg : ∀ a, Built prices run (g a)) : Built prices run (x >>= g)
  /-- Looks at the frame under way, at anything but its program. -/
  | look {α : Type} {g : Activation σ → Exec σ α} (hg : ∀ r, Built prices run (g r))
    (hprogram : ∀ r program, g (r.withProgram program) = g r) : Built prices run (get >>= g)
  | push (w : Word) : Built prices run (onStack (Stack.push w))
  | pop : Built prices run (onStack Stack.pop)
  | charge (gas : Nat) : Built prices run (charge gas)
  | expand (offset length : Nat) : Built prices run (expand prices offset length)
  | store (offset : Nat) (data : Bytes) : Built prices run (onMemory (Memory.store offset data))
  | write (write : Txn σ → Txn σ) : Built prices run (writeState write)
  | restrict (change : FrameGuard → FrameGuard) : Built prices run
      (modify fun r => { r with frame := { r.frame with guard := change r.frame.guard } })
  | enter (child : Frame) (code : Code) (requested : Word)
    (prepare : Txn σ → Except Fault (Option (Txn σ))) :
    Built prices run (enter run child code requested prepare)

section Actions

variable {prices : Pricing} {run : Runner σ}

theorem Built.map {x : Exec σ α} (hx : Built prices run x) (g : α → β) :
    Built prices run (g <$> x) := by
  rw [map_eq_pure_bind]
  exact hx.bind fun a => .pure (g a)

theorem Built.andNext {x : Exec σ Unit} (hx : Built prices run x) :
    Built prices run (andNext x) :=
  hx.bind fun _ => .look (fun _ => .pure _) fun _ _ => rfl

theorem built_frame {g : Frame → Exec σ α} (hg : ∀ f, Built prices run (g f)) :
    Built prices run (frame >>= g) :=
  .look (fun r => hg r.frame) fun _ _ => rfl

theorem built_ofExcept (error : ε → OpError) (e : Except ε α) :
    Built prices run (ofExcept error e) := by
  cases e with
  | error e => exact .throw _
  | ok a => exact .pure a

theorem built_readState (read : Txn σ → Except Fault α) : Built prices run (readState read) :=
  .look (fun _ => built_ofExcept _ _) fun _ _ => rfl

/-- One stack action after another is one action on the stack. -/
theorem onStack_bind (x : Stack.Action α) (g : α → Stack.Action β) :
    (onStack (x >>= g) : Exec σ β) = onStack x >>= fun a => onStack (g a) := by
  funext r
  simp only [onStack, bind, EStateM.bind]
  cases x r.stack <;> rfl

theorem built_pop2 : Built prices run (onStack Stack.pop2 : Exec σ (Word × Word)) := by
  rw [Stack.pop2, onStack_bind]
  refine .bind .pop fun b => ?_
  rw [onStack_bind]
  exact .bind .pop fun a => .pure (a, b)

theorem built_pop3 : Built prices run (onStack Stack.pop3 : Exec σ (Word × Word × Word)) := by
  rw [Stack.pop3, onStack_bind]
  refine .bind .pop fun c => ?_
  rw [onStack_bind]
  exact .bind built_pop2 fun (a, b) => .pure (a, b, c)

theorem built_map1 (f : Word → Word) : Built prices run (onStack (Stack.map1 f) : Exec σ Unit) := by
  rw [Stack.map1, onStack_bind]
  exact .bind .pop fun a => .push (f a)

theorem built_map2 (f : Word → Word → Word) :
    Built prices run (onStack (Stack.map2 f) : Exec σ Unit) := by
  rw [Stack.map2, onStack_bind]
  exact .bind built_pop2 fun (a, b) => .push (f a b)

theorem built_dup : Built prices run (onStack Stack.dup : Exec σ Unit) := by
  rw [Stack.dup, onStack_bind]
  refine .bind .pop fun w => ?_
  rw [onStack_bind]
  exact .bind (.push w) fun _ => .push w

theorem built_swap : Built prices run (onStack Stack.swap : Exec σ Unit) := by
  rw [Stack.swap, onStack_bind]
  refine .bind built_pop2 fun (a, b) => ?_
  rw [onStack_bind]
  exact .bind (.push b) fun _ => .push a

theorem built_counter (w : Word) : Built prices run (counter w : Exec σ Nat) := by
  unfold counter
  split
  · exact .pure _
  · exact .throw _

theorem built_destination (w : Word) : Built prices run (destination w : Exec σ Nat) := by
  unfold destination
  split
  · exact .pure _
  · exact .throw _

theorem built_slice (offset length : Nat) : Built prices run (slice offset length : Exec σ Bytes) :=
  .look (fun _ => built_ofExcept _ _) fun _ _ => rfl

theorem built_popRange : Built prices run (popRange prices : Exec σ Bytes) :=
  built_pop2.bind fun _ => (built_counter _).bind fun _ => (built_counter _).bind fun _ =>
    (Built.expand _ _).bind fun _ => built_slice _ _

theorem built_mload : Built prices run (mload prices : Exec σ Unit) :=
  Built.pop.bind fun _ => (built_counter _).bind fun _ => (Built.expand _ _).bind fun _ =>
    .look (fun _ => (built_ofExcept _ _).bind fun _ => .push _) fun _ _ => rfl

theorem built_mstore : Built prices run (mstore prices : Exec σ Unit) :=
  built_pop2.bind fun _ => (built_counter _).bind fun _ => (Built.expand _ _).bind fun _ =>
    .store _ _

theorem built_mstore8 : Built prices run (mstore8 prices : Exec σ Unit) :=
  built_pop2.bind fun _ => (built_counter _).bind fun _ => (Built.expand _ _).bind fun _ =>
    .store _ _

theorem built_jump : Built prices run (jump : Exec σ Nat) :=
  Built.pop.bind fun _ => built_destination _

theorem built_jumpIf : Built prices run (jumpIf : Exec σ Nat) :=
  built_pop2.bind fun (target, condition) => by
    dsimp only
    split
    · exact built_destination _
    · exact .look (fun _ => .pure _) fun _ _ => rfl
    · exact .throw _

theorem built_restrict : Built prices run (Exec.restrict prices : Exec σ Unit) := by
  refine built_pop3.bind fun (offset, maxLength, flag) => ?_
  refine (built_counter _).bind fun _ => (built_counter _).bind fun _ => ?_
  refine (Built.charge _).bind fun _ => (Built.expand _ _).bind fun _ => ?_
  cases flag.toBool? with
  | none => exact .throw _
  | some enable =>
    cases enable with
    | false => exact .restrict FrameGuard.disable
    | true =>
      refine (built_slice _ _).bind fun _ => (built_ofExcept _ _).bind fun d => ?_
      exact .restrict fun guard => guard.enable (.ofDeclaration d)

theorem built_requireMutable : Built prices run (requireMutable : Exec σ Unit) :=
  built_frame fun f => by
    split
    · exact .throw _
    · exact .pure _

theorem built_require (ms : List Mutation) : Built prices run (require ms : Exec σ Unit) :=
  built_frame fun _ => built_ofExcept _ _

theorem built_tload : Built prices run (tload : Exec σ Unit) :=
  Built.pop.bind fun _ => .look (fun _ => .push _) fun _ _ => rfl

theorem built_sstore : Built prices run (sstore : Exec σ Unit) :=
  built_pop2.bind fun _ => built_requireMutable.bind fun _ => built_frame fun _ =>
    (built_require _).bind fun _ => .write _

theorem built_tstore : Built prices run (tstore : Exec σ Unit) :=
  built_pop2.bind fun _ => built_requireMutable.bind fun _ => built_frame fun _ =>
    (built_require _).bind fun _ => .write _

variable [Source σ]

theorem built_balance : Built prices run (balance : Exec σ Unit) :=
  Built.pop.bind fun _ => (built_readState _).bind fun _ => .push _

theorem built_selfBalance : Built prices run (selfBalance : Exec σ Unit) :=
  built_frame fun _ => (built_readState _).bind fun _ => .push _

theorem built_codeHash : Built prices run (codeHash : Exec σ Unit) :=
  Built.pop.bind fun _ => (built_readState _).bind fun _ => .push _

theorem built_sload : Built prices run (sload : Exec σ Unit) :=
  Built.pop.bind fun _ => built_frame fun _ => (built_readState _).bind fun _ => .push _

theorem built_selfDestruct : Built prices run (selfDestruct : Exec σ Unit) :=
  Built.pop.bind fun _ => built_requireMutable.bind fun _ => built_frame fun _ =>
    (built_require _).bind fun _ => (built_readState _).bind fun _ =>
      (built_readState _).bind fun _ => .write _

theorem built_occupied (address : Address) : Built prices run (occupied address : Exec σ Bool) :=
  (built_readState _).bind fun _ => by
    split
    · exact .pure _
    · exact (built_readState _).bind fun _ => .pure _

/-! ## Operations -/

theorem built_callee (deep : Bool) (a : Address) (child : Frame) (requested : Word)
    (prepare : Txn σ → Except Fault (Option (Txn σ))) :
    Built prices run (callee run deep a child requested prepare) := by
  cases deep with
  | true => exact .push _
  | false => exact (built_readState _).bind fun _ => (Built.enter _ _ _ _).bind fun _ => .push _

theorem built_call : Built prices run (call run) := by
  refine built_pop3.bind fun (requested, callee, value) => built_frame fun f => ?_
  dsimp only
  split
  · exact (Built.throw _).bind fun _ => (built_require _).bind fun _ => built_callee _ _ _ _ _
  · exact (built_require _).bind fun _ => built_callee _ _ _ _ _

theorem built_staticCall : Built prices run (staticCall run) :=
  built_pop2.bind fun (_, _) => built_frame fun _ => built_callee _ _ _ _ _

theorem built_delegateCall : Built prices run (delegateCall run) :=
  built_pop2.bind fun (_, _) => (built_require _).bind fun _ => built_frame fun _ =>
    built_callee _ _ _ _ _

theorem built_create : Built prices run (create prices run) := by
  refine built_popRange.bind fun initCode => Built.pop.bind fun value => ?_
  refine built_requireMutable.bind fun _ => built_frame fun f => ?_
  refine (built_readState _).bind fun nonce => (built_require _).bind fun _ => ?_
  split
  · exact .push _
  refine (Built.write _).bind fun _ => (built_occupied _).bind fun taken => ?_
  split
  · exact .push _
  refine (Built.enter _ _ _ _).bind fun outcome => ?_
  split
  · exact (Built.write _).bind fun _ => .push _
  · exact .push _

/-- Every operation is put together from basic actions. -/
theorem built_perform (op : Op) : Built prices run (perform prices run op) := by
  cases op with
  | halt | revert => exact .pure _
  | push w => exact (Built.push w).andNext
  | pop => exact (Built.pop.map fun _ => ()).andNext
  | dup => exact built_dup.andNext
  | swap => exact built_swap.andNext
  | not => exact (built_map1 _).andNext
  | add | sub | eq | lt => exact (built_map2 _).andNext
  | jump => exact built_jump.map _
  | jumpIf => exact built_jumpIf.map _
  | mload => exact built_mload.andNext
  | mstore => exact built_mstore.andNext
  | mstore8 => exact built_mstore8.andNext
  | address | caller | callValue => exact (built_frame fun _ => .push _).andNext
  | balance => exact built_balance.andNext
  | selfBalance => exact built_selfBalance.andNext
  | codeHash => exact built_codeHash.andNext
  | sload => exact built_sload.andNext
  | sstore => exact built_sstore.andNext
  | tload => exact built_tload.andNext
  | tstore => exact built_tstore.andNext
  | call => exact built_call.andNext
  | staticCall => exact built_staticCall.andNext
  | delegateCall => exact built_delegateCall.andNext
  | create => exact built_create.andNext
  | selfDestruct => exact built_selfDestruct.bind fun _ => .pure _
  | ret => exact built_popRange.map _
  | restrict => exact built_restrict.andNext

end Actions

/-! ## The program -/

section Program

variable (r : Activation σ) (program : LazyBytecode)

theorem onStack_withProgram (action : Stack.Action α) :
    onStack action (r.withProgram program) =
      (onStack action r).mapState (·.withProgram program) := by
  have hstack : (r.withProgram program).stack = r.stack := rfl
  rw [onStack_eq, onStack_eq, hstack]
  cases action r.stack <;> rfl

theorem onMemory_withProgram (action : EStateM MemoryError Memory α) :
    onMemory action (r.withProgram program) =
      (onMemory action r).mapState (·.withProgram program) := by
  unfold onMemory Activation.withProgram
  cases h : action r.memory <;> simp [h, EStateM.Result.mapState]

theorem charge_withProgram (gas : Nat) :
    charge gas (r.withProgram program) = (charge gas r).mapState (·.withProgram program) := by
  have hgas : (r.withProgram program).gas = r.gas := rfl
  rw [charge_eq, charge_eq, hgas]
  cases r.gas.charge gas <;> rfl

theorem expand_withProgram (prices : Pricing) (offset length : Nat) :
    expand prices offset length (r.withProgram program) =
      (expand prices offset length r).mapState (·.withProgram program) := by
  have hmemory : (r.withProgram program).memory = r.memory := rfl
  have hgas : (r.withProgram program).gas = r.gas := rfl
  have hcost : ∀ words, (r.withProgram program).growthCost prices words = r.growthCost prices words :=
    fun _ => rfl
  rw [expand_eq, expand_eq, hmemory]
  cases r.memory.wordsRequired offset length with
  | error e => rfl
  | ok words =>
    simp only [hgas, hcost]
    cases r.gas.charge (r.growthCost prices words) <;> rfl

theorem enter_withProgram (run : Runner σ) (child : Frame) (code : Code) (requested : Word)
    (prepare : Txn σ → Except Fault (Option (Txn σ))) :
    enter run child code requested prepare (r.withProgram program) =
      (enter run child code requested prepare r).mapState (·.withProgram program) := by
  have hgas : (r.withProgram program).gas = r.gas := rfl
  have htxn : (r.withProgram program).txn = r.txn := rfl
  rw [enter_eq, enter_eq, hgas, htxn]
  dsimp only
  generalize min (saturate requested.toNat) r.gas.remaining = handed
  cases r.gas.charge handed with
  | error e => rfl
  | ok meter =>
    cases prepare r.txn with
    | error fault => rfl
    | ok found =>
      cases found with
      | none => rfl
      | some prepared =>
        dsimp only
        cases run child code handed prepared <;> rfl

variable {prices : Pricing} {run : Runner σ}

/-- An action does the same whatever the program is, and leaves the program alone. -/
theorem Built.replaceProgram {x : Exec σ α} (h : Built prices run x) :
    x (r.withProgram program) = (x r).mapState (·.withProgram program) := by
  induction h generalizing r with
  | pure | throw | write | restrict => rfl
  | bind _ _ ihx ihg =>
    have hx := ihx r
    rename_i x g _ _
    cases hr : x r with
    | ok a s =>
      rw [hr] at hx
      rw [bind_of_ok hr, bind_of_ok hx]
      exact ihg a s
    | error e s =>
      rw [hr] at hx
      rw [bind_of_error hr, bind_of_error hx]
      rfl
  | look _ hprogram ihg =>
    rw [bind_get, bind_get, hprogram]
    exact ihg r r
  | push | pop => exact onStack_withProgram ..
  | charge => exact charge_withProgram ..
  | expand => exact expand_withProgram ..
  | store => exact onMemory_withProgram ..
  | enter => exact enter_withProgram ..

/-- An action leaves the program as it is. -/
theorem Built.program_eq {x : Exec σ α} (h : Built prices run x) : (x r).state.program = r.program := by
  have hsame : x r = (x r).mapState (·.withProgram r.program) := h.replaceProgram r r.program
  rw [hsame, EStateM.Result.state_mapState]
  rfl

end Program

end Exec
end MutationGuard
