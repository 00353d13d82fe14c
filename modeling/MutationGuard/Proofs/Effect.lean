import MutationGuard.Proofs.Ensures
import MutationGuard.Proofs.Txn

/-!
What one operation may do to the frame it runs in and to the transaction. `Effect` lists it all: the
guard changes and the state does not, or the state is written in one of a few ways, each with the
checks that the frame has passed by then. Statements about every operation follow from it by cases
over the list, and `finish_preserves` carries what holds of one operation through a whole run.
-/

namespace MutationGuard

namespace Exec

variable {σ α β : Type}

/-- Entering a child frame, with the monad taken away. -/
theorem enter_eq (run : Runner σ) (child : Frame) (code : Code) (requested : Word)
    (prepare : Txn σ → Except Fault (Option (Txn σ))) (r : Activation σ) :
    enter run child code requested prepare r =
      let handed := min (saturate requested.toNat) r.gas.remaining
      match r.gas.charge handed with
      | .error e => .error (.outOfGas e) r
      | .ok meter =>
        match prepare r.txn with
        | .error fault => .error (.abort (.state fault)) { r with gas := meter }
        | .ok none => .ok none { r with gas := meter.refund handed }
        | .ok (some prepared) =>
          match run child code handed prepared with
          | .ok outcome after =>
            .ok (some outcome)
              { r with
                gas := meter.refund outcome.gasLeft
                txn := if outcome.status = .success then after
                  else after.rollbackTo r.txn.snapshot }
          | .error cause after => .error (.abort cause) { r with gas := meter, txn := after } := by
  unfold enter
  rw [bind_get]
  dsimp only
  have hcharge := charge_eq (min (saturate requested.toNat) r.gas.remaining) r
  cases hm : r.gas.charge (min (saturate requested.toNat) r.gas.remaining) with
  | error e =>
    rw [hm] at hcharge
    exact bind_of_error hcharge
  | ok meter =>
    rw [hm] at hcharge
    rw [bind_of_ok hcharge, bind_get]
    have hread := readState_eq prepare { r with gas := meter }
    cases hp : prepare r.txn with
    | error fault =>
      rw [hp] at hread
      exact bind_of_error hread
    | ok found =>
      rw [hp] at hread
      rw [bind_of_ok hread]
      cases found with
      | none => rfl
      | some prepared =>
        dsimp only
        cases run child code (min (saturate requested.toNat) r.gas.remaining) prepared with
        | ok outcome after => rfl
        | error cause after => rfl

/-- How it ends to enter a child frame from `t`: its outcome, if it has one, and the transaction. -/
inductive Entered (run : Runner σ) (child : Frame) (code : Code)
    (prepare : Txn σ → Except Fault (Option (Txn σ))) (t : Txn σ) : Option Outcome → Txn σ → Prop
  /-- Entering was refused, and the frame did not run. -/
  | refused (h : prepare t = .ok none) : Entered run child code prepare t none t
  /-- The frame ended. What it did is kept if it ended successfully. -/
  | ended {gas : Nat} {prepared after : Txn σ} {outcome : Outcome}
    (hp : prepare t = .ok (some prepared)) (hr : run child code gas prepared = .ok outcome after) :
    Entered run child code prepare t (some outcome)
      (if outcome.status = .success then after else after.rollbackTo t.snapshot)
  /-- The whole execution ended while the frame was running. -/
  | aborted {gas : Nat} {prepared after : Txn σ} {cause : Abort}
    (hp : prepare t = .ok (some prepared)) (hr : run child code gas prepared = .error cause after) :
    Entered run child code prepare t none after

/-- What holds of the transaction before a child frame is entered and of all it may leave, rolled back
or not, holds afterwards. -/
theorem Entered.preserves_of_rollback {run : Runner σ} {child : Frame} {code : Code}
    {prepare : Txn σ → Except Fault (Option (Txn σ))} {t t' : Txn σ} {outcome : Option Outcome}
    {R : Txn σ → Prop} (h : Entered run child code prepare t outcome t') (h0 : R t)
    (hback : ∀ t', R t' → R (t'.rollbackTo t.snapshot))
    (hrun : ∀ gas prepared, prepare t = .ok (some prepared) →
      R (run child code gas prepared).state) : R t' := by
  cases h with
  | refused _ => exact h0
  | @ended gas prepared after outcome hp hr =>
    have hafter : R (run child code gas prepared).state := hrun gas prepared hp
    rw [hr] at hafter
    split
    · exact hafter
    · exact hback after hafter
  | @aborted gas prepared after cause hp hr =>
    have hafter : R (run child code gas prepared).state := hrun gas prepared hp
    rw [hr] at hafter
    exact hafter

/-- A frame that did not succeed is rolled back to where it was entered. -/
theorem Entered.preserves {run : Runner σ} {child : Frame} {code : Code}
    {prepare : Txn σ → Except Fault (Option (Txn σ))} {t t' : Txn σ} {outcome : Option Outcome}
    {R : Txn σ → Prop} (h : Entered run child code prepare t outcome t') (h0 : R t)
    (hbase : ∀ t', R t' → t'.base = t.base)
    (hrun : ∀ gas prepared, prepare t = .ok (some prepared) →
      R (run child code gas prepared).state) : R t' := by
  refine h.preserves_of_rollback h0 (fun after hafter => ?_) hrun
  rw [Txn.rollbackTo_snapshot (hbase after hafter)]
  exact h0

/-- What entering a frame and running it keep is kept, whether the frame is rolled back or not. -/
theorem Entered.composes {run : Runner σ} {child : Frame} {code : Code}
    {prepare : Txn σ → Except Fault (Option (Txn σ))} {t t' : Txn σ} {outcome : Option Outcome}
    {R : Txn σ → Txn σ → Prop} (h : Entered run child code prepare t outcome t')
    (hR : Txn.Composes R) (hprepare : ∀ prepared, prepare t = .ok (some prepared) → R t prepared)
    (hrun : ∀ gas prepared, R prepared (run child code gas prepared).state) : R t t' :=
  h.preserves_of_rollback (hR.refl t) (fun _ => hR.rollback) fun gas prepared hp =>
    hR.trans (hprepare prepared hp) (hrun gas prepared)

theorem ensures_enter {f : Frame} {t : Txn σ} {run : Runner σ} {child : Frame} {code : Code}
    {requested : Word} {prepare : Txn σ → Except Fault (Option (Txn σ))}
    {ok : Option Outcome → Frame → Txn σ → Prop} {fail : Frame → Txn σ → Prop}
    (hok : ∀ outcome t', Entered run child code prepare t outcome t' → ok outcome f t')
    (habort : ∀ t', Entered run child code prepare t none t' → fail f t') (hfail : fail f t) :
    Ensures f t (enter run child code requested prepare) ok fail := by
  intro r hf ht
  subst hf ht
  rw [enter_eq]
  dsimp only
  generalize min (saturate requested.toNat) r.gas.remaining = handed
  cases r.gas.charge handed with
  | error e => exact hfail
  | ok meter =>
    cases hp : prepare r.txn with
    | error fault => exact hfail
    | ok found =>
      cases found with
      | none => exact hok _ _ (.refused hp)
      | some prepared =>
        dsimp only
        cases hr : run child code handed prepared with
        | ok outcome after => exact hok _ _ (.ended hp hr)
        | error cause after => exact habort _ (.aborted hp hr)

variable [Source σ]

/-- A frame that has passed the checks of creating an account. -/
structure Creating (f : Frame) (t : Txn σ) (nonce : UInt64) (value : Word) : Prop where
  not_static : f.isStatic = false
  permitted : ∀ m ∈ Mutation.ofCreate f.address (f.address.created nonce) value,
    f.guard.permits m = true
  nonce_eq : t.nonce f.address = .ok nonce
  nonce_ne_max : nonce.toNat ≠ counterMax
  not_deepest : f.atMaxDepth = false

namespace Creating

/-- The transaction once the creator's nonce is bumped. -/
def bumped (f : Frame) (t : Txn σ) (nonce : UInt64) : Txn σ := t.setNonce f.address (nonce + 1)

/-- The start of the created account: nonce one, and the value it is given. -/
def prepare (f : Frame) (nonce : UInt64) (value : Word) (t : Txn σ) :
    Except Fault (Option (Txn σ)) :=
  (t.setNonce (f.address.created nonce) 1).transfer? f.address (f.address.created nonce) value

end Creating

/-- What an operation may do in frame `f` on transaction `t`, where `run` runs the frames it calls. -/
inductive OpEffect (run : Runner σ) (f : Frame) (t : Txn σ) : Op → Frame → Txn σ → Prop
  | none {op : Op} : OpEffect run f t op f t
  /-- The restriction is lifted, as far as the frame can lift it. -/
  | lifted : OpEffect run f t .restrict { f with guard := f.guard.disable } t
  | declared (set : PermissionSet) : OpEffect run f t .restrict { f with guard := f.guard.enable set } t
  | stored (k : Key) (value : Word) (hs : f.isStatic = false)
    (hp : f.guard.permits (.storage f.address k) = true) :
    OpEffect run f t .sstore f (t.setStorage f.address k value)
  | storedTransient (k : Key) (value : Word) (hs : f.isStatic = false)
    (hp : f.guard.permits (.transientStorage f.address k) = true) :
    OpEffect run f t .tstore f (t.setTransient f.address k value)
  | destroyed {beneficiary : Address} {balance : Word} {moved : Option (Txn σ)}
    (hs : f.isStatic = false) (hp : f.guard.permits (.selfDestruct f.address) = true)
    (hb : t.balance f.address = .ok balance)
    (hm : t.transfer? f.address beneficiary balance = .ok moved) :
    OpEffect run f t .selfDestruct f ((moved.getD t).destroy f.address)
  | called {callee : Address} {value : Word} {code : Code} {outcome : Option Outcome} {t' : Txn σ}
    (hs : f.isStatic = true → value = 0)
    (hp : ∀ m ∈ Mutation.ofValueCall f.address callee value, f.guard.permits m = true)
    (hd : f.atMaxDepth = false) (hc : t.code callee = .ok code)
    (h : Entered run (f.child callee value f.isStatic) code
      (·.transfer? f.address callee value) t outcome t') :
    OpEffect run f t .call f t'
  | calledStatic {callee : Address} {code : Code} {outcome : Option Outcome} {t' : Txn σ}
    (hd : f.atMaxDepth = false) (hc : t.code callee = .ok code)
    (h : Entered run (f.child callee 0 true) code (fun t => .ok (some t)) t outcome t') :
    OpEffect run f t .staticCall f t'
  | delegated {target : Address} {code : Code} {outcome : Option Outcome} {t' : Txn σ}
    (hp : f.guard.permits .delegateCall = true)
    (hd : f.atMaxDepth = false) (hc : t.code target = .ok code)
    (h : Entered run f.delegate code (fun t => .ok (some t)) t outcome t') :
    OpEffect run f t .delegateCall f t'
  /-- The creator's nonce is bumped, and the account is not created after all. -/
  | bumped {nonce : UInt64} {value : Word} (hc : Creating f t nonce value) :
    OpEffect run f t .create f (Creating.bumped f t nonce)
  /-- The code that makes the account has run without success. -/
  | created {nonce : UInt64} {value : Word} {code : Code} {outcome : Option Outcome} {t' : Txn σ}
    (hc : Creating f t nonce value)
    (hn : (Creating.bumped f t nonce).nonce (f.address.created nonce) = .ok 0)
    (he : (Creating.bumped f t nonce).code (f.address.created nonce) = .ok [])
    (h : Entered run (f.child (f.address.created nonce) value false) code
      (Creating.prepare f nonce value) (Creating.bumped f t nonce) outcome t') :
    OpEffect run f t .create f t'
  /-- The code that makes the account has run, and its output is the account's code. -/
  | installed {nonce : UInt64} {value : Word} {code : Code} {gasLeft : Nat} {output : Bytes}
    {t' : Txn σ} (hc : Creating f t nonce value)
    (hn : (Creating.bumped f t nonce).nonce (f.address.created nonce) = .ok 0)
    (he : (Creating.bumped f t nonce).code (f.address.created nonce) = .ok [])
    (h : Entered run (f.child (f.address.created nonce) value false) code
      (Creating.prepare f nonce value) (Creating.bumped f t nonce)
      (some ⟨.success, gasLeft, output⟩) t') :
    OpEffect run f t .create f (t'.setCode (f.address.created nonce) output)

/-- What one operation may do, whichever it is. -/
def Effect (run : Runner σ) (f : Frame) (t : Txn σ) (f' : Frame) (t' : Txn σ) : Prop :=
  ∃ op, OpEffect run f t op f' t'

/-! ## Each operation -/

/-- The action does in its frame what the operation may do. -/
def Effective (run : Runner σ) (op : Op) (x : Exec σ α) : Prop :=
  ∀ f t, Ensures f t x (fun _ => OpEffect run f t op) (OpEffect run f t op)

section Operations

variable {run : Runner σ} {prices : Pricing} {op : Op}

theorem Quiet.effective {x : Exec σ α} (hx : Quiet x) : Effective run op x :=
  fun _ _ => hx.ensures (fun _ => .none) .none

theorem Effective.andNext {x : Exec σ Unit} (hx : Effective run op x) :
    Effective run op (andNext x) :=
  fun f t => (hx f t).andNext

theorem effective_restrict : Effective run .restrict (restrict prices : Exec σ Unit) := by
  intro f t
  refine (quiet_onStack _).then (fun (offset, maxLength, flag) => ?_) .none
  refine (quiet_counter _).then (fun _ => (quiet_counter _).then (fun _ => ?_) .none) .none
  refine (quiet_charge _).then (fun _ => (quiet_expand _ _ _).then (fun _ => ?_) .none) .none
  cases flag.toBool? with
  | none => exact ensures_throw .none
  | some enable =>
    cases enable with
    | false =>
      rintro r rfl rfl
      exact .lifted
    | true =>
      refine (quiet_slice _ _).then (fun _ => (quiet_ofExcept _ _).then (fun d => ?_) .none) .none
      rintro r rfl rfl
      exact .declared (.ofDeclaration d)

theorem effective_sstore : Effective run .sstore (sstore : Exec σ Unit) := by
  intro f t
  refine (quiet_onStack _).then (fun (key, value) => ?_) .none
  refine Ensures.bind (ensures_requireMutable (fun hs => ?_) .none)
  refine Ensures.bind (ensures_frame ?_)
  refine Ensures.bind (ensures_require (fun hp => ?_) .none)
  exact ensures_writeState (.stored _ _ hs (hp _ List.mem_cons_self))

theorem effective_tstore : Effective run .tstore (tstore : Exec σ Unit) := by
  intro f t
  refine (quiet_onStack _).then (fun (key, value) => ?_) .none
  refine Ensures.bind (ensures_requireMutable (fun hs => ?_) .none)
  refine Ensures.bind (ensures_frame ?_)
  refine Ensures.bind (ensures_require (fun hp => ?_) .none)
  exact ensures_writeState (.storedTransient _ _ hs (hp _ List.mem_cons_self))

theorem effective_selfDestruct : Effective run .selfDestruct (selfDestruct : Exec σ Unit) := by
  intro f t
  refine (quiet_onStack _).then (fun beneficiary => ?_) .none
  refine Ensures.bind (ensures_requireMutable (fun hs => ?_) .none)
  refine Ensures.bind (ensures_frame ?_)
  refine Ensures.bind (ensures_require (fun hp => ?_) .none)
  refine Ensures.bind (ensures_readState (fun balance hb => ?_) .none)
  refine Ensures.bind (ensures_readState (fun moved hm => ?_) .none)
  exact ensures_writeState (.destroyed hs (hp _ List.mem_cons_self) hb hm)

/-- The part that all calls share: unless the frame is too deep, the code is read and entered, and
whether that succeeded is pushed. -/
def callee (run : Runner σ) (deep : Bool) (a : Address) (child : Frame) (requested : Word)
    (prepare : Txn σ → Except Fault (Option (Txn σ))) : Exec σ Unit :=
  if deep then onStack (Stack.pushBool false)
  else do
    let code ← readState (·.code a)
    let outcome ← enter run child code requested prepare
    onStack (Stack.pushBool (Outcome.succeeded outcome))

theorem ensures_callee {f : Frame} {t : Txn σ} {a : Address} {child : Frame} {requested : Word}
    {prepare : Txn σ → Except Fault (Option (Txn σ))} {E : Frame → Txn σ → Prop} (h0 : E f t)
    (h : ∀ code outcome t', f.atMaxDepth = false → t.code a = .ok code →
      Entered run child code prepare t outcome t' → E f t') :
    Ensures f t (callee run f.atMaxDepth a child requested prepare) (fun _ => E) E := by
  cases hd : f.atMaxDepth with
  | true => exact (quiet_onStack _).ensures (fun _ => h0) h0
  | false =>
    refine Ensures.bind (ensures_readState (fun code hc => ?_) h0)
    refine Ensures.bind (ensures_enter (fun o t' he => ?_) (fun t' => h code none t' hd hc) h0)
    have ht' : E f t' := h code o t' hd hc he
    exact (quiet_onStack _).ensures (fun _ => ht') ht'

theorem effective_call : Effective run .call (call run : Exec σ Unit) := by
  intro f t
  refine (quiet_onStack _).then (fun (requested, callee, value) => ?_) .none
  refine Ensures.bind (ensures_frame ?_)
  by_cases hs : f.isStatic = true ∧ value ≠ 0
  · rw [if_pos hs]
    exact Ensures.bind (ensures_throw .none)
  · rw [if_neg hs]
    refine Ensures.bind (ensures_require (fun hp => ?_) .none)
    have hz : f.isStatic = true → value = 0 := fun h => Decidable.not_not.mp fun hv => hs ⟨h, hv⟩
    exact ensures_callee .none fun _ _ _ hd hc he => .called hz hp hd hc he

theorem effective_staticCall : Effective run .staticCall (staticCall run : Exec σ Unit) := by
  intro f t
  refine (quiet_onStack _).then (fun (requested, callee) => ?_) .none
  refine Ensures.bind (ensures_frame ?_)
  exact ensures_callee .none fun _ _ _ hd hc he => .calledStatic hd hc he

theorem effective_delegateCall : Effective run .delegateCall (delegateCall run : Exec σ Unit) := by
  intro f t
  refine (quiet_onStack _).then (fun (requested, target) => ?_) .none
  refine Ensures.bind (ensures_require (fun hp => ?_) .none)
  refine Ensures.bind (ensures_frame ?_)
  exact ensures_callee .none fun _ _ _ hd hc he => .delegated (hp _ List.mem_cons_self) hd hc he

/-- Where an account can be created: nonce zero and no code. -/
theorem ensures_occupied {f : Frame} {t : Txn σ} {a : Address} {ok : Bool → Frame → Txn σ → Prop}
    {fail : Frame → Txn σ → Prop} (hfree : t.nonce a = .ok 0 → t.code a = .ok [] → ok false f t)
    (htaken : ok true f t) (hfail : fail f t) : Ensures f t (occupied a) ok fail := by
  refine Ensures.bind (ensures_readState (fun nonce hn => ?_) hfail)
  by_cases hz : nonce = 0
  · rw [if_neg (not_not_intro hz)]
    refine Ensures.bind (ensures_readState (fun code hc => ensures_pure ?_) hfail)
    cases code with
    | nil => exact hfree (hz ▸ hn) hc
    | cons _ _ => exact htaken
  · rw [if_pos hz]
    exact ensures_pure htaken

theorem effective_create : Effective run .create (create prices run : Exec σ Unit) := by
  intro f t
  refine (quiet_popRange _).then (fun initCode => (quiet_onStack _).then (fun value => ?_) .none) .none
  refine Ensures.bind (ensures_requireMutable (fun hs => ?_) .none)
  refine Ensures.bind (ensures_frame ?_)
  refine Ensures.bind (ensures_readState (fun nonce hn => ?_) .none)
  refine Ensures.bind (ensures_require (fun hp => ?_) .none)
  by_cases hd : nonce.toNat = counterMax ∨ f.atMaxDepth = true
  · rw [if_pos hd]
    exact (quiet_onStack _).effective f t
  · rw [if_neg hd]
    have hc : Creating f t nonce value :=
      ⟨hs, hp, hn, fun h => hd (.inl h), eq_false_of_ne_true fun h => hd (.inr h)⟩
    have hbumped : OpEffect run f t .create f (Creating.bumped f t nonce) := .bumped hc
    refine Ensures.bind (ensures_writeState ?_)
    refine Ensures.bind (ensures_occupied (fun hn' he => ?_) ?_ hbumped)
    · refine Ensures.bind (ensures_enter (fun o t' h => ?_) (fun t' h => ?_) hbumped)
      · have ht' : OpEffect run f t .create f t' := .created hc hn' he h
        split
        · have hinstalled : OpEffect run f t .create f (t'.setCode (f.address.created nonce) _) :=
            .installed hc hn' he h
          refine Ensures.bind (ensures_writeState ?_)
          exact (quiet_onStack _).ensures (fun _ => hinstalled) hinstalled
        · exact (quiet_onStack _).ensures (fun _ => ht') ht'
      · exact .created hc hn' he h
    · exact (quiet_onStack _).ensures (fun _ => hbumped) hbumped

theorem effective_perform (op : Op) : Effective run op (perform prices run op) := by
  cases op with
  | halt | revert => exact (quiet_pure _).effective
  | pop => exact ((quiet_onStack Stack.pop).map fun _ => ()).effective.andNext
  | push _ | dup | swap | add | sub | eq | lt | not =>
    exact Effective.andNext (quiet_onStack _).effective
  | jump => exact (quiet_jump.map _).effective
  | jumpIf => exact (quiet_jumpIf.map _).effective
  | mload => exact (quiet_mload _).effective.andNext
  | mstore => exact (quiet_mstore _).effective.andNext
  | mstore8 => exact (quiet_mstore8 _).effective.andNext
  | address | caller | callValue =>
    exact (quiet_frame.bind fun _ => quiet_onStack _).effective.andNext
  | balance => exact quiet_balance.effective.andNext
  | selfBalance => exact quiet_selfBalance.effective.andNext
  | codeHash => exact quiet_codeHash.effective.andNext
  | sload => exact quiet_sload.effective.andNext
  | sstore => exact effective_sstore.andNext
  | tload => exact quiet_tload.effective.andNext
  | tstore => exact effective_tstore.andNext
  | call => exact effective_call.andNext
  | staticCall => exact effective_staticCall.andNext
  | delegateCall => exact effective_delegateCall.andNext
  | create => exact effective_create.andNext
  | selfDestruct =>
    intro f t
    refine Ensures.bind ((effective_selfDestruct f t).weaken (fun _ f' t' he => ?_) fun _ _ he => he)
    exact ensures_pure he
  | ret => exact ((quiet_popRange _).map _).effective
  | restrict => exact effective_restrict.andNext

end Operations

section Steps

variable (prices : Pricing) (run : Runner σ) {r : Activation σ}

/-- What a step does to its frame and to the transaction is what its operation may do. -/
theorem step_opEffect {op : Op} (h : r.next? = some op) :
    OpEffect run r.frame r.txn op (step prices run r).state.frame
      (step prices run r).state.txn := by
  rw [step_of_next?_eq_some prices run h]
  have hop : Effective run op (do charge (prices.opCost op); perform prices run op) :=
    fun f t => (quiet_charge _).then (fun _ => effective_perform op f t) .none
  exact (hop r.frame r.txn).state rfl rfl

/-- A step without an operation leaves the frame and the transaction alone. -/
theorem step_idle (h : r.next? = none) :
    (step prices run r).state.frame = r.frame ∧ (step prices run r).state.txn = r.txn := by
  obtain hend | ⟨e, hend⟩ := step_of_next?_eq_none prices run h
  · rw [hend]
    exact ⟨rfl, rfl⟩
  · rw [hend]
    exact ⟨rfl, rfl⟩

end Steps

/-- An operation that ends its frame ends it with success, or gives up its changes and has no output.
It never halts it. -/
theorem exit_of_perform {prices : Pricing} {run : Runner σ} {op : Op} {r s : Activation σ}
    {status : Status} {output : Bytes} (h : perform prices run op r = .ok (.exit status output) s) :
    status = .success ∨ status = .reverted ∧ output = [] := by
  have hgoesOn : ∀ {x : Exec σ Unit}, andNext x r ≠ .ok (.exit status output) s := by
    intro x hx
    obtain ⟨_, u, -, hu⟩ := ok_of_bind hx
    cases hu
  have hjumps : ∀ {x : Exec σ Nat}, (Step.next <$> x) r ≠ .ok (.exit status output) s := by
    intro x hx
    rw [map_eq_pure_bind] at hx
    obtain ⟨pc, u, -, hu⟩ := ok_of_bind hx
    cases hu
  cases op with
  | halt =>
    cases h
    exact .inl rfl
  | revert =>
    cases h
    exact .inr ⟨rfl, rfl⟩
  | jump | jumpIf => exact absurd h hjumps
  | selfDestruct =>
    obtain ⟨_, u, -, hu⟩ := ok_of_bind h
    cases hu
    exact .inl rfl
  | ret =>
    have hmap : (popRange prices >>= fun bytes => pure (Step.exit .success bytes)) r =
        .ok (.exit status output) s := h
    obtain ⟨bytes, u, -, hu⟩ := ok_of_bind hmap
    cases hu
    exact .inl rfl
  | _ => exact absurd h hgoesOn

theorem exit_of_step {prices : Pricing} {run : Runner σ} {r s : Activation σ} {status : Status}
    {output : Bytes} (h : step prices run r = .ok (.exit status output) s) :
    status = .success ∨ status = .reverted ∧ output = [] := by
  obtain ⟨found, u, -, h⟩ := ok_of_bind h
  cases found with
  | none =>
    cases h
    exact .inl rfl
  | some op =>
    obtain ⟨_, v, -, h⟩ := ok_of_bind h
    exact exit_of_perform h

/-- What a step does to its frame and to the transaction, whether it succeeds or fails. -/
theorem step_effect (prices : Pricing) (run : Runner σ) (r : Activation σ) :
    Effect run r.frame r.txn (step prices run r).state.frame (step prices run r).state.txn := by
  cases h : r.next? with
  | some op => exact ⟨op, step_opEffect prices run h⟩
  | none =>
    obtain ⟨hframe, htxn⟩ := step_idle prices run h
    rw [hframe, htxn]
    exact ⟨.halt, .none⟩

/-- A frame that an operation of `f` may enter. -/
structure Below (f child : Frame) : Prop where
  guard : child.guard = f.guard.child
  isStatic : f.isStatic = true → child.isStatic = true
  depth : child.depth ≤ maxDepth

theorem below_of_not_atMaxDepth {f child : Frame} (hd : f.atMaxDepth = false)
    (hguard : child.guard = f.guard.child) (hstatic : f.isStatic = true → child.isStatic = true)
    (hdepth : child.depth = f.depth + 1) : Below f child := by
  refine ⟨hguard, hstatic, ?_⟩
  have hlt : ¬ maxDepth ≤ f.depth := of_decide_eq_false hd
  omega

/-- What writing and rolling back keep, and what the frames below keep, an operation keeps, unless it
erases an account. -/
theorem OpEffect.preserves {R : Txn σ → Txn σ → Prop} {run : Runner σ} {f f' : Frame} {t t' : Txn σ}
    {op : Op} (h : OpEffect run f t op f' t') (hR : Txn.Kept R)
    (hdestroy : ∀ {beneficiary balance moved}, op = .selfDestruct →
      t.balance f.address = .ok balance → t.transfer? f.address beneficiary balance = .ok moved →
      R t ((moved.getD t).destroy f.address))
    (hrun : ∀ child code gas t, Below f child → R t (run child code gas t).state) : R t t' := by
  have hentered : ∀ {child code prepare t outcome t'}, Entered run child code prepare t outcome t' →
      Below f child → (∀ prepared, prepare t = .ok (some prepared) → R t prepared) → R t t' :=
    fun he hchild hprepare => he.composes hR.toComposes hprepare fun _ _ => hrun _ _ _ _ hchild
  have hcreate : ∀ {nonce value code t' outcome}, Creating f t nonce value →
      Entered run (f.child (f.address.created nonce) value false) code
        (Creating.prepare f nonce value) (Creating.bumped f t nonce) outcome t' → R t t' := by
    intro nonce value code t' outcome hc he
    refine hR.trans (hR.write (.nonce _ _)) (hentered he ?_ fun prepared hp => ?_)
    · refine below_of_not_atMaxDepth hc.not_deepest rfl (fun hs => ?_) rfl
      exact absurd (hs.symm.trans hc.not_static) Bool.true_eq_false.mp
    · exact hR.trans (hR.write (.nonce _ 1)) (hR.write (.transfer hp))
  cases h with
  | none | lifted | declared => exact hR.refl t
  | stored => exact hR.write (.storage _ _ _)
  | storedTransient => exact hR.write (.transient _ _ _)
  | destroyed _ _ hb hm => exact hdestroy rfl hb hm
  | called _ _ hd _ he =>
    exact hentered he (below_of_not_atMaxDepth hd rfl id rfl) fun _ hp => hR.write (.transfer hp)
  | calledStatic hd _ he =>
    refine hentered he (below_of_not_atMaxDepth hd rfl (fun _ => rfl) rfl) fun _ hp => ?_
    cases hp
    exact hR.refl t
  | delegated _ hd _ he =>
    refine hentered he (below_of_not_atMaxDepth hd rfl id rfl) fun _ hp => ?_
    cases hp
    exact hR.refl t
  | bumped => exact hR.write (.nonce _ _)
  | created hc _ _ he => exact hcreate hc he
  | installed hc _ _ he => exact hR.trans (hcreate hc he) (hR.write (.code _ _))

/-- A self-destruction only adds to the pending writes. -/
theorem OpEffect.base_of_selfDestruct {run : Runner σ} {f f' : Frame} {t t' : Txn σ}
    (h : OpEffect run f t .selfDestruct f' t') : t'.base = t.base := by
  cases h with
  | none => rfl
  | @destroyed _ _ moved _ _ _ hm =>
    have hmoved : (moved.getD t).base = t.base := Txn.base_getD_of_transfer? hm
    exact hmoved

/-- An operation changes nothing of its frame but the guard, and that by lifting or declaring. -/
theorem Effect.guard_cases {run : Runner σ} {f f' : Frame} {t t' : Txn σ}
    (h : Effect run f t f' t') :
    f' = f ∨ f' = { f with guard := f.guard.disable } ∨
      ∃ set, f' = { f with guard := f.guard.enable set } := by
  obtain ⟨op, h⟩ := h
  cases h with
  | lifted => exact .inr (.inl rfl)
  | declared set => exact .inr (.inr ⟨set, rfl⟩)
  | _ => exact .inl rfl

end Exec

/-! ## Whole runs -/

namespace Activation

variable {σ : Type}

/-- What follows a step: the rest of the run, or its end. -/
def proceed (rest : Activation σ → EStateM.Result Abort (Txn σ) Outcome) :
    EStateM.Result OpError (Activation σ) Step → EStateM.Result Abort (Txn σ) Outcome
  | .ok (.next pc) s => rest { s with pc := pc }
  | .ok (.exit status output) s => .ok ⟨status, s.gas.remaining, output⟩ s.txn
  | .error (.abort cause) s => .error cause s.txn
  | .error _ s => .ok ⟨.halted, s.gas.exhaust.remaining, []⟩ s.txn

theorem finish_succ [Source σ] (prices : Pricing) (budget : Nat) (r : Activation σ) :
    r.finish prices (budget + 1) =
      proceed (finish prices budget) (Exec.step prices (Frame.run prices budget) r) := rfl

/-- A step that fails ends the run as it stands. -/
theorem state_proceed_error (rest : Activation σ → EStateM.Result Abort (Txn σ) Outcome)
    (e : OpError) (s : Activation σ) : (proceed rest (.error e s)).state = s.txn := by
  cases e <;> rfl

/-- Let `G` be kept by every frame that can be reached, and let every step of a good frame change the
state as `R` allows, provided that the good frames it calls do. Then so does a whole run of a good
frame, however it ends, by any rule for a single step. -/
theorem finishWith_preserves {step : Runner σ → Exec σ Step} {G : Frame → Prop}
    {R : Txn σ → Txn σ → Prop} (hrefl : ∀ t, R t t)
    (htrans : ∀ t t' t'', R t t' → R t' t'' → R t t'')
    (hstep : ∀ run : Runner σ,
      (∀ child code gas t, G child → R t (run child code gas t).state) →
      ∀ r, G r.frame → G (step run r).state.frame ∧ R r.txn (step run r).state.txn)
    (budget : Nat) (r : Activation σ) (hr : G r.frame) :
    R r.txn (r.finishWith step budget).state := by
  induction budget generalizing r with
  | zero => exact hrefl r.txn
  | succ budget ih =>
    let run : Runner σ := fun child code gas txn =>
      finishWith step budget (.start child code gas txn)
    have hrun : ∀ child code gas t, G child → R t (run child code gas t).state :=
      fun child code gas t hchild => ih (.start child code gas t) hchild
    obtain ⟨hgood, hrel⟩ := hstep run hrun r hr
    have hunfold : r.finishWith step (budget + 1) = proceed (finishWith step budget) (step run r) :=
      rfl
    rw [hunfold]
    cases hs : step run r with
    | ok next s =>
      rw [hs] at hgood hrel
      cases next with
      | next pc => exact htrans _ _ _ hrel (ih { s with pc := pc } hgood)
      | exit status output => exact hrel
    | error e s =>
      rw [hs] at hrel
      rw [state_proceed_error]
      exact hrel

variable [Source σ]

/-- The same for runs of the machine, given what the operations of a good frame do. -/
theorem finish_preserves {prices : Pricing} {G : Frame → Prop} {R : Txn σ → Txn σ → Prop}
    (hrefl : ∀ t, R t t) (htrans : ∀ t t' t'', R t t' → R t' t'' → R t t'')
    (hstep : ∀ run : Runner σ,
      (∀ child code gas t, G child → R t (run child code gas t).state) →
      ∀ f t f' t', G f → Exec.Effect run f t f' t' → G f' ∧ R t t')
    (budget : Nat) (r : Activation σ) (hr : G r.frame) :
    R r.txn (r.finish prices budget).state :=
  finishWith_preserves hrefl htrans
    (fun run hrun r hgood => hstep run hrun _ _ _ _ hgood (Exec.step_effect prices run r))
    budget r hr

/-- A run ends with success, or it gives up its changes and has no output, or it is halted with
neither gas nor output left. -/
theorem outcome_of_finish {prices : Pricing} (budget : Nat) (r : Activation σ) {outcome : Outcome}
    {after : Txn σ} (h : r.finish prices budget = .ok outcome after) :
    outcome.status = .success ∨ outcome.status = .reverted ∧ outcome.output = [] ∨
      outcome = ⟨.halted, 0, []⟩ := by
  induction budget generalizing r with
  | zero => cases h
  | succ budget ih =>
    rw [finish_succ] at h
    cases hstep : Exec.step prices (Frame.run prices budget) r with
    | error e s =>
      rw [hstep] at h
      have hgas : s.gas.exhaust.remaining = 0 := Nat.sub_self _
      cases e with
      | abort cause => cases h
      | _ =>
        cases h
        exact .inr (.inr (by rw [hgas]))
    | ok next s =>
      rw [hstep] at h
      cases next with
      | next pc => exact ih { s with pc := pc } h
      | exit status output =>
        cases h
        exact (Exec.exit_of_step hstep).imp_right .inl

/-- A run only adds to the pending writes. -/
theorem base_finish (prices : Pricing) (budget : Nat) (r : Activation σ) :
    (r.finish prices budget).state.base = r.txn.base := by
  have hkept : Txn.Kept (σ := σ) fun t t' => t'.base = t.base :=
    { refl := fun _ => rfl
      trans := fun h h' => h'.trans h
      rollback := id
      write := Txn.Write.base }
  refine finish_preserves (G := fun _ => True) (R := fun t t' => t'.base = t.base) (fun _ => rfl)
    (fun _ _ _ h h' => h'.trans h) ?_ budget r trivial
  rintro run hrun f t f' t' - ⟨op, he⟩
  refine ⟨trivial, he.preserves hkept (fun _ _ hm => ?_) fun _ _ _ _ _ => hrun _ _ _ _ trivial⟩
  exact Txn.base_getD_of_transfer? hm

end Activation
end MutationGuard
