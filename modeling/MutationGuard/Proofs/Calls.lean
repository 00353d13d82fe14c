import MutationGuard.Proofs.Spending

/-!
What is left of the frame that makes a call, or creates an account, once that is over. The operands are
gone and one word is pushed, and the transaction is either what the callee left or, if the callee did
not succeed, what it was before (`ok_of_callee`, `ok_of_create`). Calls differ in what they check, in
whom they call and in what they do before; all else they have in common (`perform_call_cases`).
-/

namespace MutationGuard

namespace Op

/-- The operations that run the code of an account there is. -/
def isCall : Op → Bool
  | .call | .staticCall | .delegateCall => true
  | _ => false

/-- How many words an operation that enters a frame takes. -/
def operands : Op → Nat
  | .call | .create => 3
  | .staticCall | .delegateCall => 2
  | _ => 0

end Op

variable {σ : Type}

/-- The runner only adds to the pending writes, and a frame that it halts has neither gas nor output
left. -/
structure Runner.Regular (run : Runner σ) : Prop where
  base (child : Frame) (code : Code) (gas : Nat) (t : Txn σ) :
    (run child code gas t).state.base = t.base
  halted {child : Frame} {code : Code} {gas : Nat} {t after : Txn σ} {outcome : Outcome} :
    run child code gas t = .ok outcome after → outcome.status = .halted → outcome = ⟨.halted, 0, []⟩

theorem Runner.Regular.base_of_ok {run : Runner σ} (h : run.Regular) {child : Frame} {code : Code}
    {gas : Nat} {t after : Txn σ} {outcome : Outcome}
    (hrun : run child code gas t = .ok outcome after) : after.base = t.base := by
  have hbase := h.base child code gas t
  rw [hrun] at hbase
  exact hbase

theorem Frame.regular_run [Source σ] (prices : Pricing) (budget : Nat) :
    Runner.Regular (σ := σ) (Frame.run prices budget) where
  base child code gas t := Activation.base_finish prices budget (.start child code gas t)
  halted h hs := by
    obtain hsuccess | ⟨hreverted, -⟩ | hhalted := Activation.outcome_of_finish budget _ h
    · exact absurd (hs.symm.trans hsuccess) nofun
    · exact absurd (hs.symm.trans hreverted) nofun
    · exact hhalted

/-- The preparation of a frame only adds to the pending writes. -/
def Txn.Prepares (prepare : Txn σ → Except Fault (Option (Txn σ))) : Prop :=
  ∀ t prepared, prepare t = .ok (some prepared) → prepared.base = t.base

namespace Exec

variable {α ε : Type} {r s : Activation σ}

/-! ## Checks and pushes -/

theorem frame_bind (g : Frame → Exec σ α) (r : Activation σ) : (frame >>= g) r = g r.frame r := rfl

theorem require_eq (ms : List Mutation) (r : Activation σ) :
    require ms r =
      match r.frame.guard.checkAll ms with
      | .ok _ => .ok () r
      | .error e => .error (.denied e) r := by
  unfold require
  rw [frame_bind]
  cases r.frame.guard.checkAll ms <;> rfl

theorem eq_of_require {ms : List Mutation} {u : Unit} (h : require ms r = .ok u s) : s = r := by
  rw [require_eq] at h
  split at h <;> cases h
  rfl

theorem eq_of_requireMutable {u : Unit} (h : requireMutable r = .ok u s) : s = r := by
  unfold requireMutable at h
  rw [frame_bind] at h
  split at h <;> cases h
  rfl

theorem eq_of_readState {read : Txn σ → Except Fault α} {a : α}
    (h : readState read r = .ok a s) : read r.txn = .ok a ∧ s = r := by
  rw [readState_eq] at h
  cases hread : read r.txn with
  | error fault => rw [hread] at h; cases h
  | ok b =>
    rw [hread] at h
    cases h
    exact ⟨rfl, rfl⟩

theorem eq_of_push {w : Word} {u : Unit} (h : onStack (Stack.push w) r = .ok u s) :
    s = { r with stack := ⟨w :: r.stack.words⟩ } := by
  rw [onStack_eq, Stack.push] at h
  by_cases hfull : Stack.sizeLimit ≤ r.stack.words.length
  · rw [if_pos hfull] at h
    cases h
  · rw [if_neg hfull] at h
    cases h
    rfl

theorem ok_of_andNext {x : Exec σ Unit} {next : Step} (h : andNext x r = .ok next s) :
    x r = .ok () s ∧ next = .next (s.pc + 1) := by
  obtain ⟨_, u, hx, hnext⟩ := ok_of_bind h
  cases hnext
  exact ⟨hx, rfl⟩

theorem state_andNext (x : Exec σ Unit) (r : Activation σ) : (andNext x r).state = (x r).state := by
  unfold andNext
  cases h : x r with
  | ok a s => rw [bind_of_ok h]; rfl
  | error e s => rw [bind_of_error h]; rfl

/-! ## Operands -/

theorem eq_of_pop {a : Word} (h : onStack Stack.pop r = .ok a s) :
    1 ≤ r.stack.words.length ∧ s = { r with stack := ⟨r.stack.words.drop 1⟩ } := by
  obtain ⟨stack, hpop, rfl⟩ := eq_of_onStack h
  obtain ⟨frame, pc, ⟨words⟩, memory, gas, program, txn⟩ := r
  cases words with
  | nil => cases hpop
  | cons w rest =>
    cases hpop
    exact ⟨by simp, rfl⟩

theorem eq_of_pop2 {a b : Word} (h : onStack Stack.pop2 r = .ok (a, b) s) :
    2 ≤ r.stack.words.length ∧ r.stack.words.getD 1 0 = a ∧
      s = { r with stack := ⟨r.stack.words.drop 2⟩ } := by
  have hwords := words_of_pop2 h
  obtain ⟨stack, -, rfl⟩ := eq_of_onStack h
  rw [hwords]
  exact ⟨by simp, rfl, rfl⟩

theorem eq_of_pop3 {a b c : Word} (h : onStack Stack.pop3 r = .ok (a, b, c) s) :
    3 ≤ r.stack.words.length ∧ r.stack.words.getD 2 0 = a ∧
      s = { r with stack := ⟨r.stack.words.drop 3⟩ } := by
  have hwords := words_of_pop3 h
  obtain ⟨stack, -, rfl⟩ := eq_of_onStack h
  rw [hwords]
  exact ⟨by simp, rfl, rfl⟩

/-! ## Memory -/

theorem eq_of_expand {prices : Pricing} {offset length : Nat} {u : Unit}
    (h : expand prices offset length r = .ok u s) : s = { r with gas := s.gas, memory := s.memory } := by
  obtain ⟨_, _, -, -, rfl⟩ := expand_eq_ok_iff.mp h
  rfl

theorem eq_of_slice {offset length : Nat} {bytes : Bytes} (h : slice offset length r = .ok bytes s) :
    s = r := by
  unfold slice at h
  rw [bind_get] at h
  cases hslice : r.memory.slice offset length with
  | error e => rw [hslice] at h; cases h
  | ok found =>
    rw [hslice] at h
    cases h
    rfl

theorem eq_of_popRange {prices : Pricing} {bytes : Bytes} (h : popRange prices r = .ok bytes s) :
    2 ≤ r.stack.words.length ∧
      s = { r with stack := ⟨r.stack.words.drop 2⟩, gas := s.gas, memory := s.memory } := by
  obtain ⟨⟨offset, length⟩, s₁, hpop, h⟩ := ok_of_bind h
  obtain ⟨offset', s₂, hoffset, h⟩ := ok_of_bind h
  obtain ⟨length', s₃, hlength, h⟩ := ok_of_bind h
  obtain ⟨_, s₄, hexpand, hslice⟩ := ok_of_bind h
  obtain ⟨-, rfl⟩ := eq_of_counter hoffset
  obtain ⟨-, rfl⟩ := eq_of_counter hlength
  obtain ⟨hwords, -, rfl⟩ := eq_of_pop2 hpop
  have hs₄ := eq_of_expand hexpand
  have hs := eq_of_slice hslice
  refine ⟨hwords, ?_⟩
  rw [hs, hs₄]

/-! ## Entering a frame -/

section Calls

variable {run : Runner σ} {child : Frame} {code : Code} {requested : Word}
  {prepare : Txn σ → Except Fault (Option (Txn σ))}

/-- A frame that was entered, or refused, changes nothing of the frame above but its meter. Unless it
succeeds, the transaction is as before. -/
theorem ok_of_enter {outcome : Option Outcome} (hrun : run.Regular) (hprepare : Txn.Prepares prepare)
    (h : enter run child code requested prepare r = .ok outcome s) :
    s = { r with gas := s.gas, txn := s.txn } ∧
      Entered run child code prepare r.txn outcome s.txn ∧
      (Outcome.succeeded outcome = false → s.txn = r.txn) := by
  rw [enter_eq] at h
  dsimp only at h
  generalize min (saturate requested.toNat) r.gas.remaining = handed at h
  cases hm : r.gas.charge handed with
  | error e => rw [hm] at h; cases h
  | ok meter =>
    rw [hm] at h
    cases hp : prepare r.txn with
    | error fault => rw [hp] at h; cases h
    | ok found =>
      cases found with
      | none =>
        rw [hp] at h
        cases h
        exact ⟨rfl, .refused hp, fun _ => rfl⟩
      | some prepared =>
        rw [hp] at h
        dsimp only at h
        cases hc : run child code handed prepared with
        | error cause after => rw [hc] at h; cases h
        | ok o after =>
          rw [hc] at h
          cases h
          refine ⟨rfl, .ended hp hc, fun hfailed => ?_⟩
          -- going back restores the pending writes alone, so nothing below them may have moved
          have hstatus : o.status ≠ .success := by simpa [Outcome.succeeded] using hfailed
          have hbase : after.base = r.txn.base := (hrun.base_of_ok hc).trans (hprepare _ _ hp)
          rw [if_neg hstatus, Txn.rollbackTo_snapshot hbase]

theorem prepares_same : Txn.Prepares (σ := σ) fun t => .ok (some t) := fun _ _ => base_of_ok_some

variable [Source σ]

theorem callee_of_not_deep (run : Runner σ) (a : Address) (child : Frame) (requested : Word)
    (prepare : Txn σ → Except Fault (Option (Txn σ))) :
    callee run false a child requested prepare = (do
      let code ← readState (·.code a)
      let outcome ← enter run child code requested prepare
      onStack (Stack.pushBool (Outcome.succeeded outcome))) := rfl

/-- A call that completes pushes whether the callee succeeded. If it did not, the transaction is as
before. -/
theorem ok_of_callee {deep : Bool} {a : Address} {u : Unit} (hrun : run.Regular)
    (hprepare : Txn.Prepares prepare)
    (h : callee run deep a child requested prepare r = .ok u s) :
    ∃ succeeded : Bool, s.stack.words = Word.ofBool succeeded :: r.stack.words ∧
      (succeeded = false → s.txn = r.txn) := by
  cases deep with
  | true =>
    cases eq_of_push h
    exact ⟨false, rfl, fun _ => rfl⟩
  | false =>
    rw [callee_of_not_deep] at h
    obtain ⟨code, r', hcode, hrest⟩ := ok_of_bind h
    obtain ⟨-, rfl⟩ := eq_of_readState hcode
    obtain ⟨outcome, left, henter, hpush⟩ := ok_of_bind hrest
    obtain ⟨hleft, -, hback⟩ := ok_of_enter hrun hprepare henter
    have hs := eq_of_push hpush
    refine ⟨Outcome.succeeded outcome, ?_, fun hfailed => ?_⟩
    · rw [hs, hleft]
    · rw [hs]
      exact hback hfailed

/-! ## Calls -/

/-- A call that has its operands, with the monad taken away. -/
theorem call_of_pop3 {callee' value : Word}
    (h : onStack Stack.pop3 r = .ok (requested, callee', value) s) (run : Runner σ) :
    call run r =
      if s.frame.isStatic = true ∧ value ≠ 0 then .error .staticStateChange s
      else
        match s.frame.guard.checkAll
          (Mutation.ofValueCall s.frame.address (Address.ofWord callee') value) with
        | .error e => .error (.denied e) s
        | .ok _ =>
          callee run s.frame.atMaxDepth (Address.ofWord callee')
            (s.frame.child (Address.ofWord callee') value s.frame.isStatic) requested
            (·.transfer? s.frame.address (Address.ofWord callee') value) s := by
  unfold call
  rw [bind_of_ok h]
  dsimp only
  rw [frame_bind]
  by_cases hstatic : s.frame.isStatic = true ∧ value ≠ 0
  · rw [if_pos hstatic, if_pos hstatic]
    rfl
  · have hrequire := require_eq
      (Mutation.ofValueCall s.frame.address (Address.ofWord callee') value) s
    rw [if_neg hstatic, if_neg hstatic]
    cases hcheck : s.frame.guard.checkAll
        (Mutation.ofValueCall s.frame.address (Address.ofWord callee') value) with
    | error e =>
      rw [hcheck] at hrequire
      exact bind_of_error hrequire
    | ok _ =>
      rw [hcheck] at hrequire
      exact bind_of_ok hrequire

theorem staticCall_of_pop2 {callee' : Word}
    (h : onStack Stack.pop2 r = .ok (requested, callee') s) (run : Runner σ) :
    staticCall run r =
      callee run s.frame.atMaxDepth (Address.ofWord callee')
        (s.frame.child (Address.ofWord callee') 0 true) requested (fun t => .ok (some t)) s :=
  bind_of_ok h

theorem delegateCall_of_pop2 {target : Word}
    (h : onStack Stack.pop2 r = .ok (requested, target) s) (run : Runner σ) :
    delegateCall run r =
      match s.frame.guard.checkAll [.delegateCall] with
      | .error e => .error (.denied e) s
      | .ok _ =>
        callee run s.frame.atMaxDepth (Address.ofWord target) s.frame.delegate requested
          (fun t => .ok (some t)) s := by
  have hrequire := require_eq [.delegateCall] s
  unfold delegateCall
  rw [bind_of_ok h]
  dsimp only
  cases hcheck : s.frame.guard.checkAll [.delegateCall] with
  | error e =>
    rw [hcheck] at hrequire
    exact bind_of_error hrequire
  | ok _ =>
    rw [hcheck] at hrequire
    exact bind_of_ok hrequire

/-- A call fails before its callee is looked at, whatever runs the callee, and leaves the transaction
alone; or its operands are there, and it goes on with the callee. -/
def Calls (op : Op) (r : Activation σ) (x : Runner σ → Exec σ Unit) : Prop :=
  (∃ e s, s.txn = r.txn ∧ ∀ run, x run r = .error e s) ∨
    ∃ a child prepare, Txn.Prepares prepare ∧ op.operands ≤ r.stack.words.length ∧
      ∀ run, x run r = callee run r.frame.atMaxDepth a child (r.requested op) prepare
        { r with stack := ⟨r.stack.words.drop op.operands⟩ }

theorem calls_of_error {op : Op} {action : Stack.Action α} {g : α → Runner σ → Exec σ Unit} {e : OpError}
    (h : onStack action r = .error e s) : Calls op r fun run => onStack action >>= (g · run) :=
  .inl ⟨e, s, ((quiet_onStack action r.frame r.txn).of_error h rfl rfl).2, fun _ => bind_of_error h⟩

theorem calls_call (r : Activation σ) : Calls .call r call := by
  cases hpop : onStack Stack.pop3 r with
  | error e s => exact calls_of_error hpop
  | ok operands s =>
    have hcall := call_of_pop3 hpop
    obtain ⟨hlength, hrequested, rfl⟩ := eq_of_pop3 hpop
    dsimp only at hcall
    split at hcall
    · exact .inl ⟨_, { r with stack := ⟨r.stack.words.drop 3⟩ }, rfl, hcall⟩
    · split at hcall
      · exact .inl ⟨_, { r with stack := ⟨r.stack.words.drop 3⟩ }, rfl, hcall⟩
      · rw [← hrequested] at hcall
        exact .inr ⟨_, _, _, fun _ _ => Txn.base_of_transfer?, hlength, hcall⟩

theorem calls_staticCall (r : Activation σ) : Calls .staticCall r staticCall := by
  cases hpop : onStack Stack.pop2 r with
  | error e s => exact calls_of_error hpop
  | ok operands s =>
    have hcall := staticCall_of_pop2 hpop
    obtain ⟨hlength, hrequested, rfl⟩ := eq_of_pop2 hpop
    rw [← hrequested] at hcall
    exact .inr ⟨_, _, _, prepares_same, hlength, hcall⟩

theorem calls_delegateCall (r : Activation σ) : Calls .delegateCall r delegateCall := by
  cases hpop : onStack Stack.pop2 r with
  | error e s => exact calls_of_error hpop
  | ok operands s =>
    have hcall := delegateCall_of_pop2 hpop
    obtain ⟨hlength, hrequested, rfl⟩ := eq_of_pop2 hpop
    dsimp only at hcall
    split at hcall
    · exact .inl ⟨_, { r with stack := ⟨r.stack.words.drop 2⟩ }, rfl, hcall⟩
    · rw [← hrequested] at hcall
      exact .inr ⟨_, _, _, prepares_same, hlength, hcall⟩

/-- The three kinds of call, as one. -/
theorem perform_call_cases (prices : Pricing) {op : Op} (hop : op.isCall = true) (r : Activation σ) :
    ∃ x : Runner σ → Exec σ Unit, (∀ run, perform prices run op = andNext (x run)) ∧ Calls op r x := by
  cases op with
  | call => exact ⟨call, fun _ => rfl, calls_call r⟩
  | staticCall => exact ⟨staticCall, fun _ => rfl, calls_staticCall r⟩
  | delegateCall => exact ⟨delegateCall, fun _ => rfl, calls_delegateCall r⟩
  | _ => cases hop

/-! ## Creating an account -/

/-- How the creation of an account completes, by the word that it pushes and the transaction that it
leaves. -/
inductive CreateEnds (run : Runner σ) (f : Frame) (t : Txn σ) (nonce : UInt64) : Word → Txn σ → Prop
  /-- The creator's nonce cannot rise any more, or the frame is too deep. -/
  | refused (h : nonce.toNat = counterMax ∨ f.atMaxDepth = true) : CreateEnds run f t nonce 0 t
  /-- The address is taken, the value cannot be moved, or the code that makes the account fails. -/
  | failed (h : ¬ (nonce.toNat = counterMax ∨ f.atMaxDepth = true)) :
    CreateEnds run f t nonce 0 (Creating.bumped f t nonce)
  | created {value : Word} {code : Code} {outcome : Outcome} {after : Txn σ}
    (h : ¬ (nonce.toNat = counterMax ∨ f.atMaxDepth = true)) (hs : outcome.status = .success)
    (he : Entered run (f.child (f.address.created nonce) value false) code
      (Creating.prepare f nonce value) (Creating.bumped f t nonce) (some outcome) after) :
    CreateEnds run f t nonce (f.address.created nonce).toWord
      (after.setCode (f.address.created nonce) outcome.output)

theorem eq_of_occupied {a : Address} {taken : Bool} (h : occupied a r = .ok taken s) : s = r := by
  obtain ⟨nonce, s₁, hnonce, hrest⟩ := ok_of_bind h
  obtain ⟨-, rfl⟩ := eq_of_readState hnonce
  by_cases hz : nonce ≠ 0
  · rw [if_pos hz] at hrest
    cases hrest
    rfl
  · rw [if_neg hz] at hrest
    obtain ⟨code, s₂, hcode, hpure⟩ := ok_of_bind hrest
    obtain ⟨-, rfl⟩ := eq_of_readState hcode
    cases hpure
    rfl

/-- The part of creating an account that comes after the creator's nonce is bumped and the address is
found free. -/
def makeAccount (run : Runner σ) (f : Frame) (nonce : UInt64) (value : Word) (initCode : Code) :
    Exec σ Unit := do
  let created := f.address.created nonce
  let outcome ← enter run (f.child created value false) initCode Word.max
    (Creating.prepare f nonce value)
  match outcome with
  | some ⟨.success, _, output⟩ =>
    writeState (·.setCode created output)
    onStack (Stack.push created.toWord)
  | _ => onStack (Stack.pushBool false)

/-- The bumped nonce stays if the account is not made after all. -/
theorem ok_of_makeAccount {f : Frame} {nonce : UInt64} {value : Word} {initCode : Code} {u : Unit}
    {t : Txn σ} (hrun : run.Regular) (hbump : ¬ (nonce.toNat = counterMax ∨ f.atMaxDepth = true))
    (ht : r.txn = Creating.bumped f t nonce)
    (h : makeAccount run f nonce value initCode r = .ok u s) :
    ∃ word, s.stack.words = word :: r.stack.words ∧ CreateEnds run f t nonce word s.txn := by
  obtain ⟨outcome, left, henter, h⟩ := ok_of_bind h
  have hprepare : Txn.Prepares (Creating.prepare (σ := σ) f nonce value) := fun t prepared hp =>
    (Txn.base_of_transfer? hp : prepared.base = (t.setNonce _ 1).base)
  obtain ⟨hleft, hentered, hback⟩ := ok_of_enter hrun hprepare henter
  have hstack : left.stack = r.stack := by rw [hleft]
  split at h
  · obtain ⟨_, installed, hinstall, hpush⟩ := ok_of_bind h
    cases hinstall
    have hs := eq_of_push hpush
    refine ⟨_, by rw [hs, ← hstack], ?_⟩
    rw [hs]
    rw [ht] at hentered
    exact .created hbump rfl hentered
  · rename_i hnone
    have hs := eq_of_push h
    have hfailed : Outcome.succeeded outcome = false := by
      match outcome with
      | none => rfl
      | some ⟨.success, gasLeft, output⟩ => exact absurd rfl (hnone gasLeft output)
      | some ⟨.reverted, _, _⟩ | some ⟨.halted, _, _⟩ => rfl
    refine ⟨0, by rw [hs, ← hstack]; rfl, ?_⟩
    rw [hs]
    dsimp only
    -- the snapshot was taken after the nonce was bumped
    rw [hback hfailed, ht]
    exact .failed hbump

/-- The part of creating an account that comes after all checks. -/
def bumpAndMake (run : Runner σ) (f : Frame) (nonce : UInt64) (value : Word) (initCode : Code) :
    Exec σ Unit :=
  if nonce.toNat = counterMax ∨ f.atMaxDepth = true then onStack (Stack.pushBool false)
  else do
    writeState (·.setNonce f.address (nonce + 1))
    if ← occupied (f.address.created nonce) then onStack (Stack.pushBool false)
    else makeAccount run f nonce value initCode

theorem ok_of_bumpAndMake {f : Frame} {nonce : UInt64} {value : Word} {initCode : Code} {u : Unit}
    (hrun : run.Regular) (h : bumpAndMake run f nonce value initCode r = .ok u s) :
    ∃ word, s.stack.words = word :: r.stack.words ∧ CreateEnds run f r.txn nonce word s.txn := by
  unfold bumpAndMake at h
  by_cases hbump : nonce.toNat = counterMax ∨ f.atMaxDepth = true
  · rw [if_pos hbump] at h
    cases eq_of_push h
    exact ⟨0, rfl, .refused hbump⟩
  · rw [if_neg hbump] at h
    obtain ⟨_, bumped, hwrite, hrest⟩ := ok_of_bind h
    have hbumped : bumped = { r with txn := Creating.bumped f r.txn nonce } := by
      cases hwrite
      rfl
    obtain ⟨taken, looked, htaken, hmake⟩ := ok_of_bind hrest
    obtain rfl := eq_of_occupied htaken
    cases taken with
    | true =>
      have hs := eq_of_push (w := 0) hmake
      rw [hs, hbumped]
      exact ⟨0, rfl, .failed hbump⟩
    | false =>
      obtain ⟨word, hword, hends⟩ :=
        ok_of_makeAccount (t := r.txn) hrun hbump (by rw [hbumped]) hmake
      rw [hbumped] at hword
      exact ⟨word, hword, hends⟩

/-- The creation of an account that completes has taken its operands and pushed one word. -/
theorem ok_of_create {prices : Pricing} {u : Unit} (hrun : run.Regular)
    (h : create prices run r = .ok u s) :
    3 ≤ r.stack.words.length ∧ ∃ nonce word, r.txn.nonce r.frame.address = .ok nonce ∧
      s.stack.words = word :: r.stack.words.drop 3 ∧
        CreateEnds run r.frame r.txn nonce word s.txn := by
  obtain ⟨initCode, read, hread, h₁⟩ := ok_of_bind h
  obtain ⟨value, popped, hpop, h₂⟩ := ok_of_bind h₁
  obtain ⟨_, s₃, hmutable, h₃⟩ := ok_of_bind h₂
  obtain rfl := eq_of_requireMutable hmutable
  rw [frame_bind] at h₃
  obtain ⟨nonce, s₄, hnonce, h₄⟩ := ok_of_bind h₃
  obtain ⟨hnonce, rfl⟩ := eq_of_readState hnonce
  obtain ⟨_, s₅, hrequire, h₅⟩ := ok_of_bind h₄
  obtain rfl := eq_of_require hrequire
  obtain ⟨word, hword, hends⟩ := ok_of_bumpAndMake hrun h₅
  obtain ⟨htwo, hread⟩ := eq_of_popRange hread
  obtain ⟨hone, hpopped⟩ := eq_of_pop hpop
  rw [hread] at hone hpopped
  have hframe : s₅.frame = r.frame := by rw [hpopped]
  have htxn : s₅.txn = r.txn := by rw [hpopped]
  have hwords : s₅.stack.words = r.stack.words.drop 3 := by
    rw [hpopped]
    exact List.drop_drop
  have hlength : 3 ≤ r.stack.words.length := by
    simp only [List.length_drop] at hone
    omega
  rw [hframe, htxn] at hnonce hends
  exact ⟨hlength, nonce, word, hnonce, hword.trans (by rw [hwords]), hends⟩

/-! ## Steps -/

/-- A step that goes on has paid for its operation and performed it. -/
theorem ok_of_step {prices : Pricing} {op : Op} {next : Step} (hop : r.next? = some op)
    (h : step prices run r = .ok next s) :
    ∃ meter, r.gas.charge (prices.opCost op) = .ok meter ∧
      perform prices run op (r.paying meter) = .ok next s := by
  rw [step_eq hop] at h
  cases hm : r.gas.charge (prices.opCost op) with
  | error e => rw [hm] at h; cases h
  | ok meter =>
    rw [hm] at h
    exact ⟨meter, rfl, h⟩

end Calls
end Exec
end MutationGuard
