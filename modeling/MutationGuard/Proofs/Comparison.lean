import MutationGuard.Proofs.Effect
import MutationGuard.Proofs.Record

/-!
Two runs of one program side by side: the first one recorded, the second one plain and under guards
of its own. A `Comparison` says which guards may face each other, and after which failures of the
first run nothing is promised any more; the record has to show such a failure. As long as it does
not, the two runs do the same, operation by operation (`Follows`), with all the frames they enter
(`Tracks`), and so to the end (`follows_finish`). Against itself a run is never lost, so that to keep
a record changes nothing (`Frame.run_plain`).
-/

namespace MutationGuard

variable {ε σ α β γ : Type}

/-- Which guards may face each other in two runs, and what ends their likeness. -/
structure Comparison (ε : Type) where
  /-- The guard of a frame in the first run, and its guard in the second. -/
  guards : FrameGuard → FrameGuard → Prop
  /-- Failures in the first run only. -/
  excused : OpError → Prop
  /-- Whether the record of the first run shows such a failure. -/
  lost : List ε → Prop
  child {g h : FrameGuard} : guards g h → guards g.child h.child
  disable {g h : FrameGuard} : guards g h → guards g.disable h.disable
  enable {g h : FrameGuard} (set : PermissionSet) : guards g h → guards (g.enable set) (h.enable set)
  permits {g h : FrameGuard} (m : Mutation) :
    guards g h → h.permits m = g.permits m ∨ g.permits m = false ∧ excused (.denied ⟨m⟩)
  append {events : List ε} (more : List ε) : lost events → lost (events ++ more)

namespace Comparison

variable (K : Comparison ε)

/-- The second end answers the first one: it is the same, or the first run is lost. -/
def Answers : EStateM.Result OpError (Activation (Recorded ε σ)) α →
    EStateM.Result OpError (Activation σ) α → Prop
  | .ok a s, y =>
    ∃ h, K.guards s.frame.guard h ∧ (K.lost s.txn.events ∨ y = .ok a (s.plain h))
  | .error e s, y => K.excused e ∨ K.lost s.txn.events ∨
      ∃ h, K.guards s.frame.guard h ∧ y = .error e (s.plain h)

/-- From states that differ in the guard, the second action does as the first one. What the first run
has lost stays lost. -/
def Follows (x : Exec (Recorded ε σ) α) (y : Exec σ α) : Prop :=
  ∀ r h, K.guards r.frame.guard h →
    (K.lost r.txn.events → K.lost (x r).state.txn.events) ∧ K.Answers (x r) (y (r.plain h))

/-- The second runner does with every frame as the first one. -/
def Tracks (run : Runner (Recorded ε σ)) (run' : Runner σ) : Prop :=
  ∀ f h code gas t, K.guards f.guard h →
    (K.lost t.events → K.lost (run f code gas t).state.events) ∧
      (K.lost (run f code gas t).state.events ∨
        run' { f with guard := h } code gas t.plain = (run f code gas t).mapState Txn.plain)

/-- An excused failure is one that the record shows. -/
def Shows (note : Note ε σ) : Prop :=
  ∀ r e s events, K.excused e → K.lost (events ++ note r (.error e s))

variable {K}

open Exec

/-! ## Putting actions together -/

/-- Once the first run is lost, the second one may end in any way. -/
theorem Answers.of_lost {x : EStateM.Result OpError (Activation (Recorded ε σ)) α}
    {y : EStateM.Result OpError (Activation σ) α} (h : K.Answers x y)
    (hlost : K.lost x.state.txn.events) (y' : EStateM.Result OpError (Activation σ) α) :
    K.Answers x y' := by
  cases x with
  | ok a s =>
    obtain ⟨h', hs, _⟩ := h
    exact ⟨h', hs, .inl hlost⟩
  | error e s => exact .inr (.inl hlost)

theorem Follows.bind {x : Exec (Recorded ε σ) α} {y : Exec σ α} {g : α → Exec (Recorded ε σ) β}
    {k : α → Exec σ β} (hx : K.Follows x y) (hg : ∀ a, K.Follows (g a) (k a)) :
    K.Follows (x >>= g) (y >>= k) := by
  intro r h hr
  obtain ⟨hkeep, hends⟩ := hx r h hr
  cases hxr : x r with
  | error e s =>
    rw [hxr] at hkeep hends
    rw [bind_of_error hxr]
    refine ⟨hkeep, hends.imp_right fun hends => hends.imp_right fun ⟨h', hs, hy⟩ => ⟨h', hs, ?_⟩⟩
    exact bind_of_error hy
  | ok a s =>
    rw [hxr] at hkeep hends
    rw [bind_of_ok hxr]
    obtain ⟨h', hs, hends⟩ := hends
    obtain ⟨hkeep', hends'⟩ := hg a s h' hs
    refine ⟨fun hlost => hkeep' (hkeep hlost), ?_⟩
    obtain hlost | hy := hends
    · exact hends'.of_lost (hkeep' hlost) _
    · rw [bind_of_ok hy]
      exact hends'

/-- An action that does not look at the guard, and leaves it and the record alone, does the same in
both runs. -/
theorem follows_of_uniform {x : Exec (Recorded ε σ) α} {y : Exec σ α} (hxy : Uniform x y)
    (hx : ∀ r, (x r).state.frame = r.frame ∧ (x r).state.txn.events = r.txn.events) :
    K.Follows x y := by
  intro r h hr
  obtain ⟨hframe, hevents⟩ := hx r
  refine ⟨fun hlost => hevents.symm ▸ hlost, ?_⟩
  rw [hxy r h]
  have hs : K.guards (x r).state.frame.guard h := (congrArg Frame.guard hframe) ▸ hr
  cases hxr : x r with
  | ok a s =>
    rw [hxr] at hs
    exact ⟨h, hs, .inr rfl⟩
  | error e s =>
    rw [hxr] at hs
    exact .inr (.inr ⟨h, hs, rfl⟩)

theorem follows_of_quiet {x : Exec (Recorded ε σ) α} {y : Exec σ α} (hx : Quiet x)
    (hxy : Uniform x y) : K.Follows x y :=
  follows_of_uniform hxy fun r => by
    have hr := (hx r.frame r.txn).state rfl rfl
    exact ⟨hr.1, congrArg Txn.events hr.2⟩

theorem follows_pure (a : α) : K.Follows (pure a : Exec (Recorded ε σ) α) (pure a) :=
  follows_of_quiet (quiet_pure a) (uniform_pure a)

theorem follows_throw (e : OpError) : K.Follows (throw e : Exec (Recorded ε σ) α) (throw e) :=
  follows_of_quiet (quiet_throw e) (uniform_throw e)

theorem Follows.map {x : Exec (Recorded ε σ) α} {y : Exec σ α} (hx : K.Follows x y) (g : α → β) :
    K.Follows (g <$> x) (g <$> y) := by
  rw [map_eq_pure_bind, map_eq_pure_bind]
  exact hx.bind fun a => follows_pure (g a)

theorem follows_onStack (action : Stack.Action α) :
    K.Follows (onStack action : Exec (Recorded ε σ) α) (onStack action) :=
  follows_of_quiet (quiet_onStack action) (uniform_onStack action)

theorem follows_readState {read : Txn (Recorded ε σ) → Except Fault α}
    {read' : Txn σ → Except Fault α} (h : ∀ t, read' t.plain = read t) :
    K.Follows (readState read) (readState read') :=
  follows_of_quiet (quiet_readState read) (uniform_readState h)

theorem follows_writeState {write : Txn (Recorded ε σ) → Txn (Recorded ε σ)}
    {write' : Txn σ → Txn σ} (h : ∀ t, write' t.plain = (write t).plain)
    (hevents : ∀ t, (write t).events = t.events) :
    K.Follows (writeState write) (writeState write') :=
  follows_of_uniform (uniform_writeState h) fun r => ⟨rfl, hevents r.txn⟩

theorem follows_frame {g : Frame → Exec (Recorded ε σ) α} {k : Frame → Exec σ α}
    (hg : ∀ f h, K.guards f.guard h → K.Follows (g f) (k { f with guard := h })) :
    K.Follows (frame >>= g) (frame >>= k) :=
  fun r h hr => hg r.frame h hr r h hr

/-- A restriction changes in the same way in both runs. -/
theorem follows_guard {change : FrameGuard → FrameGuard}
    (hchange : ∀ {g h}, K.guards g h → K.guards (change g) (change h)) :
    K.Follows
      (modify fun r => { r with frame := { r.frame with guard := change r.frame.guard } } :
        Exec (Recorded ε σ) Unit)
      (modify fun r => { r with frame := { r.frame with guard := change r.frame.guard } }) :=
  fun _ h hr => ⟨id, change h, hchange hr, .inr rfl⟩

/-- The checks of a list of mutations end alike, or the first ones are refused and excused. -/
theorem checkAll_of_guards {g h : FrameGuard} (hg : K.guards g h) (ms : List Mutation) :
    h.checkAll ms = g.checkAll ms ∨ ∃ d, g.checkAll ms = .error d ∧ K.excused (.denied d) := by
  induction ms with
  | nil => exact .inl rfl
  | cons m ms ih =>
    rw [FrameGuard.checkAll_cons, FrameGuard.checkAll_cons]
    obtain hm | ⟨hm, he⟩ := K.permits m hg
    · have hcheck : h.check m = g.check m := by
        unfold FrameGuard.check
        rw [hm]
      rw [hcheck]
      cases g.check m with
      | error d => exact .inl rfl
      | ok _ => exact ih
    · have hcheck : g.check m = .error ⟨m⟩ := by
        unfold FrameGuard.check
        rw [hm]
        rfl
      rw [hcheck]
      exact .inr ⟨⟨m⟩, rfl, he⟩

theorem follows_require (ms : List Mutation) :
    K.Follows (require ms : Exec (Recorded ε σ) Unit) (require ms) := by
  refine follows_frame fun f h hf => ?_
  dsimp only
  obtain hc | ⟨d, hd, he⟩ := checkAll_of_guards hf ms
  · rw [hc]
    exact follows_of_quiet (quiet_ofExcept _ _) (uniform_ofExcept _ _)
  · rw [hd]
    exact fun _ _ _ => ⟨id, .inl he⟩

/-! ## Operations -/

theorem follows_restrict (prices : Pricing) :
    K.Follows (restrict prices : Exec (Recorded ε σ) Unit) (restrict prices) := by
  refine (follows_onStack _).bind fun (offset, maxLength, flag) => ?_
  refine (follows_of_quiet (quiet_counter _) (uniform_counter _)).bind fun _ => ?_
  refine (follows_of_quiet (quiet_counter _) (uniform_counter _)).bind fun _ => ?_
  refine (follows_of_quiet (quiet_charge _) (uniform_charge _)).bind fun _ => ?_
  refine (follows_of_quiet (quiet_expand _ _ _) (uniform_expand _ _ _)).bind fun _ => ?_
  cases flag.toBool? with
  | none => exact follows_throw _
  | some enable =>
    cases enable with
    | false => exact follows_guard K.disable
    | true =>
      refine (follows_of_quiet (quiet_slice _ _) (uniform_slice _ _)).bind fun _ => ?_
      refine (follows_of_quiet (quiet_ofExcept _ _) (uniform_ofExcept _ _)).bind fun _ => ?_
      exact follows_guard (K.enable _)

theorem follows_requireMutable :
    K.Follows (requireMutable : Exec (Recorded ε σ) Unit) requireMutable :=
  follows_of_quiet quiet_requireMutable uniform_requireMutable

theorem follows_sstore : K.Follows (sstore : Exec (Recorded ε σ) Unit) sstore := by
  refine (follows_onStack _).bind fun (key, value) => ?_
  refine follows_requireMutable.bind fun _ => ?_
  refine follows_frame fun f _ _ => ?_
  refine (follows_require _).bind fun _ => ?_
  exact follows_writeState (fun _ => rfl) fun _ => rfl

theorem follows_tstore : K.Follows (tstore : Exec (Recorded ε σ) Unit) tstore := by
  refine (follows_onStack _).bind fun (key, value) => ?_
  refine follows_requireMutable.bind fun _ => ?_
  refine follows_frame fun f _ _ => ?_
  refine (follows_require _).bind fun _ => ?_
  exact follows_writeState (fun _ => rfl) fun _ => rfl

section State

variable [Source σ]

theorem events_of_transfer? {t t' : Txn (Recorded ε σ)} {sender recipient : Address} {value : Word}
    (h : t.transfer? sender recipient value = .ok (some t')) : t'.events = t.events :=
  congrArg Recorded.events (Txn.base_of_transfer? h)

/-- Moving a balance, if it can be moved, and erasing the account. -/
theorem follows_erase (address beneficiary : Address) (balance : Word) :
    K.Follows
      (do let moved ← readState (·.transfer? address beneficiary balance)
          writeState fun t => (moved.getD t).destroy address : Exec (Recorded ε σ) Unit)
      (do let moved ← readState (·.transfer? address beneficiary balance)
          writeState fun t => (moved.getD t).destroy address) := by
  intro r h hr
  have hread := readState_eq (·.transfer? address beneficiary balance) r
  have hread' := readState_eq (·.transfer? address beneficiary balance) (r.plain h)
  have hplain : (r.plain h).txn.transfer? address beneficiary balance =
      (r.txn.transfer? address beneficiary balance).map (Option.map Txn.plain) :=
    Txn.transfer?_plain r.txn address beneficiary balance
  rw [hplain] at hread'
  cases hm : r.txn.transfer? address beneficiary balance with
  | error fault =>
    rw [hm] at hread hread'
    rw [bind_of_error hread, bind_of_error hread']
    exact ⟨id, .inr (.inr ⟨h, hr, rfl⟩)⟩
  | ok moved =>
    rw [hm] at hread hread'
    rw [bind_of_ok hread, bind_of_ok hread']
    cases moved with
    | none => exact ⟨id, h, hr, .inr rfl⟩
    | some t =>
      have ht : t.events = r.txn.events := events_of_transfer? hm
      exact ⟨fun hlost => ht.symm ▸ hlost, h, hr, .inr rfl⟩

theorem follows_selfDestruct : K.Follows (selfDestruct : Exec (Recorded ε σ) Unit) selfDestruct := by
  refine (follows_onStack _).bind fun beneficiary => ?_
  refine follows_requireMutable.bind fun _ => ?_
  refine follows_frame fun f _ _ => ?_
  refine (follows_require _).bind fun _ => ?_
  have hbalance : K.Follows (readState (·.balance f.address) : Exec (Recorded ε σ) Word)
      (readState (·.balance f.address)) := follows_readState fun _ => rfl
  exact hbalance.bind fun balance => follows_erase _ _ balance

end State

/-! ## Entering frames -/

section Calls

variable {run : Runner (Recorded ε σ)} {run' : Runner σ} {prices : Pricing}

theorem follows_enter (hrun : K.Tracks run run') {child : Frame} {h : FrameGuard}
    (hchild : K.guards child.guard h) {code : Code} {requested : Word}
    {prepare : Txn (Recorded ε σ) → Except Fault (Option (Txn (Recorded ε σ)))}
    {prepare' : Txn σ → Except Fault (Option (Txn σ))}
    (hprepare : ∀ t, prepare' t.plain = (prepare t).map (Option.map Txn.plain))
    (hevents : ∀ t prepared, prepare t = .ok (some prepared) → prepared.events = t.events) :
    K.Follows (enter run child code requested prepare)
      (enter run' { child with guard := h } code requested prepare') := by
  intro r g hr
  have hgas : (r.plain g).gas = r.gas := rfl
  have hp : prepare' (r.plain g).txn = (prepare r.txn).map (Option.map Txn.plain) := hprepare r.txn
  rw [enter_eq, enter_eq, hgas, hp]
  dsimp only
  generalize min (saturate requested.toNat) r.gas.remaining = handed
  cases r.gas.charge handed with
  | error e => exact ⟨id, .inr (.inr ⟨g, hr, rfl⟩)⟩
  | ok meter =>
    cases hprep : prepare r.txn with
    | error fault => exact ⟨id, .inr (.inr ⟨g, hr, rfl⟩)⟩
    | ok found =>
      cases found with
      | none => exact ⟨id, g, hr, .inr rfl⟩
      | some prepared =>
        have hevents' := hevents r.txn prepared hprep
        obtain ⟨hkeep, hends⟩ := hrun child h code handed prepared hchild
        rw [hevents'] at hkeep
        dsimp only [Except.map, Option.map]
        cases hran : run child code handed prepared with
        | error cause after =>
          rw [hran] at hkeep hends
          refine ⟨hkeep, .inr (hends.imp_right fun hends => ⟨g, hr, ?_⟩)⟩
          rw [hends]
          rfl
        | ok outcome after =>
          rw [hran] at hkeep hends
          -- a rollback does not touch the record
          have hafter : ∀ t : Txn (Recorded ε σ),
              (if outcome.status = .success then after else after.rollbackTo t.snapshot).events =
                after.events := by
            intro t
            split <;> rfl
          refine ⟨fun hlost => (hafter r.txn).symm ▸ hkeep hlost, g, hr, ?_⟩
          refine hends.imp (fun hlost => (hafter r.txn).symm ▸ hlost) fun hends => ?_
          rw [hends]
          dsimp only [EStateM.Result.mapState]
          split <;> rfl

theorem Follows.andNext {x : Exec (Recorded ε σ) Unit} {y : Exec σ Unit} (h : K.Follows x y) :
    K.Follows (andNext x) (andNext y) :=
  h.bind fun _ => follows_of_quiet (quiet_get.bind fun _ => quiet_pure _)
    (uniform_get fun _ _ => uniform_pure _)

variable [Source σ]

theorem follows_callee (hrun : K.Tracks run run') {deep : Bool} {a : Address} {child : Frame}
    {h : FrameGuard} (hchild : K.guards child.guard h) {requested : Word}
    {prepare : Txn (Recorded ε σ) → Except Fault (Option (Txn (Recorded ε σ)))}
    {prepare' : Txn σ → Except Fault (Option (Txn σ))}
    (hprepare : ∀ t, prepare' t.plain = (prepare t).map (Option.map Txn.plain))
    (hevents : ∀ t prepared, prepare t = .ok (some prepared) → prepared.events = t.events) :
    K.Follows (callee run deep a child requested prepare)
      (callee run' deep a { child with guard := h } requested prepare') := by
  cases deep with
  | true => exact follows_onStack _
  | false =>
    have hcode : K.Follows (readState (·.code a) : Exec (Recorded ε σ) Code)
        (readState (·.code a)) := follows_readState fun _ => rfl
    refine hcode.bind fun code => ?_
    exact (follows_enter hrun hchild hprepare hevents).bind fun _ => follows_onStack _

theorem follows_call (hrun : K.Tracks run run') : K.Follows (call run) (call run') := by
  refine (follows_onStack _).bind fun (requested, callee, value) => ?_
  refine follows_frame fun f h hf => ?_
  dsimp only
  by_cases hs : f.isStatic = true ∧ value ≠ 0
  · rw [if_pos hs, if_pos hs]
    exact follows_throw .staticStateChange
  · rw [if_neg hs, if_neg hs]
    refine (follows_require _).bind fun _ => ?_
    exact follows_callee hrun (K.child hf) (fun t => Txn.transfer?_plain t _ _ _)
      fun _ _ => events_of_transfer?

theorem follows_staticCall (hrun : K.Tracks run run') :
    K.Follows (staticCall run) (staticCall run') := by
  refine (follows_onStack _).bind fun (requested, callee) => ?_
  refine follows_frame fun f h hf => ?_
  exact follows_callee hrun (K.child hf) (fun _ => rfl) fun _ _ hp => by cases hp; rfl

theorem follows_delegateCall (hrun : K.Tracks run run') :
    K.Follows (delegateCall run) (delegateCall run') := by
  refine (follows_onStack _).bind fun (requested, target) => ?_
  refine (follows_require _).bind fun _ => ?_
  refine follows_frame fun f h hf => ?_
  exact follows_callee hrun (K.child hf) (fun _ => rfl) fun _ _ hp => by cases hp; rfl

theorem follows_create (prices : Pricing) (hrun : K.Tracks run run') :
    K.Follows (create prices run) (create prices run') := by
  refine (follows_of_quiet (quiet_popRange _) (uniform_popRange _)).bind fun initCode => ?_
  refine (follows_onStack _).bind fun value => ?_
  refine follows_requireMutable.bind fun _ => ?_
  refine follows_frame fun f h hf => ?_
  have hnonce : K.Follows (readState (·.nonce f.address) : Exec (Recorded ε σ) UInt64)
      (readState (·.nonce f.address)) := follows_readState fun _ => rfl
  refine hnonce.bind fun nonce => ?_
  refine (follows_require _).bind fun _ => ?_
  have hdepth : Frame.atMaxDepth { f with guard := h } = f.atMaxDepth := rfl
  rw [hdepth]
  by_cases hd : nonce.toNat = counterMax ∨ f.atMaxDepth = true
  · rw [if_pos hd, if_pos hd]
    exact follows_onStack _
  · rw [if_neg hd, if_neg hd]
    have hbump : K.Follows
        (writeState (·.setNonce f.address (nonce + 1)) : Exec (Recorded ε σ) Unit)
        (writeState (·.setNonce f.address (nonce + 1))) :=
      follows_writeState (fun _ => rfl) fun _ => rfl
    refine hbump.bind fun _ => ?_
    have hoccupied : K.Follows
        (occupied (f.address.created nonce) : Exec (Recorded ε σ) Bool)
        (occupied (f.address.created nonce)) :=
      follows_of_quiet (quiet_occupied _) (uniform_occupied _)
    refine hoccupied.bind fun taken => ?_
    cases taken with
    | true => exact follows_onStack _
    | false =>
      have hentered : K.Follows
          (enter run (f.child (f.address.created nonce) value false) initCode Word.max
            (Creating.prepare f nonce value))
          (enter run' { f.child (f.address.created nonce) value false with guard := h.child }
            initCode Word.max (Creating.prepare f nonce value)) :=
        follows_enter hrun (K.child hf) (fun t => Txn.transfer?_plain (t.setNonce _ 1) _ _ _)
          fun t _ hp => events_of_transfer? (t := t.setNonce (f.address.created nonce) 1) hp
      have hinstall : ∀ output, K.Follows
          (writeState (·.setCode (f.address.created nonce) output) : Exec (Recorded ε σ) Unit)
          (writeState (·.setCode (f.address.created nonce) output)) :=
        fun _ => follows_writeState (fun _ => rfl) fun _ => rfl
      refine hentered.bind fun outcome => ?_
      split
      · exact (hinstall _).bind fun _ => follows_onStack _
      · exact follows_onStack _

theorem follows_perform (prices : Pricing) (hrun : K.Tracks run run') (op : Op) :
    K.Follows (perform prices run op) (perform prices run' op) := by
  cases op with
  | halt | revert => exact follows_pure _
  | pop =>
    have hpop : K.Follows (onStack Stack.pop : Exec (Recorded ε σ) Word) (onStack Stack.pop) :=
      follows_onStack _
    exact (hpop.map fun _ => ()).andNext
  | push _ | dup | swap | add | sub | eq | lt | not => exact (follows_onStack _).andNext
  | jump => exact (follows_of_quiet quiet_jump uniform_jump).map _
  | jumpIf => exact (follows_of_quiet quiet_jumpIf uniform_jumpIf).map _
  | mload => exact (follows_of_quiet (quiet_mload _) (uniform_mload _)).andNext
  | mstore => exact (follows_of_quiet (quiet_mstore _) (uniform_mstore _)).andNext
  | mstore8 => exact (follows_of_quiet (quiet_mstore8 _) (uniform_mstore8 _)).andNext
  | address | caller | callValue => exact (follows_frame fun _ _ _ => follows_onStack _).andNext
  | balance => exact (follows_of_quiet quiet_balance uniform_balance).andNext
  | selfBalance => exact (follows_of_quiet quiet_selfBalance uniform_selfBalance).andNext
  | codeHash => exact (follows_of_quiet quiet_codeHash uniform_codeHash).andNext
  | sload => exact (follows_of_quiet quiet_sload uniform_sload).andNext
  | sstore => exact follows_sstore.andNext
  | tload => exact (follows_of_quiet quiet_tload uniform_tload).andNext
  | tstore => exact follows_tstore.andNext
  | call => exact (follows_call hrun).andNext
  | staticCall => exact (follows_staticCall hrun).andNext
  | delegateCall => exact (follows_delegateCall hrun).andNext
  | create => exact (follows_create prices hrun).andNext
  | selfDestruct => exact follows_selfDestruct.bind fun _ => follows_pure _
  | ret => exact (follows_of_quiet (quiet_popRange _) (uniform_popRange _)).map _
  | restrict => exact (follows_restrict prices).andNext

theorem follows_step (prices : Pricing) (hrun : K.Tracks run run') :
    K.Follows (step prices run) (step prices run') := by
  refine (follows_of_quiet quiet_fetch uniform_fetch).bind fun found => ?_
  cases found with
  | none => exact follows_pure _
  | some op =>
    refine (follows_of_quiet (quiet_charge _) (uniform_charge _)).bind fun _ => ?_
    exact follows_perform prices hrun op

end Calls

/-! ## Whole runs -/

section Runs

variable [Source σ] {prices : Pricing} {note : Note ε σ}

theorem recorded_succ (budget : Nat) (r : Activation (Recorded ε σ)) :
    r.finishWith (recorded note prices) (budget + 1) =
      Activation.proceed (Activation.finishWith (recorded note prices) budget)
        (recorded note prices (Frame.recorded note prices budget) r) := rfl

/-- From states that differ in the guard, the runs do the same to the end, or the record shows that
the first one is lost. -/
theorem follows_finish (hnote : K.Shows note) (prices : Pricing) (budget : Nat)
    (r : Activation (Recorded ε σ)) (h : FrameGuard) (hr : K.guards r.frame.guard h) :
    (K.lost r.txn.events → K.lost (r.finishWith (recorded note prices) budget).state.events) ∧
      (K.lost (r.finishWith (recorded note prices) budget).state.events ∨
        (r.plain h).finish prices budget =
          (r.finishWith (recorded note prices) budget).mapState Txn.plain) := by
  induction budget generalizing r h with
  | zero => exact ⟨id, .inr rfl⟩
  | succ budget ih =>
    have hrun : K.Tracks (Frame.recorded note prices budget) (Frame.run prices budget) :=
      fun child h code gas t hchild => ih (.start child code gas t) h hchild
    obtain ⟨hkeep, hends⟩ := follows_step prices hrun r h hr
    rw [Activation.finish_succ, recorded_succ]
    unfold recorded
    cases hs : step prices (Frame.recorded note prices budget) r with
    | error e s =>
      rw [hs] at hkeep hends
      have hshown : K.lost s.txn.events →
          K.lost (s.txn.record (note r (.error e s))).events := K.append _
      dsimp only [EStateM.Result.mapState]
      rw [Activation.state_proceed_error]
      refine ⟨fun hlost => hshown (hkeep hlost), ?_⟩
      obtain he | hlost | ⟨h', _, hy⟩ := hends
      · exact .inl (hnote r e s _ he)
      · exact .inl (hshown hlost)
      · rw [hy]
        cases e <;> exact .inr rfl
    | ok next s =>
      rw [hs] at hkeep hends
      have hshown : K.lost s.txn.events →
          K.lost (s.txn.record (note r (.ok next s))).events := K.append _
      obtain ⟨h', hs', hends⟩ := hends
      cases next with
      | exit status output =>
        refine ⟨fun hlost => hshown (hkeep hlost), hends.imp hshown fun hy => ?_⟩
        rw [hy]
        rfl
      | next pc =>
        obtain ⟨hrest, hsame⟩ := ih
          { s with txn := s.txn.record (note r (.ok (.next pc) s)), pc := pc } h' hs'
        refine ⟨fun hlost => hrest (hshown (hkeep hlost)), ?_⟩
        obtain hlost | hy := hends
        · exact .inl (hrest (hshown hlost))
        · rw [hy]
          exact hsame

end Runs

/-- A run against itself: the guards are the same, and nothing is excused. -/
def same : Comparison ε where
  guards g h := g = h
  excused _ := False
  lost _ := False
  child hg := congrArg FrameGuard.child hg
  disable hg := congrArg FrameGuard.disable hg
  enable set hg := congrArg (FrameGuard.enable · set) hg
  permits m hg := .inl (congrArg (FrameGuard.permits · m) hg.symm)
  append _ := id

end Comparison

/-- To keep a record changes nothing: without it, a recorded run is the run. -/
theorem Frame.run_plain [Source σ] (note : Note ε σ) (prices : Pricing) (budget : Nat) (f : Frame)
    (code : Code) (gasLimit : Nat) (t : Txn (Recorded ε σ)) :
    f.run prices budget code gasLimit t.plain =
      (f.recorded note prices budget code gasLimit t).mapState Txn.plain := by
  have hnote : Comparison.same.Shows note := fun _ _ _ _ he => he.elim
  have hrun := Comparison.follows_finish hnote prices budget (.start f code gasLimit t) f.guard rfl
  exact hrun.2.resolve_left id

/-- The same for a single step, if it holds of the frames that the step enters. -/
theorem Exec.step_plain [Source σ] (prices : Pricing) {run : Runner (Recorded ε σ)} {run' : Runner σ}
    (hrun : ∀ f code gas t, run' f code gas t.plain = (run f code gas t).mapState Txn.plain)
    (r : Activation (Recorded ε σ)) :
    step prices run' (r.plain r.frame.guard) =
      (step prices run r).mapState fun s => s.plain s.frame.guard := by
  have htracks : Comparison.same.Tracks run run' := by
    rintro f h code gas t rfl
    exact ⟨id, .inr (hrun f code gas t)⟩
  have hstep := (Comparison.follows_step prices htracks r r.frame.guard rfl).2
  cases hs : step prices run r with
  | ok next s =>
    rw [hs] at hstep
    obtain ⟨h, rfl, hsame⟩ := hstep
    exact hsame.resolve_left id
  | error e s =>
    rw [hs] at hstep
    obtain ⟨h, rfl, hsame⟩ := (hstep.resolve_left id).resolve_left id
    exact hsame

/-- A run is the run that is recorded from an empty record on, without the record. -/
theorem Frame.run_eq_recorded [Source σ] (note : Note ε σ) (prices : Pricing) (budget : Nat)
    (f : Frame) (code : Code) (gasLimit : Nat) (t : Txn σ) :
    f.run prices budget code gasLimit t =
      (f.recorded note prices budget code gasLimit t.recording).mapState Txn.plain :=
  f.run_plain note prices budget code gasLimit t.recording

/-- What a run leaves is what the recorded run leaves, without the record. -/
theorem Frame.state_run [Source σ] (note : Note ε σ) (prices : Pricing) (budget : Nat) (f : Frame)
    (code : Code) (gasLimit : Nat) (t : Txn σ) :
    (f.run prices budget code gasLimit t).state =
      (f.recorded note prices budget code gasLimit t.recording).state.plain := by
  rw [f.run_eq_recorded note, EStateM.Result.state_mapState]

/-- What a step leaves of the transaction is what the recorded step leaves, without the record. -/
theorem Activation.txn_step [Source σ] (note : Note ε σ) (prices : Pricing) (budget : Nat)
    (r : Activation σ) :
    (Exec.step prices (Frame.run prices budget) r).state.txn =
      (Exec.recorded note prices (Frame.recorded note prices budget)
        r.recording).state.txn.plain := by
  have hplain : Exec.step prices (Frame.run prices budget) r =
      (Exec.step prices (Frame.recorded note prices budget) r.recording).mapState fun s =>
        s.plain s.frame.guard :=
    Exec.step_plain prices (Frame.run_plain note prices budget) r.recording
  rw [hplain, Exec.recorded, EStateM.Result.state_mapState, EStateM.Result.state_mapState]
  rfl

end MutationGuard
