import MutationGuard.Proofs.Destruction

/-!
Nonces and code over time. Unless an account is destroyed, no nonce ever falls, and an account that
has a nonce or code keeps its code (`Grown`). Creating an account is the one operation that installs
code. It looks whether the address is free before the code that makes the account runs, and installs
after it; since nothing is kept of the address but that it was free when the creation began, whatever
runs in between cannot make the installation hit an account that was there before
(`OpEffect.grownUnless`). Main statement: `nonces_grow_code_stays`.
-/

namespace MutationGuard

variable {ε σ : Type} [Source σ]

namespace Txn

/-- The account has a nonce or code. None can be created there. -/
def Occupied (t : Txn σ) (a : Address) : Prop :=
  (∃ n, t.nonce a = .ok n ∧ n ≠ 0) ∨ ∃ code, t.code a = .ok code ∧ code ≠ []

/-- In the later transaction no nonce is less, and where there was a nonce or code the code is the
same. -/
structure Grown (t t' : Txn σ) : Prop where
  nonce : ∀ a n, t.nonce a = .ok n → ∃ n', t'.nonce a = .ok n' ∧ n ≤ n'
  code : ∀ a, t.Occupied a → t'.code a = t.code a

theorem not_occupied {t : Txn σ} {a : Address} (hn : t.nonce a = .ok 0) (hc : t.code a = .ok []) :
    ¬ t.Occupied a := by
  rintro (⟨n, hn', hne⟩ | ⟨code, hc', hne⟩)
  · rw [hn] at hn'
    cases hn'
    exact hne rfl
  · rw [hc] at hc'
    cases hc'
    exact hne rfl

namespace Grown

variable {t t' t'' : Txn σ}

theorem of_eq (hn : ∀ a, t'.nonce a = t.nonce a) (hc : ∀ a, t'.code a = t.code a) : Grown t t' where
  nonce a n h := ⟨n, (hn a).trans h, UInt64.le_refl n⟩
  code a _ := hc a

theorem refl (t : Txn σ) : Grown t t := .of_eq (fun _ => rfl) fun _ => rfl

/-- What is taken stays taken. -/
theorem occupied (h : Grown t t') {a : Address} (ha : t.Occupied a) : t'.Occupied a := by
  obtain ⟨n, hn, hne⟩ | ⟨code, hc, hne⟩ := id ha
  · obtain ⟨n', hn', hle⟩ := h.nonce a n hn
    refine .inl ⟨n', hn', fun hz => hne ?_⟩
    rw [hz] at hle
    exact UInt64.le_zero_iff.mp hle
  · exact .inr ⟨code, (h.code a ha).trans hc, hne⟩

theorem trans (h : Grown t t') (h' : Grown t' t'') : Grown t t'' where
  nonce a n hn := by
    obtain ⟨n', hn', hle⟩ := h.nonce a n hn
    obtain ⟨n'', hn'', hle'⟩ := h'.nonce a n' hn'
    exact ⟨n'', hn'', UInt64.le_trans hle hle'⟩
  code a ha := (h'.code a (h.occupied ha)).trans (h.code a ha)

/-- A nonce may be raised. -/
theorem setNonce {a : Address} {old new : UInt64} (hold : t.nonce a = .ok old) (hle : old ≤ new) :
    Grown t (t.setNonce a new) where
  nonce b n hn := by
    rw [nonce_setNonce]
    by_cases hab : a = b
    · subst hab
      rw [hold] at hn
      cases hn
      exact ⟨new, if_pos rfl, hle⟩
    · exact ⟨n, (if_neg hab).trans hn, UInt64.le_refl n⟩
  code _ _ := rfl

/-- Code may be installed where the address was free to begin with. -/
theorem setCode (h : Grown t t') {a : Address} (ha : ¬ t.Occupied a) (code : Code) :
    Grown t (t'.setCode a code) where
  nonce := h.nonce
  code b hb := by
    have hab : a ≠ b := fun hab => ha (hab ▸ hb)
    rw [code_setCode, if_neg hab]
    exact h.code b hb

theorem transfer {sender recipient : Address} {value : Word}
    (h : t.transfer? sender recipient value = .ok (some t')) : Grown t t' := by
  cases transferred_of_transfer? h <;> exact .of_eq (fun _ => rfl) fun _ => rfl

end Grown

/-- On transactions with a record: grown, unless something more is on record. -/
abbrev GrownUnless (t t' : Txn (Recorded ε σ)) : Prop := Unless Grown t t'

theorem composes_grownUnless : Composes (GrownUnless (ε := ε) (σ := σ)) :=
  composes_unless Grown.refl Grown.trans

end Txn

/-! ## Operations -/

namespace Exec

variable {f f' : Frame} {nonce : UInt64} {value : Word}

/-- A creator's nonce does not wrap around when it is bumped. -/
theorem grown_bumped {t : Txn σ} (hc : Creating f t nonce value) :
    t.Grown (Creating.bumped f t nonce) := by
  refine .setNonce hc.nonce_eq (UInt64.le_iff_toNat_le.mpr ?_)
  have hbound : nonce.toNat < 2 ^ 64 := nonce.toNat_lt
  have hroom : nonce.toNat ≠ 2 ^ 64 - 1 := hc.nonce_ne_max
  have hone : (1 : UInt64).toNat = 1 := rfl
  rw [UInt64.toNat_add, hone]
  omega

/-- The start of an account is only made where there is none. -/
theorem grown_prepare {t prepared : Txn σ} (hn : t.nonce (f.address.created nonce) = .ok 0)
    (hp : Creating.prepare f nonce value t = .ok (some prepared)) : t.Grown prepared :=
  (Txn.Grown.setNonce hn UInt64.zero_le).trans (.transfer hp)

theorem base_of_prepare {t prepared : Txn σ}
    (hp : Creating.prepare f nonce value t = .ok (some prepared)) : prepared.base = t.base :=
  (Txn.base_of_transfer? hp : prepared.base = (t.setNonce _ 1).base)

/-- Every operation but self-destruction lets nonces and code only grow, if the frames it enters do. -/
theorem OpEffect.grownUnless {run : Runner (Recorded ε σ)} {t t' : Txn (Recorded ε σ)} {op : Op}
    (hne : op ≠ .selfDestruct)
    (hrun : ∀ child code gas t, Txn.GrownUnless t (run child code gas t).state)
    (h : OpEffect run f t op f' t') : t.GrownUnless t' := by
  have hR : Txn.Composes (Txn.GrownUnless (ε := ε) (σ := σ)) := Txn.composes_grownUnless
  have hwrite : ∀ {t t' : Txn (Recorded ε σ)}, t'.base = t.base → t.Grown t' → t.GrownUnless t' :=
    .of_base_eq
  have htransfer : ∀ {t t' : Txn (Recorded ε σ)} {sender recipient value},
      t.transfer? sender recipient value = .ok (some t') → t.GrownUnless t' :=
    fun h => hwrite (Txn.base_of_transfer? h) (.transfer h)
  have hsame : ∀ {t t' : Txn (Recorded ε σ)},
      (.ok (some t) : Except Fault (Option (Txn (Recorded ε σ)))) = .ok (some t') →
        t.GrownUnless t' := by
    rintro t t' ⟨⟩
    exact hR.refl t
  have hcreate : ∀ {nonce value code outcome t'}, Creating f t nonce value →
      (Creating.bumped f t nonce).nonce (f.address.created nonce) = .ok 0 →
      Entered run (f.child (f.address.created nonce) value false) code
        (Creating.prepare f nonce value) (Creating.bumped f t nonce) outcome t' →
      t.GrownUnless t' := by
    intro nonce value code outcome t' hc hn he
    have hbumped : t.GrownUnless (Creating.bumped f t nonce) := hwrite rfl (grown_bumped hc)
    refine hbumped.trans Txn.Grown.trans (he.composes hR (fun prepared hp => ?_) fun _ _ => ?_)
    · have hbase : prepared.base = (Creating.bumped f t nonce).base := base_of_prepare hp
      exact hwrite hbase (grown_prepare hn hp)
    · exact hrun _ _ _ _
  cases h with
  | none | lifted | declared => exact hR.refl t
  | stored | storedTransient => exact hwrite rfl (.of_eq (fun _ => rfl) fun _ => rfl)
  | destroyed => exact absurd rfl hne
  | called _ _ _ _ he => exact he.composes hR (fun _ => htransfer) fun _ _ => hrun _ _ _ _
  | calledStatic _ _ he => exact he.composes hR (fun _ => hsame) fun _ _ => hrun _ _ _ _
  | delegated _ _ _ he => exact he.composes hR (fun _ => hsame) fun _ _ => hrun _ _ _ _
  | bumped hc => exact hwrite rfl (grown_bumped hc)
  | created hc hn _ he => exact hcreate hc hn he
  | @installed nonce value code gasLeft output t' hc hn hempty he =>
    -- the address was free after the bump, so it was free before
    have hfree : ¬ t.Occupied (f.address.created nonce) := fun ha =>
      Txn.not_occupied hn hempty ((grown_bumped hc).occupied ha)
    exact (hcreate hc hn he).write rfl fun hgrown => hgrown.setCode hfree output

end Exec

/-! ## Runs -/

section Runs

variable {prices : Pricing} {budget : Nat}

theorem Activation.grownUnless_finish (r : Activation (Recorded Address σ)) :
    r.txn.GrownUnless (r.finishWith (Exec.recorded Note.destroyed prices) budget).state :=
  unless_finish Txn.Grown.refl Txn.Grown.trans
    (fun hne hrun heffect => heffect.grownUnless hne hrun) budget r

/-- Unless an account is destroyed, nonces and code only grow in a run. -/
theorem Frame.grown_run {f : Frame} {code : Code} {gasLimit : Nat} {t : Txn σ}
    (h : f.destroyed prices budget code gasLimit t = []) :
    t.Grown (f.run prices budget code gasLimit t).state := by
  have hrun : t.recording.GrownUnless
      (f.recorded Note.destroyed prices budget code gasLimit t.recording).state :=
    Activation.grownUnless_finish (.start f code gasLimit t.recording)
  have hgrown := hrun.of_events_eq_nil h
  rw [state_run Note.destroyed]
  exact ⟨hgrown.nonce, hgrown.code⟩

/-- The same for a step, with all the frames it enters. -/
theorem Activation.grown_step {r : Activation σ} (h : r.destroyed prices budget = []) :
    r.txn.Grown (Exec.step prices (Frame.run prices budget) r).state.txn := by
  let note : Note Address σ := Note.destroyed
  have hstep : r.recording.txn.GrownUnless
      (Exec.recorded note prices (Frame.recorded note prices budget) r.recording).state.txn := by
    refine Exec.unless_step Txn.Grown.refl fun hne heffect => heffect.grownUnless hne ?_
    exact fun child code gas t => grownUnless_finish (.start child code gas t)
  have hgrown := hstep.of_events_eq_nil h
  rw [txn_step note]
  exact ⟨hgrown.nonce, hgrown.code⟩

end Runs

/-- Nonces never fall, and an account that has a nonce or code keeps its code: in every run that
destroys no account, so in every run of a frame that is static or under an inherited restriction, and
in every step, such as the creation of an account with all that its code does. -/
theorem nonces_grow_code_stays (prices : Pricing) (budget : Nat) :
    (∀ (f : Frame) (code : Code) (gasLimit : Nat) (t : Txn σ),
      f.destroyed prices budget code gasLimit t = [] →
        t.Grown (f.run prices budget code gasLimit t).state) ∧
    (∀ f : Frame, f.isStatic = true ∨ (∃ P, f.guard = .inherited P) →
      ∀ (code : Code) (gasLimit : Nat) (t : Txn σ),
        t.Grown (f.run prices budget code gasLimit t).state) ∧
    ∀ r : Activation σ, r.destroyed prices budget = [] →
      r.txn.Grown (Exec.step prices (Frame.run prices budget) r).state.txn := by
  refine ⟨fun _ _ _ _ => Frame.grown_run, fun f hf code gasLimit t => ?_, fun _ =>
    Activation.grown_step⟩
  exact Frame.grown_run (Frame.destroyed_eq_nil budget hf code gasLimit t)

/-- A contract creates an account and calls itself; the same under a restriction that permits nothing;
and the creating step alone, with its operands on the stack. -/
theorem nonces_grow_code_stays_create :
    let prices := ({} : GasSchedule).pricing
    let program := [.callValue, .callValue, .callValue, .create] ++
      Fragment.call Sample.guarded 0 40000
    let t := Sample.withContracts [(Sample.guarded, program)]
    let f := Sample.frame .unrestricted
    let g := Sample.frame (.inherited ∅)
    let r := { Activation.start f (Op.encodeAll [.create]) 40000 t with stack := ⟨[0, 0, 0]⟩ }
    (f.destroyed prices 40 (Op.encodeAll program) 100000 t = [] ∧
      t.Grown (f.run prices 40 (Op.encodeAll program) 100000 t).state) ∧
    ((∃ P, g.guard = .inherited P) ∧
      t.Grown (g.run prices 40 (Op.encodeAll program) 100000 t).state) ∧
    (r.destroyed prices 40 = [] ∧
      t.Grown (Exec.step prices (Frame.run prices 40) r).state.txn) := by
  intro prices program t f g r
  have hgrown := nonces_grow_code_stays (σ := Table) prices 40
  have hf : f.destroyed prices 40 (Op.encodeAll program) 100000 t = [] := by decide +kernel
  have hg : ∃ P, g.guard = .inherited P := ⟨∅, rfl⟩
  have hr : r.destroyed prices 40 = [] := by decide +kernel
  exact ⟨⟨hf, hgrown.1 f (Op.encodeAll program) 100000 t hf⟩,
    ⟨hg, hgrown.2.1 g (.inr hg) (Op.encodeAll program) 100000 t⟩, hr, hgrown.2.2 r hr⟩

end MutationGuard
