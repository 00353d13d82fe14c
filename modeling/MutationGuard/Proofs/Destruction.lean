import MutationGuard.Proofs.Comparison

/-!
Runs on which no account is destroyed. `Frame.destroyed` is the record of the accounts that a run
destroys, in the frame itself and in all the frames below it, whether or not the destruction is rolled
back later. What every other operation keeps, a run without such a destruction keeps (`unless_finish`),
and static frames and frames under an inherited restriction destroy nothing (`destroyed_eq_nil`).
-/

namespace MutationGuard

variable {ε σ : Type}

/-- The account of a frame that performs a self-destruction. -/
def Note.destroyed : Note Address σ
  | r, .ok _ _ => if r.next? = some .selfDestruct then [r.frame.address] else []
  | _, .error _ _ => []

/-- The accounts that are destroyed while the code of a frame runs, in the frame and in all the frames
below it. -/
def Frame.destroyed [Source σ] (prices : Pricing) (budget : Nat) (f : Frame) (code : Code)
    (gasLimit : Nat) (t : Txn σ) : List Address :=
  (f.recorded Note.destroyed prices budget code gasLimit t.recording).state.events

/-- The accounts that are destroyed in one step, in the frame and in all the frames the step enters. -/
def Activation.destroyed [Source σ] (prices : Pricing) (budget : Nat) (r : Activation σ) :
    List Address :=
  (Exec.recorded Note.destroyed prices (Frame.recorded Note.destroyed prices budget)
    r.recording).state.txn.events

/-- A self-destruction is rolled back with the contract that was called, but stays on record. -/
example :
    (Sample.frame .unrestricted).destroyed ({} : GasSchedule).pricing 9
      (Op.encodeAll (Fragment.call Sample.bob 0 5010)) 10000
      (Sample.withContracts [(Sample.bob, [.caller, .selfDestruct])]) = [Sample.bob] := by
  decide +kernel

namespace Txn

/-- The record has only grown; and unless it has, the relation holds. -/
structure Unless (R : Txn (Recorded ε σ) → Txn (Recorded ε σ) → Prop) (t t' : Txn (Recorded ε σ)) :
    Prop where
  source : t'.base.source = t.base.source
  events : ∃ more, t'.events = t.events ++ more ∧ (more = [] → R t t')

theorem record_nil (t : Txn (Recorded ε σ)) : t.record [] = t := by
  unfold record
  rw [List.append_nil]

namespace Unless

variable {R : Txn (Recorded ε σ) → Txn (Recorded ε σ) → Prop} {t t' t'' : Txn (Recorded ε σ)}

theorem of_base_eq (hbase : t'.base = t.base) (h : R t t') : Unless R t t' := by
  refine ⟨congrArg Recorded.source hbase, [], ?_, fun _ => h⟩
  rw [List.append_nil]
  exact congrArg Recorded.events hbase

/-- Once something is on record, nothing more is promised. -/
theorem of_record (hbase : t'.base = t.base) {events : List ε} (hne : events ≠ []) :
    Unless R t (t'.record events) := by
  have hsource : t'.base.source = t.base.source := congrArg Recorded.source hbase
  refine ⟨hsource, events, ?_, fun hnil => absurd hnil hne⟩
  exact congrArg (fun b : Recorded ε σ => b.events ++ events) hbase

theorem trans (htrans : ∀ {t t' t''}, R t t' → R t' t'' → R t t'') (h : Unless R t t')
    (h' : Unless R t' t'') : Unless R t t'' := by
  obtain ⟨more, hmore, hR⟩ := h.events
  obtain ⟨more', hmore', hR'⟩ := h'.events
  refine ⟨h'.source.trans h.source, more ++ more', ?_, fun hnil => ?_⟩
  · rw [hmore', hmore, List.append_assoc]
  · obtain ⟨hnil, hnil'⟩ := List.append_eq_nil_iff.mp hnil
    exact htrans (hR hnil) (hR' hnil')

/-- A write after which more or less is known than before. -/
theorem write (h : Unless R t t') (hbase : t''.base = t'.base) (hwrite : R t t' → R t t'') :
    Unless R t t'' := by
  obtain ⟨more, hmore, hR⟩ := h.events
  refine ⟨(congrArg Recorded.source hbase).trans h.source, more, ?_, fun hnil => hwrite (hR hnil)⟩
  exact (congrArg Recorded.events hbase).trans hmore

/-- Rolling back leaves the record where it is. -/
theorem rollback (hrefl : ∀ t, R t t) (h : Unless R t t') :
    Unless R t (t'.rollbackTo t.snapshot) := by
  obtain ⟨more, hmore, _⟩ := h.events
  refine ⟨h.source, more, hmore, fun hnil => ?_⟩
  have hbase : t'.base = t.base := by
    have hevents : t'.base.events = t.base.events := by
      rw [hnil, List.append_nil] at hmore
      exact hmore
    cases hb : t.base
    cases hb' : t'.base
    have hsource := h.source
    rw [hb, hb'] at hsource hevents
    cases hsource
    cases hevents
    rfl
  rw [rollbackTo_snapshot hbase]
  exact hrefl t

/-- A run that has nothing on record. -/
theorem of_events_eq_nil (h : Unless R t t') (hnil : t'.events = []) : R t t' := by
  obtain ⟨more, hmore, hR⟩ := h.events
  rw [hnil] at hmore
  exact hR (List.append_eq_nil_iff.mp hmore.symm).2

end Unless

theorem composes_unless {R : Txn (Recorded ε σ) → Txn (Recorded ε σ) → Prop}
    (hrefl : ∀ t, R t t) (htrans : ∀ {t t' t''}, R t t' → R t' t'' → R t t'') :
    Composes (Unless R) where
  refl t := .of_base_eq rfl (hrefl t)
  trans h h' := h.trans htrans h'
  rollback h := h.rollback hrefl

theorem kept_unless [Source σ] {R : Txn (Recorded ε σ) → Txn (Recorded ε σ) → Prop}
    (hrefl : ∀ t, R t t) (htrans : ∀ {t t' t''}, R t t' → R t' t'' → R t t'')
    (hwrite : ∀ {t t'}, Write t t' → R t t') : Kept (Unless R) where
  toComposes := composes_unless hrefl htrans
  write h := .of_base_eq h.base (hwrite h)

end Txn

namespace Exec

variable [Source σ] {prices : Pricing} {run : Runner σ} {f : Frame} {t : Txn σ}

/-- A self-destruction needs a frame that may mutate and the restriction's permission; refused, it
leaves everything as it was. -/
theorem ensures_selfDestruct :
    Ensures f t selfDestruct
      (fun _ _ _ => f.isStatic = false ∧ f.guard.permits (.selfDestruct f.address) = true)
      (fun f' t' => f' = f ∧ t' = t) := by
  refine (quiet_onStack _).then (fun beneficiary => ?_) ⟨rfl, rfl⟩
  refine Ensures.bind (ensures_requireMutable (fun hs => ?_) ⟨rfl, rfl⟩)
  refine Ensures.bind (ensures_frame ?_)
  refine Ensures.bind (ensures_require (fun hp => ?_) ⟨rfl, rfl⟩)
  refine (quiet_readState _).then (fun balance => ?_) ⟨rfl, rfl⟩
  refine (quiet_readState _).then (fun moved => ?_) ⟨rfl, rfl⟩
  exact ensures_writeState ⟨hs, hp _ List.mem_cons_self⟩

theorem step_selfDestruct {r : Activation σ} (h : r.next? = some .selfDestruct) :
    (∀ next s, step prices run r = .ok next s → r.frame.isStatic = false ∧
      r.frame.guard.permits (.selfDestruct r.frame.address) = true) ∧
    ∀ e s, step prices run r = .error e s → s.frame = r.frame ∧ s.txn = r.txn := by
  have hstep : Ensures r.frame r.txn
      (do charge (prices.opCost .selfDestruct); perform prices run .selfDestruct)
      (fun _ _ _ => r.frame.isStatic = false ∧
        r.frame.guard.permits (.selfDestruct r.frame.address) = true)
      (fun f' t' => f' = r.frame ∧ t' = r.txn) := by
    refine (quiet_charge _).then (fun _ => Ensures.bind ?_) ⟨rfl, rfl⟩
    exact ensures_selfDestruct.weaken (fun _ _ _ h => ensures_pure h) fun _ _ h => h
  rw [step_of_next?_eq_some prices run h]
  exact ⟨fun _ _ hr => hstep.of_ok hr rfl rfl, fun _ _ hr => hstep.of_error hr rfl rfl⟩

/-! ## Recorded steps and runs -/

variable {run : Runner (Recorded Address σ)} {r : Activation (Recorded Address σ)}

/-- What every other operation keeps, a step keeps unless it is a self-destruction that succeeds. -/
theorem unless_step {R : Txn (Recorded Address σ) → Txn (Recorded Address σ) → Prop}
    (hrefl : ∀ t, R t t)
    (hop : ∀ {op f' t'}, op ≠ .selfDestruct → OpEffect run r.frame r.txn op f' t' →
      Txn.Unless R r.txn t') :
    Txn.Unless R r.txn (recorded Note.destroyed prices run r).state.txn := by
  have hnothing : ∀ {result : EStateM.Result OpError (Activation (Recorded Address σ)) Step},
      r.next? ≠ some .selfDestruct → Note.destroyed r result = [] := by
    intro result hne
    cases result with
    | ok next s => exact if_neg hne
    | error e s => rfl
  rw [state_recorded]
  cases hnext : r.next? with
  | none =>
    rw [hnothing (by rw [hnext]; exact nofun), Txn.record_nil,
      (step_idle prices run hnext).2]
    exact .of_base_eq rfl (hrefl r.txn)
  | some op =>
    by_cases hsd : op = .selfDestruct
    · subst hsd
      have heffect := step_opEffect prices run hnext
      have hrefused : ∀ e s, step prices run r = .error e s → s.frame = r.frame ∧ s.txn = r.txn :=
        (step_selfDestruct hnext).2
      cases hs : step prices run r with
      | error e s =>
        change Txn.Unless R r.txn (s.txn.record [])
        rw [Txn.record_nil, (hrefused e s hs).2]
        exact .of_base_eq rfl (hrefl r.txn)
      | ok next s =>
        have hnote : Note.destroyed r (.ok next s) = [r.frame.address] := if_pos hnext
        rw [hs] at heffect
        rw [hnote]
        refine .of_record ?_ (List.cons_ne_nil _ _)
        exact heffect.base_of_selfDestruct
    · rw [hnothing (by rw [hnext]; exact fun h => hsd (Option.some.inj h)), Txn.record_nil]
      exact hop hsd (step_opEffect prices run hnext)

end Exec

section Runs

variable [Source σ] {prices : Pricing}

/-- What every operation but self-destruction keeps, a run keeps unless an account is destroyed. -/
theorem Activation.unless_finish
    {R : Txn (Recorded Address σ) → Txn (Recorded Address σ) → Prop} (hrefl : ∀ t, R t t)
    (htrans : ∀ {t t' t''}, R t t' → R t' t'' → R t t'')
    (hop : ∀ {run : Runner (Recorded Address σ)} {f t op f' t'}, op ≠ .selfDestruct →
      (∀ child code gas t, Txn.Unless R t (run child code gas t).state) →
      Exec.OpEffect run f t op f' t' → Txn.Unless R t t')
    (budget : Nat) (r : Activation (Recorded Address σ)) :
    Txn.Unless R r.txn (r.finishWith (Exec.recorded Note.destroyed prices) budget).state := by
  refine finishWith_preserves (G := fun _ => True) (fun t => .of_base_eq rfl (hrefl t))
    (fun _ _ _ h h' => h.trans htrans h') ?_ budget r trivial
  intro run hrun r _
  refine ⟨trivial, Exec.unless_step hrefl fun hne heffect => ?_⟩
  exact hop hne (fun child code gas t => hrun child code gas t trivial) heffect

/-! ## Frames that cannot destroy -/

/-- The frame may change nothing, or is under a restriction from above. -/
def Frame.Bound (f : Frame) : Prop := f.isStatic = true ∨ ∃ P, f.guard = .inherited P

theorem Frame.Bound.below {f child : Frame} (hf : f.Bound) (h : Exec.Below f child) :
    child.Bound := by
  obtain hs | ⟨P, hP⟩ := hf
  · exact .inl (h.isStatic hs)
  · refine .inr ⟨P, ?_⟩
    rw [h.guard, hP]
    rfl

theorem Frame.Bound.effect {run : Runner σ} {f f' : Frame} {t t' : Txn σ} (hf : f.Bound)
    (h : Exec.Effect run f t f' t') : f'.Bound := by
  obtain rfl | rfl | ⟨set, rfl⟩ := h.guard_cases
  · exact hf
  · refine hf.imp id fun ⟨P, hP⟩ => ⟨P, ?_⟩
    rw [hP]
    rfl
  · refine hf.imp id fun ⟨P, hP⟩ => ⟨P.intersect set, ?_⟩
    rw [hP]
    rfl

/-- Such a frame is refused every self-destruction. -/
theorem Frame.Bound.not_destroyed {run : Runner (Recorded Address σ)}
    {r : Activation (Recorded Address σ)} (hr : r.frame.Bound) :
    Note.destroyed r (Exec.step prices run r) = [] := by
  cases hs : Exec.step prices run r with
  | error e s => rfl
  | ok next s =>
    refine if_neg fun hnext => ?_
    obtain ⟨hmutable, hpermitted⟩ := (Exec.step_selfDestruct hnext).1 next s hs
    obtain hstatic | ⟨P, hP⟩ := hr
    · rw [hstatic] at hmutable
      cases hmutable
    · rw [hP] at hpermitted
      cases hpermitted

theorem Txn.kept_events :
    Kept fun t t' : Txn (Recorded ε σ) => t'.events = t.events where
  refl _ := rfl
  trans h h' := h'.trans h
  rollback h := h
  write h := congrArg Recorded.events h.base

/-- A static frame, or one under an inherited restriction, destroys no account, and neither does any
frame below it. -/
theorem Frame.destroyed_eq_nil (budget : Nat) {f : Frame} (hf : f.Bound) (code : Code)
    (gasLimit : Nat) (t : Txn σ) : f.destroyed prices budget code gasLimit t = [] := by
  refine Activation.finishWith_preserves (G := Frame.Bound)
    (R := fun t t' : Txn (Recorded Address σ) => t'.events = t.events)
    (fun _ => rfl) (fun _ _ _ h h' => h'.trans h) ?_ budget
    (.start f code gasLimit t.recording) hf
  intro run hrun r hr
  have heffect := Exec.step_effect prices run r
  rw [Exec.state_recorded, hr.not_destroyed, Txn.record_nil]
  refine ⟨hr.effect heffect, ?_⟩
  obtain ⟨op, heffect⟩ := heffect
  refine heffect.preserves Txn.kept_events (fun _ _ hm => ?_)
    fun child code gas t hchild => hrun child code gas t (hr.below hchild)
  exact congrArg Recorded.events (Txn.base_getD_of_transfer? hm)

end Runs
end MutationGuard
