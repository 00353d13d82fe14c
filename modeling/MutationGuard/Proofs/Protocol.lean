import MutationGuard.Except.Lemmas
import MutationGuard.Invariant.Guard
import MutationGuard.Invariant.Lemmas

/-!
Sampling, running the operation, sampling again and checking. The five kinds of guard differ in what they
sample and in what they compare it with; a `Protocol` says so, in terms of integers and equalities. They
all take the same steps (`Guard.around_eq_run`), and the last step gives what the protocol says for samples
that were taken (`Guard.judges`): these are as long as the check wants them, so that it never fails over
their length. Main statement: `guard_sound_and_complete`.
-/

namespace MutationGuard

variable {W α : Type}

/-! ## Guards as data -/

/-- A guard, with all that it is given but the operation. -/
inductive Guard (W : Type) : Type 1
  | deltas {P : Type} (accessor : Accessor W P Word) (positions : List P) (c : Constraint)
    (required : List Word) (violation : Report Change → InvariantError)
  | equals {P : Type} (accessor : Accessor W P Word) (positions : List P) (expected : List Word)
    (violation : Report Change → InvariantError)
  | owners {P : Type} (accessor : Accessor W P Address) (positions : List P)
    (violation : Report OwnerChange → InvariantError)
  | ownersEqual {P : Type} (accessor : Accessor W P Address) (positions : List P)
    (expected : List Address) (violation : Report OwnerChange → InvariantError)
  | hash {P : Type} (accessor : Accessor W P Hash) (position : P)

/-- The operation under the guard. -/
def Guard.around (g : Guard W) (operation : Guarded W α) : Guarded W α :=
  match g with
  | deltas accessor positions c required violation =>
    Guarded.deltas accessor positions c required violation operation
  | equals accessor positions expected violation =>
    Guarded.equals accessor positions expected violation operation
  | owners accessor positions violation => Guarded.owners accessor positions violation operation
  | ownersEqual accessor positions expected violation =>
    Guarded.ownersEqual accessor positions expected violation operation
  | hash accessor position => Guarded.hash accessor position operation

/-- What a guard samples, and what it makes of the samples. -/
structure Protocol (W : Type) : Type 1 where
  Sample : Type
  /-- How many positions are sampled. -/
  positions : Nat
  /-- How many positions the guard was set up for. -/
  expected : Nat
  before : W → Except Fault Sample
  after : W → Except Fault Sample
  /-- Whether the check finds nothing. -/
  passes : Sample → Sample → Prop
  /-- What the check fails with otherwise. -/
  reports : Sample → Sample → InvariantError → Prop

/-- What each kind of guard does. Expected values stand for a sample of their own, which does not depend
on the world. -/
def Guard.protocol : Guard W → Protocol W
  | deltas accessor positions c required violation =>
    { Sample := List Word
      positions := positions.length
      expected := required.length
      before := fun w => positions.mapM (accessor.read w)
      after := fun w => positions.mapM (accessor.read w)
      passes := fun before after => ∀ p ∈ List.zipWith3 Change.mk before after required, p.Keeps c
      reports := fun before after e => ∃ report,
        report.Lists (List.zipWith3 Change.mk before after required) (¬ ·.Keeps c) ∧
          e = violation report }
  | equals accessor positions expected violation =>
    { Sample := List Word
      positions := positions.length
      expected := expected.length
      before := fun _ => .ok expected
      after := fun w => positions.mapM (accessor.read w)
      passes := fun before after => before = after
      reports := fun before after e => ∃ report,
        report.Lists (List.zipWith3 Change.mk before after (List.replicate before.length 0))
          (fun p => p.before ≠ p.after) ∧ e = violation report }
  | owners accessor positions violation =>
    { Sample := List Address
      positions := positions.length
      expected := positions.length
      before := fun w => positions.mapM (accessor.read w)
      after := fun w => positions.mapM (accessor.read w)
      passes := fun before after => before = after
      reports := fun before after e => ∃ report,
        report.Lists (List.zipWith OwnerChange.mk before after) (fun p => p.before ≠ p.after) ∧
          e = violation report }
  | ownersEqual accessor positions expected violation =>
    { Sample := List Address
      positions := positions.length
      expected := expected.length
      before := fun _ => .ok expected
      after := fun w => positions.mapM (accessor.read w)
      passes := fun before after => before = after
      reports := fun before after e => ∃ report,
        report.Lists (List.zipWith OwnerChange.mk before after) (fun p => p.before ≠ p.after) ∧
          e = violation report }
  | hash accessor position =>
    { Sample := Hash
      positions := 1
      expected := 1
      before := fun w => accessor.read w position
      after := fun w => accessor.read w position
      passes := fun before after => before = after
      reports := fun before after e => e = .codeChanged before after }

namespace Protocol

/-- The guard is set up for as many positions as it samples, and these are not too many. -/
def Sized (p : Protocol W) : Prop := p.positions ≤ maxPositions ∧ p.positions = p.expected

instance (p : Protocol W) : Decidable p.Sized := inferInstanceAs (Decidable (_ ∧ _))

/-- How an operation under a guard fails, and the world that it leaves. Before the first sample is taken
the operation does not matter. Once it has run, the world stays as the operation leaves it. -/
inductive Refuses (p : Protocol W) (operation : Guarded W α) (w : W) : InvariantError → W → Prop
  | oversized (h : maxPositions < p.positions) :
    Refuses p operation w (.tooManyPositions p.positions) w
  | mismatched (hfits : p.positions ≤ maxPositions) (hne : p.positions ≠ p.expected) :
    Refuses p operation w .lengthMismatch w
  | unreadable {fault : Fault} (hsized : p.Sized) (hbefore : p.before w = .error fault) :
    Refuses p operation w (.state fault) w
  | failed {before : p.Sample} {e : InvariantError} {w' : W} (hsized : p.Sized)
    (hbefore : p.before w = .ok before) (hrun : operation w = .error e w') :
    Refuses p operation w e w'
  | lost {before : p.Sample} {x : α} {w' : W} {fault : Fault} (hsized : p.Sized)
    (hbefore : p.before w = .ok before) (hrun : operation w = .ok x w')
    (hafter : p.after w' = .error fault) : Refuses p operation w (.state fault) w'
  | violated {before after : p.Sample} {x : α} {w' : W} {e : InvariantError} (hsized : p.Sized)
    (hbefore : p.before w = .ok before) (hrun : operation w = .ok x w')
    (hafter : p.after w' = .ok after) (hbroken : ¬ p.passes before after)
    (hreported : p.reports before after e) : Refuses p operation w e w'

end Protocol

/-! ## The steps that every guard takes -/

namespace Guarded

variable {β : Type}

theorem bind_apply (operation : Guarded W β) (k : β → Guarded W α) (w : W) :
    (operation >>= k) w =
      match operation w with
      | .error e w' => .error e w'
      | .ok b w' => k b w' := by
  simp only [bind, EStateM.bind]
  cases operation w <;> rfl

theorem ofExcept_bind (x : Except InvariantError β) (k : β → Guarded W α) (w : W) :
    (ofExcept x >>= k) w =
      match x with
      | .error e => .error e w
      | .ok b => k b w := by
  cases x <;> rfl

theorem ofRead_bind (read : W → Except Fault β) (k : β → Guarded W α) (w : W) :
    (ofRead read >>= k) w =
      match read w with
      | .error fault => .error (.state fault) w
      | .ok b => k b w := by
  have hget : (get : Guarded W W) w = .ok w w := rfl
  unfold ofRead
  rw [bind_apply, bind_apply, hget]
  dsimp only
  cases read w <;> rfl

end Guarded

/-- The samples are taken around the operation, and then judged. -/
def Protocol.run (p : Protocol W) (verdict : p.Sample → p.Sample → Except InvariantError Unit)
    (operation : Guarded W α) : Guarded W α := do
  Guarded.ofExcept (checkLengths p.positions p.expected)
  let before ← Guarded.ofRead p.before
  let result ← operation
  let after ← Guarded.ofRead p.after
  Guarded.ofExcept (verdict before after)
  return result

/-- A report of a violation is an error. -/
def Report.judge {β : Type} (violation : Report β → InvariantError) (report : Report β) :
    Except InvariantError Unit :=
  if report.isViolated then .error (violation report) else .ok ()

/-- A hash that is not the same any more is an error. -/
def Hash.judge (before after : Hash) : Except InvariantError Unit :=
  if before = after then .ok () else .error (.codeChanged before after)

namespace Guard

/-- How a guard judges two samples. -/
def verdict : (g : Guard W) → g.protocol.Sample → g.protocol.Sample → Except InvariantError Unit
  | deltas _ _ c required violation, before, after =>
    validateDeltas before after required c >>= Report.judge violation
  | equals _ _ _ violation, before, after =>
    validateDeltas before after (List.replicate (List.length before) 0) .noChange >>=
      Report.judge violation
  | owners _ _ violation, before, after | ownersEqual _ _ _ violation, before, after =>
    validateOwners before after >>= Report.judge violation
  | hash _ _, before, after => Hash.judge before after

/-- A guard that makes a report and fails with it judges the report. -/
theorem ofExcept_judge {β : Type} (found : Except InvariantError (Report β))
    (violation : Report β → InvariantError) (x : α) :
    (do
      let report ← Guarded.ofExcept found
      if report.isViolated then throw (violation report)
      return x : Guarded W α) =
      (do
        Guarded.ofExcept (found >>= Report.judge violation)
        return x) := by
  cases found with
  | error e => rfl
  | ok report =>
    change (if report.isViolated = true then throw (violation report) >>= fun _ => pure x else pure x :
      Guarded W α) = (Guarded.ofExcept (report.judge violation) >>= fun _ => pure x)
    unfold Report.judge
    split <;> rfl

theorem checkOwners_eq (before after : List Address)
    (violation : Report OwnerChange → InvariantError) :
    (Guarded.checkOwners before after violation : Guarded W Unit) =
      Guarded.ofExcept (validateOwners before after >>= Report.judge violation) :=
  (ofExcept_judge (validateOwners before after) violation ()).trans (bind_pure_unit ..)

/-- Every guard is a run of its protocol. Where it takes no first sample, or has no lengths to check, that
step of the protocol does nothing. -/
theorem around_eq_run (g : Guard W) (operation : Guarded W α) :
    g.around operation = g.protocol.run g.verdict operation := by
  cases g with
  | deltas accessor positions c required violation =>
    refine bind_congr fun _ => bind_congr fun before => bind_congr fun x => bind_congr fun after => ?_
    exact ofExcept_judge ..
  | equals accessor positions expected violation =>
    refine bind_congr fun _ => bind_congr fun x => bind_congr fun after => ?_
    exact ofExcept_judge ..
  | owners accessor positions violation =>
    refine bind_congr fun _ => bind_congr fun before => bind_congr fun x => bind_congr fun after => ?_
    exact congrArg (· >>= fun _ => pure x) (checkOwners_eq ..)
  | ownersEqual accessor positions expected violation =>
    refine bind_congr fun _ => bind_congr fun x => bind_congr fun after => ?_
    exact congrArg (· >>= fun _ => pure x) (checkOwners_eq ..)
  | hash accessor position =>
    refine bind_congr fun before => bind_congr fun x => bind_congr fun after => ?_
    change _ = (Guarded.ofExcept (Hash.judge before after) >>= fun _ => pure x)
    unfold Hash.judge
    by_cases h : before = after
    · rw [if_pos h, if_neg (not_not_intro h)]
      rfl
    · rw [if_neg h, if_pos h]
      rfl

/-- The run, with the monad taken away. -/
theorem around_eq (g : Guard W) (operation : Guarded W α) (w : W) :
    g.around operation w =
      match checkLengths g.protocol.positions g.protocol.expected with
      | .error e => .error e w
      | .ok _ =>
        match g.protocol.before w with
        | .error fault => .error (.state fault) w
        | .ok before =>
          match operation w with
          | .error e w' => .error e w'
          | .ok x w' =>
            match g.protocol.after w' with
            | .error fault => .error (.state fault) w'
            | .ok after =>
              match g.verdict before after with
              | .error e => .error e w'
              | .ok _ => .ok x w' := by
  rw [around_eq_run]
  unfold Protocol.run
  simp only [Guarded.ofExcept_bind, Guarded.ofRead_bind, Guarded.bind_apply operation]
  cases checkLengths g.protocol.positions g.protocol.expected with
  | error e => rfl
  | ok _ =>
    cases g.protocol.before w with
    | error fault => rfl
    | ok before =>
      dsimp only
      cases operation w with
      | error e w' => rfl
      | ok x w' =>
        dsimp only
        cases g.protocol.after w' with
        | error fault => rfl
        | ok after =>
          dsimp only
          cases g.verdict before after <;> rfl

end Guard

/-! ## What a verdict means -/

/-- The verdict lets pass what it should, and otherwise fails with what is to be reported. -/
structure Judges (verdict : Except InvariantError Unit) (passes : Prop)
    (reports : InvariantError → Prop) : Prop where
  ok_iff : verdict = .ok () ↔ passes
  error_iff (e : InvariantError) : verdict = .error e ↔ ¬ passes ∧ reports e

theorem Report.judges {β : Type} {report : Report β} {positions : List β} {Broken : β → Prop}
    (h : report.Lists positions Broken) (violation : Report β → InvariantError) :
    Judges (report.judge violation) (∀ p ∈ positions, ¬ Broken p)
      (fun e => ∃ r : Report β, r.Lists positions Broken ∧ e = violation r) := by
  have hviolated := h.isViolated_iff
  unfold judge
  by_cases hv : report.isViolated = true
  · obtain ⟨p, hp, hbroken⟩ := hviolated.mp hv
    rw [if_pos hv]
    have hnot : ¬ ∀ p ∈ positions, ¬ Broken p := fun hall => hall p hp hbroken
    refine ⟨⟨nofun, fun hall => absurd hall hnot⟩, fun e => ⟨fun he => ?_, fun he => ?_⟩⟩
    · cases he
      exact ⟨hnot, report, h, rfl⟩
    · obtain ⟨-, r, hr, rfl⟩ := he
      rw [h.unique hr]
  · have hall : ∀ p ∈ positions, ¬ Broken p := fun p hp hbroken =>
      hv (hviolated.mpr ⟨p, hp, hbroken⟩)
    rw [if_neg hv]
    exact ⟨⟨fun _ => hall, fun _ => rfl⟩, fun e => ⟨nofun, fun he => absurd hall he.1⟩⟩

theorem Hash.judges (before after : Hash) :
    Judges (Hash.judge before after) (before = after) (fun e => e = .codeChanged before after) := by
  unfold judge
  by_cases h : before = after
  · rw [if_pos h]
    exact ⟨⟨fun _ => h, fun _ => rfl⟩, fun e => ⟨nofun, fun he => absurd h he.1⟩⟩
  · rw [if_neg h]
    refine ⟨⟨nofun, fun heq => absurd heq h⟩, fun e => ⟨fun he => ?_, fun he => ?_⟩⟩
    · cases he
      exact ⟨h, rfl⟩
    · rw [he.2]

/-- Owners that were sampled are judged by whether they are the same. -/
theorem judges_owners {before after : List Address} (hlength : before.length = after.length)
    (hfits : after.length ≤ maxPositions) (violation : Report OwnerChange → InvariantError) :
    Judges (validateOwners before after >>= Report.judge violation) (before = after)
      (fun e => ∃ report : Report OwnerChange,
        report.Lists (List.zipWith OwnerChange.mk before after) (fun p => p.before ≠ p.after) ∧
          e = violation report) := by
  obtain ⟨report, hreport, hlists⟩ := exists_validateOwners hlength hfits
  have hsame := forall_mem_zipWith_iff (f := OwnerChange.mk) (fun p => ¬ p.before ≠ p.after)
    (fun _ _ => not_not) hlength
  rw [hreport, ← hsame]
  exact Report.judges hlists violation

/-- Numbers that were sampled are judged by how they have changed. -/
theorem judges_changes (c : Constraint) {before after required : List Word}
    (hbefore : before.length = required.length) (hafter : after.length = required.length)
    (hfits : required.length ≤ maxPositions) (violation : Report Change → InvariantError) :
    Judges (validateDeltas before after required c >>= Report.judge violation)
      (∀ p ∈ List.zipWith3 Change.mk before after required, p.Keeps c)
      (fun e => ∃ report : Report Change,
        report.Lists (List.zipWith3 Change.mk before after required) (¬ ·.Keeps c) ∧
          e = violation report) := by
  obtain ⟨report, hreport, hlists⟩ := exists_validateDeltas c hbefore hafter hfits
  have hjudges := Report.judges hlists violation
  simp only [not_not] at hjudges
  rw [hreport]
  exact hjudges

/-- Numbers that are not to change are judged by whether they are the same. -/
theorem judges_numbers {before after : List Word} (hlength : before.length = after.length)
    (hfits : after.length ≤ maxPositions) (violation : Report Change → InvariantError) :
    Judges (validateDeltas before after (List.replicate before.length 0) .noChange >>=
        Report.judge violation)
      (before = after)
      (fun e => ∃ report : Report Change,
        report.Lists (List.zipWith3 Change.mk before after (List.replicate before.length 0))
          (fun p => p.before ≠ p.after) ∧ e = violation report) := by
  have hzeros : (List.replicate before.length (0 : Word)).length = before.length :=
    List.length_replicate
  have hjudges := judges_changes .noChange hzeros.symm
    (hlength.symm.trans hzeros.symm) (by omega) violation
  simp only [Change.keeps_noChange_iff] at hjudges
  rw [zipWith3_replicate] at hjudges ⊢
  have hsame := forall_mem_zipWith_iff (f := fun b a => Change.mk b a 0) (fun p => p.before = p.after)
    (fun _ _ => Iff.rfl) hlength
  rw [← hsame]
  exact hjudges

theorem length_of_mapM {P V : Type} {read : P → Except Fault V} {positions : List P} {sample : List V}
    (h : positions.mapM read = .ok sample) : sample.length = positions.length :=
  (mapM_eq_ok_iff.mp h).length_eq.symm

/-- Every guard judges the samples that it has taken. -/
theorem Guard.judges (g : Guard W) (hsized : g.protocol.Sized) {w w' : W}
    {before after : g.protocol.Sample} (hbefore : g.protocol.before w = .ok before)
    (hafter : g.protocol.after w' = .ok after) :
    Judges (g.verdict before after) (g.protocol.passes before after)
      (g.protocol.reports before after) := by
  obtain ⟨hfits, hpositions⟩ := hsized
  cases g with
  | deltas accessor positions c required violation =>
    have hb := length_of_mapM hbefore
    have ha := length_of_mapM hafter
    exact judges_changes c (hb.trans hpositions) (ha.trans hpositions)
      (hpositions.symm.trans_le hfits) violation
  | equals accessor positions expected violation =>
    cases hbefore
    have ha := length_of_mapM hafter
    exact judges_numbers (ha.trans hpositions).symm (ha ▸ hfits) violation
  | owners accessor positions violation =>
    have hb := length_of_mapM hbefore
    have ha := length_of_mapM hafter
    exact judges_owners (hb.trans ha.symm) (ha ▸ hfits) violation
  | ownersEqual accessor positions expected violation =>
    cases hbefore
    have ha := length_of_mapM hafter
    exact judges_owners (ha.trans hpositions).symm (ha ▸ hfits) violation
  | hash accessor position => exact Hash.judges before after

/-! ## Main theorem -/

namespace Protocol

variable {p : Protocol W}

theorem checkLengths_of_sized (h : p.Sized) : checkLengths p.positions p.expected = .ok () := by
  rw [← h.2]
  exact checkLengths_of_fits h.1

/-- A guard that is set up wrongly refuses every operation. -/
theorem sized_or_refuses (p : Protocol W) (operation : Guarded W α) (w : W) :
    p.Sized ∨ ∃ e, p.Refuses operation w e w := by
  by_cases hfits : p.positions ≤ maxPositions
  · by_cases heq : p.positions = p.expected
    · exact .inl ⟨hfits, heq⟩
    · exact .inr ⟨_, .mismatched hfits heq⟩
  · exact .inr ⟨_, .oversized (Nat.lt_of_not_le hfits)⟩

end Protocol

namespace Guard

variable {g : Guard W} {operation : Guarded W α} {w w' : W} {x : α}

/-- Once the operation has run, the verdict on the two samples decides. -/
theorem around_of_sampled {before after : g.protocol.Sample} (hsized : g.protocol.Sized)
    (hbefore : g.protocol.before w = .ok before) (hrun : operation w = .ok x w')
    (hafter : g.protocol.after w' = .ok after) :
    g.around operation w =
      match g.verdict before after with
      | .error e => .error e w'
      | .ok _ => .ok x w' := by
  rw [around_eq, Protocol.checkLengths_of_sized hsized, hbefore]
  dsimp only
  rw [hrun]
  dsimp only
  rw [hafter]

theorem around_of_passes {before after : g.protocol.Sample} (hsized : g.protocol.Sized)
    (hbefore : g.protocol.before w = .ok before) (hrun : operation w = .ok x w')
    (hafter : g.protocol.after w' = .ok after) (hpasses : g.protocol.passes before after) :
    g.around operation w = .ok x w' := by
  rw [around_of_sampled hsized hbefore hrun hafter,
    (g.judges hsized hbefore hafter).ok_iff.mpr hpasses]

/-- What a guard refuses, and how. -/
theorem around_of_refuses {e : InvariantError} (h : g.protocol.Refuses operation w e w') :
    g.around operation w = .error e w' := by
  cases h with
  | oversized h => rw [around_eq, checkLengths_of_lt h]
  | mismatched hfits hne => rw [around_eq, checkLengths_of_ne hfits hne]
  | unreadable hsized hbefore => rw [around_eq, Protocol.checkLengths_of_sized hsized, hbefore]
  | failed hsized hbefore hrun =>
    rw [around_eq, Protocol.checkLengths_of_sized hsized, hbefore]
    dsimp only
    rw [hrun]
  | lost hsized hbefore hrun hafter =>
    rw [around_eq, Protocol.checkLengths_of_sized hsized, hbefore]
    dsimp only
    rw [hrun]
    dsimp only
    rw [hafter]
  | violated hsized hbefore hrun hafter hbroken hreported =>
    rw [around_of_sampled hsized hbefore hrun hafter,
      ((g.judges hsized hbefore hafter).error_iff e).mpr ⟨hbroken, hreported⟩]

/-- A guard lets an operation pass, or it refuses it. -/
theorem passes_or_refuses (g : Guard W) (operation : Guarded W α) (w : W) :
    (∃ x w' before after, g.protocol.Sized ∧ g.protocol.before w = .ok before ∧
      operation w = .ok x w' ∧ g.protocol.after w' = .ok after ∧ g.protocol.passes before after) ∨
    ∃ e w', g.protocol.Refuses operation w e w' := by
  obtain hsized | ⟨e, hrefused⟩ := g.protocol.sized_or_refuses operation w
  · cases hbefore : g.protocol.before w with
    | error fault => exact .inr ⟨_, _, .unreadable hsized hbefore⟩
    | ok before =>
      cases hrun : operation w with
      | error e w' => exact .inr ⟨_, _, .failed hsized hbefore hrun⟩
      | ok x w' =>
        cases hafter : g.protocol.after w' with
        | error fault => exact .inr ⟨_, _, .lost hsized hbefore hrun hafter⟩
        | ok after =>
          have hjudges := g.judges hsized hbefore hafter
          cases hverdict : g.verdict before after with
          | ok _ =>
            exact .inl ⟨x, w', before, after, hsized, rfl, rfl, hafter, hjudges.ok_iff.mp hverdict⟩
          | error e =>
            obtain ⟨hbroken, hreported⟩ := (hjudges.error_iff e).mp hverdict
            exact .inr ⟨e, w', .violated hsized hbefore hrun hafter hbroken hreported⟩
  · exact .inr ⟨e, w, hrefused⟩

end Guard

/-- A guard returns what the operation returns exactly if it is set up for as many positions as it
samples, all reads succeed on the world that the operation finds and on the world that it leaves, and no
position has changed in a way that breaks the check. Otherwise it fails in one of the ways that are
listed, with the world as it was if the operation was not to be run, and as the operation left it if it
was. -/
theorem guard_sound_and_complete (g : Guard W) (operation : Guarded W α) (w w' : W) :
    (∀ x, g.around operation w = .ok x w' ↔
      g.protocol.Sized ∧ ∃ before after, g.protocol.before w = .ok before ∧
        operation w = .ok x w' ∧ g.protocol.after w' = .ok after ∧
        g.protocol.passes before after) ∧
    ∀ e, g.around operation w = .error e w' ↔ g.protocol.Refuses operation w e w' := by
  refine ⟨fun x => ⟨fun h => ?_, ?_⟩, fun e => ⟨fun h => ?_, Guard.around_of_refuses⟩⟩
  · obtain ⟨x', w'', before, after, hsized, hbefore, hrun, hafter, hpasses⟩ | ⟨e, w'', hrefused⟩ :=
      g.passes_or_refuses operation w
    · cases h.symm.trans (Guard.around_of_passes hsized hbefore hrun hafter hpasses)
      exact ⟨hsized, before, after, hbefore, hrun, hafter, hpasses⟩
    · cases h.symm.trans (Guard.around_of_refuses hrefused)
  · rintro ⟨hsized, before, after, hbefore, hrun, hafter, hpasses⟩
    exact Guard.around_of_passes hsized hbefore hrun hafter hpasses
  · obtain ⟨x, w'', before, after, hsized, hbefore, hrun, hafter, hpasses⟩ | ⟨e', w'', hrefused⟩ :=
      g.passes_or_refuses operation w
    · cases h.symm.trans (Guard.around_of_passes hsized hbefore hrun hafter hpasses)
    · cases h.symm.trans (Guard.around_of_refuses hrefused)
      exact hrefused

end MutationGuard
