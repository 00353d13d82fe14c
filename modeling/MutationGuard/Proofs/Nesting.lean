import MutationGuard.Proofs.Protocol
import MutationGuard.Scenario.Sample

/-!
Guards nested around one operation. Each of them takes its first sample before the operation runs and its
second sample after all guards further in have judged theirs, and no guard changes the world: all of them
compare the world that the operation finds with the world that it leaves. The induction is on the list of
guards, the outermost first, so that the guards further in are the rest of the list. Main statement:
`nested_innermost_first`.
-/

namespace MutationGuard

variable {W α : Type}

namespace Guard

/-- The operation under several guards, the outermost first. -/
def nest (guards : List (Guard W)) (operation : Guarded W α) : Guarded W α :=
  guards.foldr around operation

/-- The check finds nothing between two worlds. -/
def Holds (g : Guard W) (w w' : W) : Prop :=
  ∃ before after, g.protocol.before w = .ok before ∧ g.protocol.after w' = .ok after ∧
    g.protocol.passes before after

/-- The check fails between two worlds, and with what. -/
def Breaks (g : Guard W) (w w' : W) (e : InvariantError) : Prop :=
  ∃ before after, g.protocol.before w = .ok before ∧ g.protocol.after w' = .ok after ∧
    ¬ g.protocol.passes before after ∧ g.protocol.reports before after e

/-- The guard is set up well, and can take its first sample. -/
structure Ready (g : Guard W) (w : W) : Prop where
  sized : g.protocol.Sized
  readable : ∃ before, g.protocol.before w = .ok before

/-- A check that fails does not hold. -/
theorem Breaks.not_holds {g : Guard W} {w w' : W} {e : InvariantError} (h : g.Breaks w w' e) :
    ¬ g.Holds w w' := by
  obtain ⟨before, after, hbefore, hafter, hbroken, -⟩ := h
  rintro ⟨before', after', hbefore', hafter', hpasses⟩
  cases hbefore.symm.trans hbefore'
  cases hafter.symm.trans hafter'
  exact hbroken hpasses

section One

variable {g : Guard W} {operation : Guarded W α} {w w' : W}

theorem around_of_error {e : InvariantError} (h : g.Ready w) (hrun : operation w = .error e w') :
    g.around operation w = .error e w' := by
  obtain ⟨before, hbefore⟩ := h.readable
  exact around_of_refuses (.failed h.sized hbefore hrun)

/-- One guard around an operation that succeeds. -/
theorem around_of_ok {x : α} (h : g.Ready w) (hafter : ∃ after, g.protocol.after w' = .ok after)
    (hrun : operation w = .ok x w') :
    g.Holds w w' ∧ g.around operation w = .ok x w' ∨
      ∃ e, g.Breaks w w' e ∧ g.around operation w = .error e w' := by
  obtain ⟨before, hbefore⟩ := h.readable
  obtain ⟨after, hafter⟩ := hafter
  have hjudges := g.judges h.sized hbefore hafter
  have haround := around_of_sampled h.sized hbefore hrun hafter
  cases hverdict : g.verdict before after with
  | ok _ =>
    rw [hverdict] at haround
    exact .inl ⟨⟨before, after, hbefore, hafter, hjudges.ok_iff.mp hverdict⟩, haround⟩
  | error e =>
    rw [hverdict] at haround
    exact .inr ⟨e, ⟨before, after, hbefore, hafter, (hjudges.error_iff e).mp hverdict⟩, haround⟩

end One

section All

variable {guards : List (Guard W)} {operation : Guarded W α} {w w' : W}

/-- The error of the operation comes out through all guards. -/
theorem nest_of_error {e : InvariantError} (hready : ∀ g ∈ guards, g.Ready w)
    (hrun : operation w = .error e w') : nest guards operation w = .error e w' := by
  induction guards with
  | nil => exact hrun
  | cons g inner ih =>
    obtain ⟨hg, hinner⟩ := List.forall_mem_cons.mp hready
    exact around_of_error hg (ih hinner)

/-- All checks hold, or the innermost one that does not hold gives the error. -/
theorem nest_of_ok {x : α} (hready : ∀ g ∈ guards, g.Ready w)
    (hafter : ∀ g ∈ guards, ∃ after, g.protocol.after w' = .ok after)
    (hrun : operation w = .ok x w') :
    (∀ g ∈ guards, g.Holds w w') ∧ nest guards operation w = .ok x w' ∨
      ∃ outer g inner e, guards = outer ++ g :: inner ∧ g.Breaks w w' e ∧
        (∀ h ∈ inner, h.Holds w w') ∧ nest guards operation w = .error e w' := by
  induction guards with
  | nil => exact .inl ⟨nofun, hrun⟩
  | cons g inner ih =>
    obtain ⟨hg, hinner⟩ := List.forall_mem_cons.mp hready
    obtain ⟨hgafter, hinnerafter⟩ := List.forall_mem_cons.mp hafter
    obtain ⟨hholds, hnest⟩ | ⟨outer, g', inner', e, rfl, hbreaks, hholds, hnest⟩ :=
      ih hinner hinnerafter
    · -- Nothing further in fails: this guard is the one to judge.
      obtain ⟨hg', haround⟩ | ⟨e, hbreaks, haround⟩ := around_of_ok hg hgafter hnest
      · exact .inl ⟨List.forall_mem_cons.mpr ⟨hg', hholds⟩, haround⟩
      · exact .inr ⟨[], g, inner, e, rfl, hbreaks, hholds, haround⟩
    · -- To this guard the failure further in is a failure of its operation.
      exact .inr ⟨g :: outer, g', inner', e, rfl, hbreaks, hholds, around_of_error hg hnest⟩

end All

end Guard

/-- Guards that are set up well and whose reads succeed, nested around an operation. The whole succeeds
exactly if the operation succeeds and every check holds between the world before and the world after it.
If the operation succeeds and some check does not hold, the error is the violation of the innermost guard
whose check does not hold. If the operation fails, its error comes out unchanged. -/
theorem nested_innermost_first {guards : List (Guard W)} {operation : Guarded W α} {w : W}
    (hsized : ∀ g ∈ guards, g.protocol.Sized)
    (hbefore : ∀ g ∈ guards, ∃ before, g.protocol.before w = .ok before)
    (hafter : ∀ x w', operation w = .ok x w' →
      ∀ g ∈ guards, ∃ after, g.protocol.after w' = .ok after) :
    (∀ x w', Guard.nest guards operation w = .ok x w' ↔
      operation w = .ok x w' ∧ ∀ g ∈ guards, g.Holds w w') ∧
    (∀ x w', operation w = .ok x w' → (∃ g ∈ guards, ¬ g.Holds w w') →
      ∃ outer g inner e, guards = outer ++ g :: inner ∧ g.Breaks w w' e ∧
        (∀ h ∈ inner, h.Holds w w') ∧ Guard.nest guards operation w = .error e w') ∧
    ∀ e w', operation w = .error e w' → Guard.nest guards operation w = .error e w' := by
  have hready : ∀ g ∈ guards, g.Ready w := fun g hg => ⟨hsized g hg, hbefore g hg⟩
  refine ⟨fun x w' => ⟨fun h => ?_, ?_⟩, fun x w' hrun ⟨g, hg, hnot⟩ => ?_, fun e w' => ?_⟩
  · cases hrun : operation w with
    | error e w'' => cases h.symm.trans (Guard.nest_of_error hready hrun)
    | ok x' w'' =>
      obtain ⟨hholds, hnest⟩ | ⟨outer, g, inner, e, -, -, -, hnest⟩ :=
        Guard.nest_of_ok hready (hafter x' w'' hrun) hrun
      · cases h.symm.trans hnest
        exact ⟨rfl, hholds⟩
      · cases h.symm.trans hnest
  · rintro ⟨hrun, hall⟩
    obtain ⟨-, hnest⟩ | ⟨outer, g, inner, e, rfl, hbreaks, -, -⟩ :=
      Guard.nest_of_ok hready (hafter x w' hrun) hrun
    · exact hnest
    · exact absurd (hall g (List.mem_append_right outer List.mem_cons_self)) hbreaks.not_holds
  · obtain ⟨hall, -⟩ | hfails := Guard.nest_of_ok hready (hafter x w' hrun) hrun
    · exact absurd (hall g hg) hnot
    · exact hfails
  · exact Guard.nest_of_error hready

/-- Alice pays Bob thirty. The innermost guard allows that; the two guards around it do not, and the
inner one of these is heard. -/
theorem nested_innermost_first_payment :
    let balances : Accessor (Txn Table) Address Word := ⟨fun t a => t.balance a⟩
    let guards : List (Guard (Txn Table)) :=
      [.deltas balances [Sample.alice, Sample.bob] .noChange [0, 0] (.violated (.balances [])),
        .equals balances [Sample.bob] [2000] (.violated (.balance Sample.bob)),
        .deltas balances [Sample.alice] .decreaseMax [30] (.violated (.balance Sample.alice))]
    let t := Sample.withContracts []
    let paid := (t.setBalance Sample.alice 970).setBalance Sample.bob 1030
    let e := InvariantError.violated (.balance Sample.bob) ⟨[0], [⟨2000, 1030, 0⟩]⟩
    let payment : Guarded (Txn Table) Unit := fun _ => .ok () paid
    (∃ outer g inner, guards = outer ++ g :: inner ∧ g.Breaks t paid e ∧
      (∀ h ∈ inner, h.Holds t paid) ∧ Guard.nest guards payment t = .error e paid) ∧
    Guard.nest guards (throw .unsupported : Guarded (Txn Table) Unit) t = .error .unsupported t := by
  intro balances guards t paid e payment
  have hsized : ∀ g ∈ guards, g.protocol.Sized := by decide
  have hbefore : ∀ g ∈ guards, ∃ before, g.protocol.before t = .ok before := by
    have hall : ∀ g ∈ guards, (g.protocol.before t).isOk = true := by decide +kernel
    exact fun g hg => exists_of_isOk (hall g hg)
  have hafter : ∀ g ∈ guards, ∃ after, g.protocol.after paid = .ok after := by
    have hall : ∀ g ∈ guards, (g.protocol.after paid).isOk = true := by decide +kernel
    exact fun g hg => exists_of_isOk (hall g hg)
  have hnot : ∃ g ∈ guards, ¬ g.Holds t paid := by
    refine ⟨_, List.mem_cons_of_mem _ List.mem_cons_self, ?_⟩
    rintro ⟨before, after, hexpected, hread, rfl⟩
    cases hexpected
    have hpaid : ([Sample.bob].mapM (balances.read paid)).toOption = some [1030] := by decide +kernel
    have hkept : [Sample.bob].mapM (balances.read paid) = .ok [2000] := hread
    rw [hkept] at hpaid
    exact absurd hpaid (by decide)
  constructor
  · obtain ⟨outer, g, inner, e', hsplit, hbreaks, hholds, hnest⟩ :=
      (nested_innermost_first hsized hbefore fun _ _ hrun => by cases hrun; exact hafter).2.1
        () paid (rfl : payment t = .ok () paid) hnot
    have hfails : (match Guard.nest guards payment t with
        | .ok _ _ => none
        | .error e _ => some e) = some e := by decide +kernel
    rw [hnest] at hfails
    cases hfails
    exact ⟨outer, g, inner, hsplit, hbreaks, hholds, hnest⟩
  · exact (nested_innermost_first hsized hbefore nofun).2.2 .unsupported t rfl

end MutationGuard
