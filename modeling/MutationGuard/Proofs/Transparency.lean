import MutationGuard.Proofs.Comparison
import MutationGuard.Scenario.Sample

/-!
A restriction is a filter and nothing else. A program that never runs into the restriction above it
cannot tell it from a wider one, or from none: it ends in the same way, with the same gas and output
and in the same state (`restriction_transparent`). What the program restricts and lifts by itself,
and what the frames below it do, may change the two guards in different ways; but the wider one stays
the wider one, and nothing else in the two runs ever differs.
-/

namespace MutationGuard

namespace FrameGuard

/-- The first restriction came from above, and the second one permits all that it does. -/
def Wider (g h : FrameGuard) : Prop :=
  (∃ P, g = .inherited P) ∧ ∀ m, g.permits m = true → h.permits m = true

theorem permits_child (g : FrameGuard) (m : Mutation) : g.child.permits m = g.permits m := by
  cases g <;> rfl

/-- Lifting a restriction takes no permission away. -/
theorem permits_disable {g : FrameGuard} {m : Mutation} (h : g.permits m = true) :
    g.disable.permits m = true := by
  cases g with
  | unrestricted => rfl
  | declared p => rfl
  | inherited p => exact h

/-- Declaring a set takes away no permission that the set has. -/
theorem permits_enable {g : FrameGuard} {set : PermissionSet} {m : Mutation}
    (h : g.permits m = true) (hset : set.permits m = true) : (g.enable set).permits m = true := by
  cases g with
  | unrestricted => exact hset
  | declared p => exact hset
  | inherited p =>
    have hp : (p.intersect set).permits m = true := by
      rw [PermissionSet.permits_intersect, Bool.and_eq_true]
      exact ⟨h, hset⟩
    exact hp

theorem Wider.child {g h : FrameGuard} (hw : g.Wider h) : g.child.Wider h.child := by
  obtain ⟨⟨P, rfl⟩, hm⟩ := hw
  refine ⟨⟨P, rfl⟩, fun m hP => ?_⟩
  rw [permits_child]
  exact hm m hP

theorem Wider.disable {g h : FrameGuard} (hw : g.Wider h) : g.disable.Wider h.disable := by
  obtain ⟨⟨P, rfl⟩, hm⟩ := hw
  exact ⟨⟨P, rfl⟩, fun m hP => permits_disable (hm m hP)⟩

theorem Wider.enable {g h : FrameGuard} (set : PermissionSet) (hw : g.Wider h) :
    (g.enable set).Wider (h.enable set) := by
  obtain ⟨⟨P, rfl⟩, hm⟩ := hw
  refine ⟨⟨P.intersect set, rfl⟩, fun m hP => ?_⟩
  have hboth : P.permits m = true ∧ set.permits m = true := by
    rw [← Bool.and_eq_true, ← PermissionSet.permits_intersect]
    exact hP
  exact permits_enable (hm m hboth.1) hboth.2

end FrameGuard

/-- A run under an inherited restriction against a run under a wider one, until the first denial. -/
def Comparison.wider : Comparison OpError where
  guards := FrameGuard.Wider
  excused e := ∃ d, e = .denied d
  lost events := ∃ d, OpError.denied d ∈ events
  child hw := hw.child
  disable hw := hw.disable
  enable set hw := hw.enable set
  permits {g _} m hw := by
    cases hg : g.permits m with
    | true => exact .inl (hw.2 m hg)
    | false => exact .inr ⟨rfl, _, rfl⟩
  append more hlost := hlost.imp fun _ hd => List.mem_append_left more hd

variable {σ : Type} [Source σ]

/-- A frame under an inherited restriction that denies nothing, to the frame or to any frame below
it, runs as under any restriction that permits at least as much: a larger inherited set, or no
restriction at all. The outcome and the state that is left are the same. -/
theorem restriction_transparent (prices : Pricing) (budget : Nat) (f : Frame) (P : PermissionSet)
    (hf : f.guard = .inherited P) (code : Code) (gasLimit : Nat) (t : Txn σ)
    (hdenied : ∀ d, OpError.denied d ∉ f.errors prices budget code gasLimit t) (g : FrameGuard)
    (hg : ∀ m, P.permits m = true → g.permits m = true) :
    Frame.run prices budget { f with guard := g } code gasLimit t =
      f.run prices budget code gasLimit t := by
  have hnote : Comparison.wider.Shows (Note.error (σ := σ)) := by
    intro r e s events ⟨d, hd⟩
    refine ⟨d, List.mem_append_right events ?_⟩
    rw [hd]
    exact List.mem_singleton_self _
  have hsame : ∀ h : FrameGuard, f.guard.Wider h →
      Frame.run prices budget { f with guard := h } code gasLimit t =
        (f.recorded Note.error prices budget code gasLimit t.recording).mapState Txn.plain := by
    intro h hw
    have hrun := Comparison.follows_finish hnote prices budget
      (.start f code gasLimit t.recording) h hw
    obtain ⟨d, hd⟩ | hrun := hrun.2
    · exact absurd hd (hdenied d)
    · exact hrun
  have hP : f.guard.Wider f.guard := ⟨⟨P, hf⟩, fun _ hm => hm⟩
  have hwider : f.guard.Wider g := by
    refine ⟨⟨P, hf⟩, fun m hm => hg m ?_⟩
    rw [hf] at hm
    exact hm
  exact (hsame g hwider).trans (hsame f.guard hP).symm

/-- The guarded contract tries to lift the restriction, and writes the slot that it may write. -/
theorem restriction_transparent_write :
    let prices := ({} : GasSchedule).pricing
    let P : PermissionSet := .ofDeclaration (Sample.slots [0])
    let t := Sample.withContracts []
    let program := Op.encodeAll
      [.callValue, .callValue, .callValue, .restrict, .callValue, .caller, .sstore]
    (∀ d, OpError.denied d ∉ (Sample.frame (.inherited P)).errors prices 9 program 10000 t) ∧
      (∀ m, P.permits m = true → FrameGuard.unrestricted.permits m = true) ∧
      Frame.run prices 9 (Sample.frame .unrestricted) program 10000 t =
        (Sample.frame (.inherited P)).run prices 9 program 10000 t := by
  intro prices P t program
  have herrors : (Sample.frame (.inherited P)).errors prices 9 program 10000 t = [] := by
    decide +kernel
  have hdenied : ∀ d, OpError.denied d ∉
      (Sample.frame (.inherited P)).errors prices 9 program 10000 t := by
    rw [herrors]
    exact fun _ => List.not_mem_nil
  refine ⟨hdenied, fun _ _ => rfl, ?_⟩
  exact restriction_transparent prices 9 (Sample.frame (.inherited P)) P rfl program 10000 t hdenied
    .unrestricted fun _ _ => rfl

end MutationGuard
