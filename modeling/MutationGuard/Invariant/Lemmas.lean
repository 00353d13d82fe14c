import Mathlib.Data.List.Zip
import MutationGuard.Invariant.Validate
import MutationGuard.Word.Lemmas

/-!
What the checks mean. A constraint admits a change, which is an integer, or it does not
(`Constraint.Admits`); no word wraps around on the way. A report lists the positions it was made of and
the indices of the broken ones (`Report.Lists`), and nothing else does. Samples of the right length get
their report.
-/

namespace MutationGuard

/-! ## Constraints -/

namespace Constraint

/-- Whether a value may change by so much, for so large a delta. -/
def Admits (c : Constraint) (change delta : Int) : Prop :=
  match c with
  | noChange => change = 0
  | increaseExact => change = delta
  | increaseMax => 0 ≤ change ∧ change ≤ delta
  | increaseMin => delta ≤ change
  | decreaseExact => -change = delta
  | decreaseMax => 0 ≤ -change ∧ -change ≤ delta
  | decreaseMin => delta ≤ -change

instance (c : Constraint) (change delta : Int) : Decidable (c.Admits change delta) :=
  match c with
  | noChange => inferInstanceAs (Decidable (change = 0))
  | increaseExact => inferInstanceAs (Decidable (change = delta))
  | increaseMax => inferInstanceAs (Decidable (0 ≤ change ∧ change ≤ delta))
  | increaseMin => inferInstanceAs (Decidable (delta ≤ change))
  | decreaseExact => inferInstanceAs (Decidable (-change = delta))
  | decreaseMax => inferInstanceAs (Decidable (0 ≤ -change ∧ -change ≤ delta))
  | decreaseMin => inferInstanceAs (Decidable (delta ≤ -change))

/-- A test of the difference in one direction, where a difference in the other direction never passes. -/
theorem all_sub?_iff {a b : Word} {test : Word → Bool} (passes : Int → Prop)
    (htest : ∀ d : Word, test d = true ↔ ¬ passes d.toNat) (hpositive : ∀ n, passes n → 0 ≤ n) :
    (a.sub? b).all test = true ↔ ¬ passes ((a.toNat : Int) - b.toNat) := by
  cases hsub : a.sub? b with
  | none =>
    have hlt := Word.lt_of_sub?_eq_none hsub
    exact ⟨fun _ hpasses => by have := hpositive _ hpasses; omega, fun _ => rfl⟩
  | some d =>
    have hdiff : (d.toNat : Int) = a.toNat - b.toNat := by
      have := Word.toNat_of_sub?_eq_some hsub
      omega
    rw [← hdiff]
    exact htest d

/-- A constraint is broken where the integers say so. -/
theorem violated_iff (c : Constraint) (before after delta : Word) :
    c.violated before after delta = true ↔
      ¬ c.Admits ((after.toNat : Int) - before.toNat) delta.toNat := by
  have hfall : -((after.toNat : Int) - before.toNat) = before.toNat - after.toNat := by omega
  cases c with
  | noChange =>
    change (before != after) = true ↔ ¬ ((after.toNat : Int) - before.toNat = 0)
    rw [bne_iff_ne, ne_eq, ← BitVec.toNat_inj]
    omega
  | increaseExact =>
    refine all_sub?_iff (fun n => n = delta.toNat) (fun d => ?_) (by omega)
    rw [bne_iff_ne, ne_eq, ← BitVec.toNat_inj]
    omega
  | increaseMax =>
    refine all_sub?_iff (fun n => 0 ≤ n ∧ n ≤ delta.toNat) (fun d => ?_) (by omega)
    rw [decide_eq_true_iff, BitVec.lt_def]
    omega
  | increaseMin =>
    refine all_sub?_iff (fun n => delta.toNat ≤ n) (fun d => ?_) (by omega)
    rw [decide_eq_true_iff, BitVec.lt_def]
    omega
  | decreaseExact =>
    unfold Admits
    rw [hfall]
    refine all_sub?_iff (fun n => n = delta.toNat) (fun d => ?_) (by omega)
    rw [bne_iff_ne, ne_eq, ← BitVec.toNat_inj]
    omega
  | decreaseMax =>
    unfold Admits
    rw [hfall]
    refine all_sub?_iff (fun n => 0 ≤ n ∧ n ≤ delta.toNat) (fun d => ?_) (by omega)
    rw [decide_eq_true_iff, BitVec.lt_def]
    omega
  | decreaseMin =>
    unfold Admits
    rw [hfall]
    refine all_sub?_iff (fun n => delta.toNat ≤ n) (fun d => ?_) (by omega)
    rw [decide_eq_true_iff, BitVec.lt_def]
    omega

end Constraint

/-- The change as an integer. -/
def Change.rise (p : Change) : Int := (p.after.toNat : Int) - p.before.toNat

/-- Whether the constraint is kept at a position. -/
def Change.Keeps (p : Change) (c : Constraint) : Prop := c.Admits p.rise p.delta.toNat

theorem Change.keeps_noChange_iff (p : Change) : p.Keeps .noChange ↔ p.before = p.after := by
  unfold Keeps rise Constraint.Admits
  dsimp only
  rw [← BitVec.toNat_inj]
  omega

/-! ## Lists of positions -/

section Positions

variable {β γ δ : Type}

theorem zipWith3_replicate (f : β → β → γ → δ) (xs ys : List β) (c : γ) :
    List.zipWith3 f xs ys (List.replicate xs.length c) = List.zipWith (fun x y => f x y c) xs ys := by
  induction xs generalizing ys with
  | nil => rfl
  | cons x xs ih =>
    cases ys with
    | nil => rfl
    | cons y ys => exact congrArg (_ :: ·) (ih ys)

/-- Samples of the same length are the same if they agree at every position. -/
theorem forall_mem_zipWith_iff {f : β → β → γ} (Same : γ → Prop)
    (hsame : ∀ x y, Same (f x y) ↔ x = y) {xs ys : List β} (hlength : xs.length = ys.length) :
    (∀ p ∈ List.zipWith f xs ys, Same p) ↔ xs = ys := by
  induction xs generalizing ys with
  | nil =>
    cases ys with
    | nil => exact ⟨fun _ => rfl, fun _ => nofun⟩
    | cons y ys => cases hlength
  | cons x xs ih =>
    cases ys with
    | nil => cases hlength
    | cons y ys =>
      rw [List.zipWith_cons_cons, List.forall_mem_cons, hsame, ih (Nat.succ.inj hlength),
        List.cons_eq_cons]

end Positions

/-! ## Reports -/

namespace Report

variable {α : Type}

/-- The report lists all positions in order, and the indices of those that are broken in ascending
order. -/
structure Lists (r : Report α) (positions : List α) (Broken : α → Prop) : Prop where
  positions_eq : r.positions = positions
  mem_violations (i : Nat) : i ∈ r.violations ↔ ∃ p, positions[i]? = some p ∧ Broken p
  ascending : r.violations.Pairwise (· < ·)

variable {positions : List α} {Broken : α → Prop}

theorem Lists.nodup {r : Report α} (h : r.Lists positions Broken) : r.violations.Nodup :=
  h.ascending.imp Nat.ne_of_lt

/-- There is one such report. -/
theorem Lists.unique {r r' : Report α} (h : r.Lists positions Broken) (h' : r'.Lists positions Broken) :
    r = r' := by
  have hperm : r.violations.Perm r'.violations :=
    (List.perm_ext_iff_of_nodup h.nodup h'.nodup).mpr fun i =>
      (h.mem_violations i).trans (h'.mem_violations i).symm
  have hviolations : r.violations = r'.violations :=
    hperm.eq_of_pairwise (fun i j _ _ hij hji => absurd hji (Nat.lt_asymm hij)) h.ascending h'.ascending
  have hpositions : r.positions = r'.positions := h.positions_eq.trans h'.positions_eq.symm
  cases r
  cases r'
  exact congrArg₂ Report.mk hviolations hpositions

/-- A report is of a violation if some position is broken. -/
theorem Lists.isViolated_iff {r : Report α} (h : r.Lists positions Broken) :
    r.isViolated = true ↔ ∃ p ∈ positions, Broken p := by
  unfold isViolated
  rw [Bool.not_eq_true', List.isEmpty_eq_false_iff_exists_mem]
  constructor
  · rintro ⟨i, hi⟩
    obtain ⟨p, hp, hbroken⟩ := (h.mem_violations i).mp hi
    exact ⟨p, List.mem_of_getElem? hp, hbroken⟩
  · rintro ⟨p, hp, hbroken⟩
    obtain ⟨i, hi⟩ := List.mem_iff_getElem?.mp hp
    exact ⟨i, (h.mem_violations i).mpr ⟨p, hi, hbroken⟩⟩

theorem lists_ofPositions {broken : α → Bool} (h : ∀ p, broken p = true ↔ Broken p)
    (positions : List α) : (ofPositions broken positions).Lists positions Broken where
  positions_eq := rfl
  mem_violations i := by
    have hmem (p : α) : (p, i) ∈ positions.zipIdx ↔ positions[i]? = some p :=
      List.mk_mem_zipIdx_iff_getElem?
    simp only [ofPositions, List.mem_map, List.mem_filter, Prod.exists, exists_eq_right, hmem, h]
  ascending := by
    unfold ofPositions
    rw [List.pairwise_map]
    apply List.Pairwise.filter
    rw [← List.pairwise_map, List.zipIdx_map_snd]
    exact List.pairwise_lt_range'

end Report

/-! ## Validation -/

theorem checkLengths_of_lt {n m : Nat} (h : maxPositions < n) :
    checkLengths n m = .error (.tooManyPositions n) :=
  if_pos h

theorem checkLengths_of_ne {n m : Nat} (hfits : n ≤ maxPositions) (h : n ≠ m) :
    checkLengths n m = .error .lengthMismatch := by
  unfold checkLengths
  rw [if_neg (Nat.not_lt.mpr hfits), if_pos h]

theorem checkLengths_of_fits {n : Nat} (h : n ≤ maxPositions) : checkLengths n n = .ok () := by
  unfold checkLengths
  rw [if_neg (Nat.not_lt.mpr h), if_neg (fun hne => hne rfl)]

theorem zipWith_zip_eq_zipWith3 (before after deltas : List Word) :
    List.zipWith (fun (b, a) d => (⟨b, a, d⟩ : Change)) (before.zip after) deltas =
      List.zipWith3 Change.mk before after deltas := by
  induction before generalizing after deltas with
  | nil => rfl
  | cons b before ih =>
    cases after with
    | nil => rfl
    | cons a after =>
      cases deltas with
      | nil => rfl
      | cons d deltas => exact congrArg (_ :: ·) (ih after deltas)

/-- Samples that are as long as the list of deltas get their report. -/
theorem exists_validateDeltas (c : Constraint) {before after deltas : List Word}
    (hbefore : before.length = deltas.length) (hafter : after.length = deltas.length)
    (hfits : deltas.length ≤ maxPositions) :
    ∃ report, validateDeltas before after deltas c = .ok report ∧
      report.Lists (List.zipWith3 Change.mk before after deltas) (¬ ·.Keeps c) := by
  have hbroken (p : Change) : c.violated p.before p.after p.delta = true ↔ ¬ p.Keeps c :=
    c.violated_iff p.before p.after p.delta
  refine ⟨_, ?_, Report.lists_ofPositions hbroken _⟩
  unfold validateDeltas
  rw [hbefore, hafter, checkLengths_of_fits hfits, zipWith_zip_eq_zipWith3]
  rfl

/-- Samples of the same length get their report. -/
theorem exists_validateOwners {before after : List Address} (hlength : before.length = after.length)
    (hfits : after.length ≤ maxPositions) :
    ∃ report, validateOwners before after = .ok report ∧
      report.Lists (List.zipWith OwnerChange.mk before after) (fun p => p.before ≠ p.after) := by
  refine ⟨_, ?_, Report.lists_ofPositions (fun p => bne_iff_ne) _⟩
  unfold validateOwners
  rw [hlength, checkLengths_of_fits hfits]
  rfl

end MutationGuard
