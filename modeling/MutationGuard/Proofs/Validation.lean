import MutationGuard.Except.Lemmas
import MutationGuard.Invariant.Lemmas

/-!
Checking changes against a constraint is integer arithmetic, one position at a time. Samples get their
report exactly if they are as long as the list of deltas and not too long. The report lists every
position in order, and as broken exactly those where the integers break the constraint: the value after,
less the value before, for a rise, and the other way round for a fall, however close the words are to
the largest one. Main statement: `validateDeltas_exact`.
-/

namespace MutationGuard

/-! ## Lengths -/

theorem checkLengths_eq_ok_iff {n m : Nat} : checkLengths n m = .ok () ↔ n = m ∧ m ≤ maxPositions := by
  constructor
  · intro h
    by_cases hfits : n ≤ maxPositions
    · by_cases hne : n = m
      · exact ⟨hne, hne ▸ hfits⟩
      · simp [checkLengths_of_ne hfits hne] at h
    · simp [checkLengths_of_lt (Nat.lt_of_not_le hfits)] at h
  · rintro ⟨rfl, hfits⟩
    exact checkLengths_of_fits hfits

theorem error_of_checkLengths {n m : Nat} {e : InvariantError} (h : checkLengths n m = .error e) :
    e = .lengthMismatch ∨ maxPositions < n ∧ e = .tooManyPositions n := by
  unfold checkLengths at h
  split at h
  · cases h
    exact .inr ⟨by assumption, rfl⟩
  · split at h <;> cases h
    exact .inl rfl

section Samples

variable {before after deltas : List Word} {c : Constraint}

/-- Samples of a wrong length have no report: the error says that the lengths differ, or that there are
too many positions, and how many. -/
theorem error_of_validateDeltas {e : InvariantError}
    (h : validateDeltas before after deltas c = .error e) :
    e = .lengthMismatch ∨
      ∃ n ∈ [before.length, after.length], maxPositions < n ∧ e = .tooManyPositions n := by
  unfold validateDeltas at h
  cases hb : checkLengths before.length deltas.length with
  | error e' =>
    rw [hb] at h
    cases h
    exact (error_of_checkLengths hb).imp_right fun hlong => ⟨_, List.mem_cons_self, hlong⟩
  | ok _ =>
    cases ha : checkLengths after.length deltas.length with
    | error e' =>
      rw [hb, ha] at h
      cases h
      have hmem : after.length ∈ [before.length, after.length] := by simp
      exact (error_of_checkLengths ha).imp_right fun hlong => ⟨_, hmem, hlong⟩
    | ok _ =>
      rw [hb, ha] at h
      cases h

/-- There is a report exactly for samples that are as long as the list of deltas, and not too long. -/
theorem validateDeltas_eq_ok_iff :
    (∃ report, validateDeltas before after deltas c = .ok report) ↔
      before.length = deltas.length ∧ after.length = deltas.length ∧
        deltas.length ≤ maxPositions := by
  constructor
  · rintro ⟨report, h⟩
    obtain ⟨_, hbefore, h⟩ := bind_eq_ok_iff.mp h
    obtain ⟨_, hafter, -⟩ := bind_eq_ok_iff.mp h
    obtain ⟨hb, hfits⟩ := checkLengths_eq_ok_iff.mp hbefore
    obtain ⟨ha, -⟩ := checkLengths_eq_ok_iff.mp hafter
    exact ⟨hb, ha, hfits⟩
  · rintro ⟨hb, ha, hfits⟩
    obtain ⟨report, hreport, -⟩ := exists_validateDeltas c hb ha hfits
    exact ⟨report, hreport⟩

/-! ## Positions -/

/-- What stands at an index of both samples and of the deltas, and nothing else, makes a position. -/
theorem getElem?_zipWith3_change {i : Nat} {p : Change} :
    (List.zipWith3 Change.mk before after deltas)[i]? = some p ↔
      before[i]? = some p.before ∧ after[i]? = some p.after ∧ deltas[i]? = some p.delta := by
  rw [← zipWith_zip_eq_zipWith3, List.getElem?_zipWith_eq_some]
  constructor
  · rintro ⟨⟨b, a⟩, d, hzip, hd, rfl⟩
    obtain ⟨hb, ha⟩ := List.getElem?_zip_eq_some.mp hzip
    exact ⟨hb, ha, hd⟩
  · rintro ⟨hb, ha, hd⟩
    exact ⟨(p.before, p.after), p.delta, List.getElem?_zip_eq_some.mpr ⟨hb, ha⟩, hd, rfl⟩

/-- A report lists all positions, and the broken ones among them. -/
theorem lists_of_validateDeltas {report : Report Change}
    (h : validateDeltas before after deltas c = .ok report) :
    report.Lists (List.zipWith3 Change.mk before after deltas) (¬ ·.Keeps c) := by
  obtain ⟨hb, ha, hfits⟩ := validateDeltas_eq_ok_iff.mp ⟨report, h⟩
  obtain ⟨report', hreport, hlists⟩ := exists_validateDeltas c hb ha hfits
  rw [hreport] at h
  cases h
  exact hlists

theorem length_positions {report : Report Change}
    (h : validateDeltas before after deltas c = .ok report) :
    report.positions.length = deltas.length := by
  obtain ⟨hb, ha, -⟩ := validateDeltas_eq_ok_iff.mp ⟨report, h⟩
  rw [(lists_of_validateDeltas h).positions_eq, ← zipWith_zip_eq_zipWith3, List.length_zipWith,
    List.length_zip]
  omega

end Samples

/-! ## Tags -/

namespace Constraint

theorem toNat_tag_all : ∀ i : Fin all.length, all[i].tag.toNat = i := by decide

/-- A byte stands for the constraint that it is the tag of. -/
theorem ofTag?_eq_some_iff {tag : UInt8} {c : Constraint} : ofTag? tag = some c ↔ c.tag = tag := by
  constructor
  · intro h
    obtain ⟨hlt, hc⟩ := List.getElem?_eq_some_iff.mp h
    have htag : all[tag.toNat].tag.toNat = tag.toNat := toNat_tag_all ⟨tag.toNat, hlt⟩
    rw [← hc]
    exact UInt8.toNat_inj.mp htag
  · rintro rfl
    exact ofTag?_tag c

theorem decode_tag (c : Constraint) : decode c.tag = .ok c := by
  simp [decode, ofTag?_tag]

theorem decode_of_ne {tag : UInt8} (h : ∀ c : Constraint, c.tag ≠ tag) :
    decode tag = .error (.unknownConstraint tag) := by
  have hnone : ofTag? tag = none := Option.eq_none_iff_forall_ne_some.mpr fun c hc =>
    h c (ofTag?_eq_some_iff.mp hc)
  simp [decode, hnone]

end Constraint

/-- Samples have a report exactly if they are as long as the list of deltas and not too long; otherwise
there is an error about the lengths. A report has one position for each index, in order, with the value
before, the value after and the delta of that index. Its violations are the indices, in ascending order,
where the constraint does not admit the change, which is an integer. With the tag of a constraint the
check is the same; any other byte is an error. -/
theorem validateDeltas_exact (before after deltas : List Word) :
    (∀ c : Constraint,
      ((∃ report, validateDeltas before after deltas c = .ok report) ↔
        before.length = deltas.length ∧ after.length = deltas.length ∧
          deltas.length ≤ maxPositions) ∧
      (∀ report, validateDeltas before after deltas c = .ok report →
        report.positions.length = deltas.length ∧
        (∀ (i : Nat) (p : Change), report.positions[i]? = some p ↔
          before[i]? = some p.before ∧ after[i]? = some p.after ∧ deltas[i]? = some p.delta) ∧
        report.violations.Pairwise (· < ·) ∧
        ∀ i : Nat, i ∈ report.violations ↔
          ∃ b a d : Word, before[i]? = some b ∧ after[i]? = some a ∧ deltas[i]? = some d ∧
            ¬ c.Admits ((a.toNat : Int) - b.toNat) d.toNat) ∧
      (∀ e, validateDeltas before after deltas c = .error e →
        e = .lengthMismatch ∨
          ∃ n ∈ [before.length, after.length], maxPositions < n ∧ e = .tooManyPositions n) ∧
      validateDeltasTag before after deltas c.tag = validateDeltas before after deltas c) ∧
    ∀ tag : UInt8, (∀ c : Constraint, c.tag ≠ tag) →
      validateDeltasTag before after deltas tag = .error (.unknownConstraint tag) := by
  refine ⟨fun c => ⟨validateDeltas_eq_ok_iff, fun report h => ?_, fun e => error_of_validateDeltas, ?_⟩,
    fun tag h => ?_⟩
  · have hlists := lists_of_validateDeltas h
    refine ⟨length_positions h, fun i p => ?_, hlists.ascending, fun i => ?_⟩
    · rw [hlists.positions_eq]
      exact getElem?_zipWith3_change
    · rw [hlists.mem_violations]
      constructor
      · rintro ⟨p, hp, hbroken⟩
        obtain ⟨hb, ha, hd⟩ := getElem?_zipWith3_change.mp hp
        exact ⟨p.before, p.after, p.delta, hb, ha, hd, hbroken⟩
      · rintro ⟨b, a, d, hb, ha, hd, hbroken⟩
        exact ⟨⟨b, a, d⟩, getElem?_zipWith3_change.mpr ⟨hb, ha, hd⟩, hbroken⟩
  · unfold validateDeltasTag
    rw [Constraint.decode_tag]
    rfl
  · unfold validateDeltasTag
    rw [Constraint.decode_of_ne h]
    rfl

/-- Two values that must not fall: one stays, and the other falls from the largest word to zero, which as
words would be a rise by one. No constraint has the tag seven. -/
theorem validateDeltas_exact_wrap :
    let before := [7, Word.max]
    let after := [7, 0]
    let deltas := [0, 0]
    (∃ report, validateDeltas before after deltas .increaseMin = .ok report ∧
      1 ∈ report.violations ∧ 0 ∉ report.violations) ∧
    validateDeltasTag before after deltas 7 = .error (.unknownConstraint 7) := by
  intro before after deltas
  obtain ⟨hcheck, htag⟩ := validateDeltas_exact before after deltas
  obtain ⟨hok, hreport, -⟩ := hcheck .increaseMin
  obtain ⟨report, h⟩ := hok.mpr (by decide)
  obtain ⟨-, -, -, hviolations⟩ := hreport report h
  refine ⟨⟨report, h, (hviolations 1).mpr ?_, fun hmem => ?_⟩, htag 7 fun c => ?_⟩
  · exact ⟨Word.max, 0, 0, rfl, rfl, rfl, by decide⟩
  · obtain ⟨b, a, d, hb, ha, hd, hbroken⟩ := (hviolations 0).mp hmem
    cases hb
    cases ha
    cases hd
    exact hbroken (by decide)
  · cases c <;> decide

end MutationGuard
