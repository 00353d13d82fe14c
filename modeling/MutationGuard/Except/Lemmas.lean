import Mathlib.Data.List.Forall2

/-!
Results of computations that may fail: what a sequence of them, or a list of them, gives when none fails.
-/

namespace MutationGuard

variable {ε α β γ : Type}

theorem bind_eq_ok_iff {x : Except ε α} {f : α → Except ε β} {b : β} :
    (x >>= f) = .ok b ↔ ∃ a, x = .ok a ∧ f a = .ok b := by
  cases x <;> simp [bind, Except.bind]

theorem map_eq_ok_iff {x : Except ε α} {f : α → β} {b : β} :
    f <$> x = .ok b ↔ ∃ a, x = .ok a ∧ f a = b := by
  cases x <;> simp [Functor.map, Except.map]

theorem exists_of_isOk {x : Except ε α} (h : x.isOk = true) : ∃ a, x = .ok a := by
  cases x with
  | ok a => exact ⟨a, rfl⟩
  | error e => cases h

theorem isOk_of_mem_map_ok {xs : List α} {x : Except ε α} (h : x ∈ xs.map .ok) : x.isOk = true := by
  obtain ⟨a, -, rfl⟩ := List.mem_map.mp h
  rfl

/-- A check that refuses lets through what it does not refuse. -/
theorem ite_throw_eq_ok_iff {c : Prop} [Decidable c] {e : ε} {f : PUnit → Except ε α}
    {x : Except ε α} {a : α} :
    (if c then (throw e : Except ε PUnit) >>= f else x) = .ok a ↔ ¬ c ∧ x = .ok a := by
  by_cases hc : c <;> simp [hc, throw, throwThe, MonadExceptOf.throw, bind, Except.bind]

/-- A list of results is a result when each of them is. -/
theorem mapM_eq_ok_iff {f : α → Except ε β} {xs : List α} {ys : List β} :
    xs.mapM f = .ok ys ↔ List.Forall₂ (fun x y => f x = .ok y) xs ys := by
  induction xs generalizing ys with
  | nil => simp [pure, Except.pure, eq_comm, List.forall₂_nil_left_iff]
  | cons x xs ih =>
    rw [List.mapM_cons, bind_eq_ok_iff]
    constructor
    · rintro ⟨y, hy, hrest⟩
      obtain ⟨zs, hzs, heq⟩ := bind_eq_ok_iff.mp hrest
      cases heq
      exact .cons hy (ih.mp hzs)
    · intro h
      cases h with
      | cons hy hzs => exact ⟨_, hy, bind_eq_ok_iff.mpr ⟨_, ih.mpr hzs, rfl⟩⟩

/-- A list of results is a result when none of them is an error. -/
theorem mapM_id_eq_ok_iff {xs : List (Except ε α)} {ys : List α} :
    xs.mapM id = .ok ys ↔ xs = ys.map .ok := by
  rw [mapM_eq_ok_iff, ← List.forall₂_eq_eq_eq, List.forall₂_map_right_iff]
  rfl

/-- Otherwise the first error among them is what is wrong with the list. -/
theorem mapM_id_eq_error_iff {xs : List (Except ε α)} {e : ε} :
    xs.mapM id = .error e ↔
      ∃ (ys : List α) (rest : List (Except ε α)), xs = ys.map .ok ++ .error e :: rest := by
  induction xs with
  | nil => simp [pure, Except.pure]
  | cons x xs ih =>
    rw [List.mapM_cons]
    cases x with
    | error e' =>
      constructor
      · intro h
        cases h
        exact ⟨[], xs, rfl⟩
      · rintro ⟨ys, rest, h⟩
        cases ys <;> cases h
        rfl
    | ok a =>
      have hlater : ((id (.ok a : Except ε α)) >>= fun y => xs.mapM id >>= fun ys => pure (y :: ys)) =
          .error e ↔ xs.mapM id = .error e := by
        cases xs.mapM id <;> simp [bind, Except.bind, pure, Except.pure]
      rw [hlater, ih]
      constructor
      · rintro ⟨ys, rest, rfl⟩
        exact ⟨a :: ys, rest, rfl⟩
      · rintro ⟨ys, rest, h⟩
        cases ys with
        | nil => cases h
        | cons y ys =>
          cases h
          exact ⟨ys, rest, rfl⟩

/-- Lists whose members give the same results one by one give the same results. -/
theorem mapM_congr {f : α → Except ε γ} {g : β → Except ε γ} {xs : List α} {ys : List β}
    (h : List.Forall₂ (fun x y => f x = g y) xs ys) : xs.mapM f = ys.mapM g := by
  induction h with
  | nil => rfl
  | cons hxy _ ih => rw [List.mapM_cons, List.mapM_cons, hxy, ih]

/-- Where each member is kept or refused, the list is kept, or it is refused for its first bad
member. -/
theorem mapM_ite (p : α → Prop) [DecidablePred p] (e : ε) (xs : List α) :
    xs.mapM (fun x => if p x then Except.ok x else .error e)
      = if ∀ x ∈ xs, p x then .ok xs else .error e := by
  induction xs with
  | nil => simp [pure, Except.pure]
  | cons x xs ih =>
    rw [List.mapM_cons, ih]
    by_cases hx : p x
    · by_cases hxs : ∀ y ∈ xs, p y
      · have hall : ∀ y ∈ x :: xs, p y := List.forall_mem_cons.mpr ⟨hx, hxs⟩
        rw [if_pos hx, if_pos hxs, if_pos hall]
        rfl
      · have hnot : ¬ ∀ y ∈ x :: xs, p y := fun h => hxs (List.forall_mem_cons.mp h).2
        rw [if_pos hx, if_neg hxs, if_neg hnot]
        rfl
    · have hnot : ¬ ∀ y ∈ x :: xs, p y := fun h => hx (h x List.mem_cons_self)
      rw [if_neg hx, if_neg hnot]
      rfl

end MutationGuard
