/-!
A value that is only reached through actions run on it. An action that fails part way still leaves
what it wrote: the lock is not spoiled, and the next action starts from there. So after any actions the
value is what they leave, one after the other (`value_applyAll`), and each answer is that of its action on
what those before it left (`getElem?_applyAll`).
-/

namespace MutationGuard

/-- A value reached through actions only. -/
structure Lock (α : Type) where
  value : α

namespace Lock

variable {α β ε : Type}

/-- Runs an action on the value; whether it fails or not, the value it leaves is kept. -/
def apply (lock : Lock α) (action : EStateM ε α β) : Except ε β × Lock α :=
  match action lock.value with
  | .ok b a => (.ok b, ⟨a⟩)
  | .error e a => (.error e, ⟨a⟩)

/-- Runs actions one after the other, and gives their answers in order. -/
def applyAll (lock : Lock α) : List (EStateM ε α β) → List (Except ε β) × Lock α
  | [] => ([], lock)
  | action :: more =>
    let rest := (lock.apply action).2.applyAll more
    ((lock.apply action).1 :: rest.1, rest.2)

/-- Appends an item and then fails with `failure`, if there is one; otherwise gives the new length.
-/
def append (item : α) (failure : Option ε) : EStateM ε (List α) Nat := do
  modify (· ++ [item])
  match failure with
  | some e => throw e
  | none => return (← get).length

/-- What an action leaves of a value, whether it fails or not. -/
def leaves (action : EStateM ε α β) (a : α) : α :=
  match action a with
  | .ok _ left => left
  | .error _ left => left

theorem value_apply (lock : Lock α) (action : EStateM ε α β) :
    (lock.apply action).2.value = leaves action lock.value := by
  unfold apply leaves
  cases action lock.value <;> rfl

/-- After actions, failed ones among them, the value is what they leave one after the other. -/
theorem value_applyAll (lock : Lock α) (actions : List (EStateM ε α β)) :
    (lock.applyAll actions).2.value = actions.foldl (fun a action => leaves action a) lock.value := by
  induction actions generalizing lock with
  | nil => rfl
  | cons action more ih =>
    rw [List.foldl_cons, ← value_apply]
    exact ih (lock.apply action).2

-- the item of an append that fails stays
example : ((⟨[1]⟩ : Lock (List Nat)).applyAll [append 2 (some ()), append 3 none]).2.value = [1, 2, 3] :=
  rfl

/-- Each answer is that of its action on the value that the actions before it left. -/
theorem getElem?_applyAll (lock : Lock α) (actions : List (EStateM ε α β)) (i : Nat) :
    (lock.applyAll actions).1[i]? =
      actions[i]?.map fun action => ((lock.applyAll (actions.take i)).2.apply action).1 := by
  induction actions generalizing lock i with
  | nil => rfl
  | cons action more ih =>
    cases i with
    | zero => rfl
    | succ i => exact ih (lock.apply action).2 i

end Lock
end MutationGuard
