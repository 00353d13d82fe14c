import MutationGuard.Machine.Bytecode

/-!
Programs as they are read: the operation of one index after the other, in any order, since a program may
jump. Lists of operations and packed operations are not changed by being read. A program that is mapped as
it is read is, and goes on from where the last reading stopped.
-/

namespace MutationGuard

/-- Programs whose operations are read by their index. -/
class Program (ρ : Type) (ε : outParam Type) where
  /-- The operation of an index, or what is wrong there, or nothing past the end; and the program after it
  was read. -/
  access : Nat → ρ → Option (Except ε Op) × ρ

namespace Program

instance : Program (List Op) Empty where
  access i ops := (ops[i]?.map .ok, ops)

instance : Program Bytecode Empty where
  access i p := ((p.op? i).map .ok, p)

instance : Program LazyBytecode ParseError where
  access := LazyBytecode.access

variable {ρ ε : Type}

/-- A program read at indices, one after the other: each index with what is answered. -/
def readings [Program ρ ε] (p : ρ) : List Nat → List (Nat × Option (Except ε Op))
  | [] => []
  | i :: more => (i, (access i p).1) :: readings (access i p).2 more

/-- Whenever the same index is asked for, the answer is the same. -/
def Consistent (read : List (Nat × Option (Except ε Op))) : Prop :=
  ∀ i answer other, (i, answer) ∈ read → (i, other) ∈ read → answer = other

variable [Program ρ ε] {p : ρ}

/-- What holds of each answer as long as something holds of the program, if reading keeps it so. -/
theorem forall_mem_readings (keeps : ρ → Prop) (holds : Nat → Option (Except ε Op) → Prop)
    (hstep : ∀ p i, keeps p → holds i (access i p).1 ∧ keeps (access i p).2) (hp : keeps p)
    {indices : List Nat} {i : Nat} {answer : Option (Except ε Op)}
    (hread : (i, answer) ∈ readings p indices) : holds i answer := by
  induction indices generalizing p with
  | nil => cases hread
  | cons j indices ih =>
    obtain ⟨hanswer, hkeeps⟩ := hstep p j hp
    rcases List.mem_cons.mp hread with heq | hlater
    · cases heq
      exact hanswer
    · exact ih hkeeps hlater

theorem mem_of_mem_readings {indices : List Nat} {i : Nat} {answer : Option (Except ε Op)}
    (hread : (i, answer) ∈ readings p indices) : i ∈ indices := by
  induction indices generalizing p with
  | nil => cases hread
  | cons j indices ih =>
    rcases List.mem_cons.mp hread with heq | hlater
    · cases heq
      exact List.mem_cons_self
    · exact List.mem_cons_of_mem _ (ih hlater)

theorem length_readings (p : ρ) (indices : List Nat) :
    (readings p indices).length = indices.length := by
  induction indices generalizing p with
  | nil => rfl
  | cons i indices ih => exact congrArg (· + 1) (ih _)

/-- A program that reading leaves as it is answers an index always alike. -/
theorem consistent_of_unchanged (h : ∀ i, (access i p).2 = p) (indices : List Nat) :
    Consistent (readings p indices) := by
  have hanswer : ∀ i answer, (i, answer) ∈ readings p indices → answer = (access i p).1 := by
    intro i answer hread
    refine forall_mem_readings (· = p) (fun i answer => answer = (access i p).1) ?_ rfl hread
    rintro q i rfl
    exact ⟨rfl, h i⟩
  intro i answer other hread hother
  rw [hanswer i answer hread, hanswer i other hother]

theorem consistent_operations (ops : List Op) (indices : List Nat) :
    Consistent (readings ops indices) :=
  consistent_of_unchanged (fun _ => rfl) indices

theorem consistent_bytecode (p : Bytecode) (indices : List Nat) : Consistent (readings p indices) :=
  consistent_of_unchanged (fun _ => rfl) indices

end Program
end MutationGuard
