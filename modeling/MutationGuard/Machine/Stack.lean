import MutationGuard.Word

/-!
The operand stack of a frame, top first. An operation that fails part way leaves what it has already
taken off the stack off it.
-/

namespace MutationGuard

/-- Why a stack operation fails. -/
inductive StackError where
  /-- There was nothing to pop. -/
  | empty
  /-- There was no room to push. -/
  | overflow
  deriving DecidableEq, Repr

/-- The text of a stack error. -/
def StackError.message : StackError → String
  | .empty => "attempted to pop an empty stack"
  | .overflow => "stack exceeded its size limit"

/-- The operands of a frame, top first. -/
structure Stack where
  words : List Word := []
  deriving DecidableEq

namespace Stack

/-- The largest number of words on a stack. -/
def sizeLimit : Nat := 1024

/-- Operations on a stack. -/
abbrev Action := EStateM StackError Stack

/-- Puts a word on top. -/
def push (w : Word) : Action Unit
  | ⟨words⟩ =>
    if sizeLimit ≤ words.length then .error .overflow ⟨words⟩ else .ok () ⟨w :: words⟩

/-- Puts a truth value on top. -/
def pushBool (b : Bool) : Action Unit := push (Word.ofBool b)

/-- Takes the top word. -/
def pop : Action Word
  | ⟨[]⟩ => .error .empty ⟨[]⟩
  | ⟨w :: rest⟩ => .ok w ⟨rest⟩

/-- Takes the top two words; the top one comes last. -/
def pop2 : Action (Word × Word) := do
  let b ← pop
  let a ← pop
  return (a, b)

/-- Takes the top three words; the top one comes last. -/
def pop3 : Action (Word × Word × Word) := do
  let c ← pop
  let (a, b) ← pop2
  return (a, b, c)

/-- Replaces the top word by a function of it. -/
def map1 (f : Word → Word) : Action Unit := do
  push (f (← pop))

/-- Replaces the top two words by a function of them. -/
def map2 (f : Word → Word → Word) : Action Unit := do
  let (a, b) ← pop2
  push (f a b)

/-- Doubles the top word. -/
def dup : Action Unit := do
  let w ← pop
  push w
  push w

/-- Exchanges the top two words. -/
def swap : Action Unit := do
  let (a, b) ← pop2
  push b
  push a

end Stack
end MutationGuard
