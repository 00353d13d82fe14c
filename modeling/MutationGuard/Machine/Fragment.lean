import MutationGuard.Machine.Op
import MutationGuard.Policy.Codec
import MutationGuard.State.Account

/-!
Program fragments that do one thing each and can be strung together: laying out bytes in memory,
restricting the frame, writing slots, calling and creating accounts.
-/

namespace MutationGuard.Fragment

/-- The gas that the call fragments hand over. -/
def callGas : Nat := 2500000

/-- Where the fragments that create accounts lay out their code, clear of an encoded declaration. -/
def initCodeOffset : Nat := 4096

/-- Where `returnTop` stores the word it returns. -/
def returnOffset : Nat := 8192

/-- Pushes a number. -/
def number (n : Nat) : Op := .push (BitVec.ofNat 256 n)

/-- Pushes an address. -/
def address (a : Address) : Op := .push a.toWord

/-- The word whose first bytes are the given ones and whose others are zero. -/
def leftAligned (bytes : Bytes) : Word :=
  Word.ofBytes (bytes ++ List.replicate (32 - bytes.length) 0)

/-- Writes bytes into memory from `offset` on, word by word; the last word is filled with zeroes. -/
def storeBytes (offset : Nat) (bytes : Bytes) : List Op :=
  (Bytes.groups 32 bytes).zipIdx.flatMap fun (group, i) =>
    [number (offset + 32 * i), .push (leftAligned group), .mstore]

/-- Restricts the frame to a declaration, which is encoded at the start of memory. -/
def restrict (d : Declaration) : List Op :=
  storeBytes 0 d.encode ++ [number 0, number d.encode.length, number 1, .restrict]

/-- Lifts the frame's own restriction. -/
def unrestrict : List Op := [number 0, number 0, number 0, .restrict]

/-- Writes a slot of persistent storage. -/
def writeSlot (key value : Nat) : List Op := [number key, number value, .sstore]

/-- Writes a slot of transient storage. -/
def writeTransientSlot (key value : Nat) : List Op := [number key, number value, .tstore]

/-- Calls an account, leaving whether the call succeeded. -/
def call (callee : Address) (value gas : Nat) : List Op :=
  [number gas, address callee, number value, .call]

/-- Runs an account's code as this frame, leaving whether it succeeded. -/
def delegateCall (callee : Address) : List Op := [number callGas, address callee, .delegateCall]

/-- Calls an account that may change nothing, leaving whether the call succeeded. -/
def staticCall (callee : Address) : List Op := [number callGas, address callee, .staticCall]

/-- Code that returns `code`. -/
def deploy (code : Code) : Code :=
  Op.encodeAll (storeBytes 0 code ++ [number 0, number code.length, .ret])

/-- Creates an account whose code is `code`, leaving its address or zero. -/
def create (value : Nat) (code : Code) : List Op :=
  let initCode := deploy code
  storeBytes initCodeOffset initCode ++
    [number value, number initCodeOffset, number initCode.length, .create]

/-- Ends the frame with the top of the stack as output. -/
def returnTop : List Op :=
  [number returnOffset, .swap, .mstore, number returnOffset, number 32, .ret]

/-- The word that an output spells. -/
def returnedWord (output : Bytes) : Word := Word.ofBytes output

end MutationGuard.Fragment
