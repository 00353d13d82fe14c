import MutationGuard.Word

/-!
The operations of the machine and their encoding. Every operation is one opcode byte; a push is
followed by the thirty-two bytes of its word. Where an operation takes several operands they are
listed in the order pushed, so that the last one listed is on top of the stack. Main statement:
every operation parsed leaves a shorter rest, which is why parsing ends.
-/

namespace MutationGuard

/-- An operation of the machine. -/
inductive Op where
  /-- End the frame successfully. -/
  | halt
  /-- Leaves a word. -/
  | push (word : Word)
  /-- Takes `[w]`, leaves nothing. -/
  | pop
  /-- Takes `[w]`, leaves `[w, w]`. -/
  | dup
  /-- Takes `[a, b]`, leaves `[b, a]`. -/
  | swap
  /-- Takes `[a, b]`, leaves `a + b`, wrapping. -/
  | add
  /-- Takes `[a, b]`, leaves `a - b`, wrapping. -/
  | sub
  /-- Takes `[a, b]`, leaves whether they are equal. -/
  | eq
  /-- Takes `[a, b]`, leaves whether `a < b`. -/
  | lt
  /-- Takes `[a]`, leaves whether it is zero. -/
  | not
  /-- Takes `[pc]` and goes on there. -/
  | jump
  /-- Takes `[pc, condition]` and goes on there if the condition is one. -/
  | jumpIf
  /-- Takes `[offset]`, leaves the word there. -/
  | mload
  /-- Takes `[offset, word]` and stores the word. -/
  | mstore
  /-- Takes `[offset, word]` and stores the word's low byte. -/
  | mstore8
  /-- Leaves the address whose state the frame runs against. -/
  | address
  /-- Leaves the address that called the frame. -/
  | caller
  /-- Leaves the value sent into the frame. -/
  | callValue
  /-- Takes `[address]`, leaves its balance. -/
  | balance
  /-- Leaves the frame's own balance. -/
  | selfBalance
  /-- Takes `[address]`, leaves the hash of its code. -/
  | codeHash
  /-- Takes `[key]`, leaves the slot of persistent storage. -/
  | sload
  /-- Takes `[key, value]` and writes the slot of persistent storage. -/
  | sstore
  /-- Takes `[key]`, leaves the slot of transient storage. -/
  | tload
  /-- Takes `[key, value]` and writes the slot of transient storage. -/
  | tstore
  /-- Takes `[gas, address, value]`, leaves whether the call succeeded. -/
  | call
  /-- Takes `[gas, address]`, leaves whether the call succeeded; the callee may change nothing. -/
  | staticCall
  /-- Takes `[gas, address]`, runs that code as this frame, leaves whether it succeeded. -/
  | delegateCall
  /-- Takes `[value, offset, length]`, leaves the new address, or zero. -/
  | create
  /-- Takes `[beneficiary]`, erases the account and ends the frame. -/
  | selfDestruct
  /-- End the frame, discarding its changes. -/
  | revert
  /-- Takes `[offset, length]` and ends the frame with those bytes as output. -/
  | ret
  /-- Takes `[offset, maxLength, enable]` and changes the frame's restriction. -/
  | restrict
  deriving DecidableEq, Inhabited

/-- Why bytes are no operation. -/
inductive ParseError where
  /-- The byte is not an opcode. -/
  | invalidOpcode (byte : UInt8)
  /-- The bytes end inside the word of a push. -/
  | missingPushWord
  deriving DecidableEq, Repr

/-- The text of a parse error. -/
def ParseError.message : ParseError → String
  | .invalidOpcode byte => "invalid opcode 0x" ++ String.ofList (Hex.byteDigits byte)
  | .missingPushWord => "expected a 32-byte word to follow `Push`"

namespace Op

/-- The byte that identifies the operation. -/
def opcode : Op → UInt8
  | halt => 0x00
  | push _ => 0x01
  | pop => 0x02
  | dup => 0x03
  | swap => 0x04
  | add => 0x05
  | sub => 0x06
  | eq => 0x07
  | lt => 0x08
  | not => 0x09
  | jump => 0x10
  | jumpIf => 0x11
  | mload => 0x20
  | mstore => 0x21
  | mstore8 => 0x22
  | address => 0x30
  | caller => 0x31
  | callValue => 0x32
  | balance => 0x33
  | selfBalance => 0x34
  | codeHash => 0x35
  | sload => 0x40
  | sstore => 0x41
  | tload => 0x42
  | tstore => 0x43
  | call => 0x50
  | staticCall => 0x51
  | delegateCall => 0x52
  | create => 0x53
  | selfDestruct => 0x54
  | revert => 0x55
  | ret => 0x56
  | restrict => 0x60

/-- The name of the operation, without its operand. -/
def name : Op → String
  | halt => "Halt"
  | push _ => "Push"
  | pop => "Pop"
  | dup => "Dup"
  | swap => "Swap"
  | add => "Add"
  | sub => "Sub"
  | eq => "Eq"
  | lt => "Lt"
  | not => "Not"
  | jump => "Jump"
  | jumpIf => "JumpIf"
  | mload => "MLoad"
  | mstore => "MStore"
  | mstore8 => "MStore8"
  | address => "Address"
  | caller => "Caller"
  | callValue => "CallValue"
  | balance => "Balance"
  | selfBalance => "SelfBalance"
  | codeHash => "CodeHash"
  | sload => "SLoad"
  | sstore => "SStore"
  | tload => "TLoad"
  | tstore => "TStore"
  | call => "Call"
  | staticCall => "StaticCall"
  | delegateCall => "DelegateCall"
  | create => "Create"
  | selfDestruct => "SelfDestruct"
  | revert => "Revert"
  | ret => "Return"
  | restrict => "Restrict"

/-- The opcode of a push. -/
def pushOpcode : UInt8 := 0x01

/-- The operations that consist of their opcode alone. -/
def bare : List Op :=
  [halt, pop, dup, swap, add, sub, eq, lt, not, jump, jumpIf, mload, mstore, mstore8, address,
   caller, callValue, balance, selfBalance, codeHash, sload, sstore, tload, tstore, call,
   staticCall, delegateCall, create, selfDestruct, revert, ret, restrict]

/-- The operation of an opcode that no operand follows. -/
def ofOpcode? : UInt8 → Option Op
  | 0x00 => some halt
  | 0x02 => some pop
  | 0x03 => some dup
  | 0x04 => some swap
  | 0x05 => some add
  | 0x06 => some sub
  | 0x07 => some eq
  | 0x08 => some lt
  | 0x09 => some not
  | 0x10 => some jump
  | 0x11 => some jumpIf
  | 0x20 => some mload
  | 0x21 => some mstore
  | 0x22 => some mstore8
  | 0x30 => some address
  | 0x31 => some caller
  | 0x32 => some callValue
  | 0x33 => some balance
  | 0x34 => some selfBalance
  | 0x35 => some codeHash
  | 0x40 => some sload
  | 0x41 => some sstore
  | 0x42 => some tload
  | 0x43 => some tstore
  | 0x50 => some call
  | 0x51 => some staticCall
  | 0x52 => some delegateCall
  | 0x53 => some create
  | 0x54 => some selfDestruct
  | 0x55 => some revert
  | 0x56 => some ret
  | 0x60 => some restrict
  | _ => none

/-- The operation of a name, given the word that a push would carry. -/
def ofName? (s : String) (word : Word) : Option Op :=
  (push word :: bare).find? (·.name = s)

/-- The encoding of an operation. -/
def encode : Op → Bytes
  | push word => pushOpcode :: word.toBytes
  | op => [op.opcode]

/-- The encoding of a list of operations. -/
def encodeAll (ops : List Op) : Bytes := ops.flatMap encode

/-- Takes the operation, or the error, at the front of the bytes, and gives the bytes after it. A
byte that is no opcode is passed over by itself; a push without its whole word takes all that is
left. -/
def parse : Bytes → Option (Except ParseError Op × Bytes)
  | [] => none
  | byte :: rest =>
    if byte = pushOpcode then
      let word := rest.take 32
      if word.length < 32 then some (.error .missingPushWord, [])
      else some (.ok (push (Word.ofBytes word)), rest.drop 32)
    else
      match ofOpcode? byte with
      | some op => some (.ok op, rest)
      | none => some (.error (.invalidOpcode byte), rest)

theorem length_lt_of_parse {bytes rest : Bytes} {result : Except ParseError Op}
    (h : parse bytes = some (result, rest)) : rest.length < bytes.length := by
  cases bytes with
  | nil => simp [parse] at h
  | cons byte tail =>
    simp only [parse] at h
    split at h
    · split at h
      · cases h; exact Nat.succ_pos _
      · cases h
        rw [List.length_drop, List.length_cons]
        omega
    · split at h <;> cases h <;> exact Nat.lt_succ_self _

/-- Everything the bytes hold, in order, in front of what was `seen`, which stands last first. -/
def parseAllOnto (seen : List (Except ParseError Op)) (bytes : Bytes) :
    List (Except ParseError Op) :=
  match _h : parse bytes with
  | none => seen.reverse
  | some (result, rest) => parseAllOnto (result :: seen) rest
termination_by bytes.length
decreasing_by exact length_lt_of_parse _h

/-- Everything the bytes hold, in order. Parsing goes on after an error. -/
def parseAll (bytes : Bytes) : List (Except ParseError Op) := parseAllOnto [] bytes

theorem parseAllOnto_eq_append (seen : List (Except ParseError Op)) (bytes : Bytes) :
    parseAllOnto seen bytes = seen.reverse ++ parseAll bytes := by
  induction hn : bytes.length using Nat.strongRecOn generalizing seen bytes with
  | ind n ih =>
    rw [parseAll, parseAllOnto, parseAllOnto]
    split
    · simp
    · next result rest h =>
      have shorter := length_lt_of_parse h
      rw [ih _ (hn ▸ shorter) _ rest rfl, ih _ (hn ▸ shorter) _ rest rfl]
      simp

theorem parseAll_eq (bytes : Bytes) :
    parseAll bytes =
      match parse bytes with
      | none => []
      | some (result, rest) => result :: parseAll rest := by
  rw [parseAll, parseAllOnto]
  split <;> simp_all [parseAllOnto_eq_append]

end Op
end MutationGuard
