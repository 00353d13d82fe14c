import MutationGuard.Machine.Op

/-!
Programs as packed bytes. A program keeps the encodings of its operations back to back, with the
place where each one starts; an operation is read by parsing again from its start. A program may
also be mapped while it is being read, so that bytes past the last operation asked for are never
parsed.
-/

namespace MutationGuard

/-- A program: where each operation starts, and the encoded operations. -/
structure Bytecode where
  starts : Array Nat := #[]
  bytes : Array UInt8 := #[]
  deriving DecidableEq

namespace Bytecode

/-- The longest encoding of an operation. -/
def longest : Nat := 33

/-- Adds an operation at the end. -/
def push : Bytecode → Op → Bytecode
  | ⟨starts, bytes⟩, op => ⟨starts.push bytes.size, bytes ++ op.encode⟩

/-- The program of a list of operations. -/
def ofOps (ops : List Op) : Bytecode := ops.foldl push {}

/-- The program that the bytes encode, or the first error in them. -/
def parse (bytes : Bytes) : Except ParseError Bytecode :=
  ofOps <$> (Op.parseAll bytes).mapM id

/-- The operation whose encoding starts at a place in the bytes. -/
def opAt? (p : Bytecode) (start : Nat) : Option Op :=
  match Op.parse (p.bytes.extract start (start + longest)).toList with
  | some (.ok op, _) => some op
  | _ => none

/-- The operation of an index. -/
def op? (p : Bytecode) (i : Nat) : Option Op := p.starts[i]?.bind p.opAt?

/-- All operations, in order. -/
def ops (p : Bytecode) : List Op := p.starts.toList.filterMap p.opAt?

/-- The program from an index on, over the same bytes; the end itself is an index. -/
def from? (p : Bytecode) (i : Nat) : Option Bytecode :=
  if i ≤ p.starts.size then some { p with starts := p.starts.extract i } else none

end Bytecode

/-- A program that is mapped as it is read: the part mapped so far, and the bytes still unread. -/
structure LazyBytecode where
  mapped : Bytecode
  unread : Bytes

namespace LazyBytecode

/-- A program none of which is mapped. -/
def ofCode (code : Bytes) : LazyBytecode := ⟨{}, code⟩

/-- Maps operations until `index` is mapped. Stops early at the end of the bytes or at an error, and
tells which; what was consumed stays consumed. -/
def fill (index : Nat) (mapped : Bytecode) (unread : Bytes) :
    Option (Except ParseError Unit) × LazyBytecode :=
  if index < mapped.starts.size then (some (.ok ()), ⟨mapped, unread⟩)
  else
    match _h : Op.parse unread with
    | none => (none, ⟨mapped, unread⟩)
    | some (.error e, rest) => (some (.error e), ⟨mapped, rest⟩)
    | some (.ok op, rest) => fill index (mapped.push op) rest
termination_by unread.length
decreasing_by exact Op.length_lt_of_parse _h

/-- The operation of an index, or nothing past the end, or the error met on the way. -/
def access (index : Nat) (p : LazyBytecode) : Option (Except ParseError Op) × LazyBytecode :=
  let ⟨mapped, unread⟩ := p
  match fill index mapped unread with
  | (none, q) => (none, q)
  | (some (.error e), q) => (some (.error e), q)
  | (some (.ok ()), q) => ((q.mapped.op? index).map .ok, q)

end LazyBytecode
end MutationGuard
