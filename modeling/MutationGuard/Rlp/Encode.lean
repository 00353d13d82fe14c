import MutationGuard.Bytes

/-!
Writing the length-prefixed items of the RLP wire form, each in its shortest spelling.
-/

namespace MutationGuard.Rlp

/-- The lead of an item of `length` payload bytes, with the length itself where it takes more than
the lead. `base` is the lead of the empty item of the same kind. -/
def encodeHeader (base : UInt8) (length : Nat) : Bytes :=
  if length ≤ 55 then [base + UInt8.ofNat length]
  else
    let digits := Bytes.minimal length
    (base + 55 + UInt8.ofNat digits.length) :: digits

/-- A byte string. One byte below 128 stands for itself. -/
def encodeData (data : Bytes) : Bytes :=
  match data with
  | [b] => if b < 0x80 then [b] else encodeHeader 0x80 1 ++ [b]
  | _ => encodeHeader 0x80 data.length ++ data

/-- A number below 256; zero is the empty string. -/
def encodeByte (b : UInt8) : Bytes :=
  encodeData (if b = 0 then [] else [b])

/-- A list of items that are already encoded. -/
def encodeList (items : List Bytes) : Bytes :=
  encodeHeader 0xc0 items.flatten.length ++ items.flatten

end MutationGuard.Rlp
