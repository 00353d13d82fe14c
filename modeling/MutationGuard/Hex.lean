import MutationGuard.Bytes

/-!
Hexadecimal text. A number or a byte string is written as `0x` and lowercase digits; the readers
accept exactly that alphabet and return `none` on anything else.
-/

namespace MutationGuard.Hex

/-- The mark in front of every hexadecimal text. -/
def mark : List Char := ['0', 'x']

/-- The value of a lowercase hexadecimal digit. -/
def digit? (c : Char) : Option Nat :=
  if '0' ≤ c ∧ c ≤ '9' then some (c.toNat - '0'.toNat)
  else if 'a' ≤ c ∧ c ≤ 'f' then some (c.toNat - 'a'.toNat + 10)
  else none

/-- The two digits of a byte. -/
def byteDigits (b : UInt8) : List Char :=
  [Nat.digitChar (b.toNat / 16), Nat.digitChar (b.toNat % 16)]

/-- A byte string as text, two digits per byte. -/
def ofBytes (bytes : Bytes) : String :=
  bytes.foldl
    (fun text b => (text.push (Nat.digitChar (b.toNat / 16))).push (Nat.digitChar (b.toNat % 16)))
    (String.ofList mark)

/-- A number as text without leading zeroes. -/
def ofNat (n : Nat) : String :=
  String.ofList (mark ++ Nat.toDigits 16 n)

/-- A number as text with `width` bytes, two digits each. -/
def ofNatWidth (width n : Nat) : String :=
  ofBytes (Bytes.ofNat width n)

/-- The digits that follow the mark. -/
def digits? (text : String) : Option (List Nat) :=
  match text.toList with
  | '0' :: 'x' :: digits => digits.mapM digit?
  | _ => none

/-- The number that a text spells. -/
def toNat? (text : String) : Option Nat :=
  (digits? text).map (·.foldl (fun n d => 16 * n + d) 0)

/-- Pairs of digits as bytes; a digit left over at the end makes the text unreadable. -/
def pairs? (digits : List Nat) : Option Bytes :=
  match digits.foldl
      (fun (acc, half) d =>
        match half with
        | none => (acc, some d)
        | some high => (UInt8.ofNat (16 * high + d) :: acc, none))
      (([], none) : Bytes × Option Nat) with
  | (acc, none) => some acc.reverse
  | (_, some _) => none

/-- The byte string that a text spells. -/
def toBytes? (text : String) : Option Bytes :=
  (digits? text).bind pairs?

end MutationGuard.Hex
