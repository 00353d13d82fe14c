import MutationGuard.Bytes
import MutationGuard.Hex
import Std.Data.ExtTreeMap
import Std.Data.ExtTreeSet

/-!
The values that account state is made of: 256-bit words, 20-byte addresses, 32-byte slot keys and
32-byte hashes. Words wrap on addition and subtraction. Addresses and keys are ordered by the number
they spell, so that maps and sets over them list their members in ascending order.
-/

namespace MutationGuard

/-- The unsigned 256-bit machine word. Balances and slot values are words. -/
abbrev Word := BitVec 256

/-- A 20-byte account address. -/
structure Address where
  bits : BitVec 160
  deriving DecidableEq, Inhabited

/-- A 32-byte key of a storage slot. -/
structure Key where
  word : Word
  deriving DecidableEq, Inhabited

/-- A 32-byte digest. -/
structure Hash where
  word : Word
  deriving DecidableEq, Inhabited

/-- The largest value of a 64-bit counter such as a gas amount, an offset or a length. -/
def counterMax : Nat := 0xFFFFFFFFFFFFFFFF

namespace Word

/-- The largest word. -/
def max : Word := BitVec.allOnes 256

/-- The word spelled by the bytes, most significant first, modulo the width. -/
def ofBytes (bytes : Bytes) : Word := BitVec.ofNat 256 (Bytes.toNat bytes)

/-- The 32 bytes of a word, most significant first. -/
def toBytes (w : Word) : Bytes := Bytes.ofNat 32 w.toNat

/-- The word that stands for a truth value. -/
def ofBool (b : Bool) : Word := if b then 1 else 0

/-- Zero reads as false and one as true; no other word is a truth value. -/
def toBool? (w : Word) : Option Bool :=
  if w = 0 then some false else if w = 1 then some true else none

/-- The word as a 64-bit offset, length or index, if it fits. -/
def toCounter? (w : Word) : Option Nat :=
  if w.toNat ≤ counterMax then some w.toNat else none

/-- The lowest byte of a word. -/
def lowByte (w : Word) : UInt8 := UInt8.ofNat w.toNat

/-- The sum, if it does not pass the largest word. -/
def add? (a b : Word) : Option Word :=
  if a.uaddOverflow b then none else some (a + b)

/-- The difference, if it does not fall below zero. -/
def sub? (a b : Word) : Option Word :=
  if b.toNat ≤ a.toNat then some (a - b) else none

/-- The word in hexadecimal, without leading zeroes. -/
def hex (w : Word) : String := Hex.ofNat w.toNat

/-- The word in decimal, as messages show it. -/
def decimal (w : Word) : String := toString w.toNat

/-- The word that a hexadecimal text spells. -/
def ofHex? (text : String) : Option Word := (Hex.toNat? text).map (BitVec.ofNat 256)

end Word

namespace Address

/-- The address whose twenty bytes all equal `b`. -/
def repeated (b : UInt8) : Address := ⟨BitVec.ofNat 160 (Bytes.toNat (List.replicate 20 b))⟩

/-- The address as a word, zero above its twenty bytes. -/
def toWord (a : Address) : Word := a.bits.setWidth 256

/-- The address held by the low twenty bytes of a word. -/
def ofWord (w : Word) : Address := ⟨w.setWidth 160⟩

/-- The twenty bytes of an address. -/
def toBytes (a : Address) : Bytes := Bytes.ofNat 20 a.bits.toNat

/-- The address spelled by the bytes, modulo the width. -/
def ofBytes (bytes : Bytes) : Address := ⟨BitVec.ofNat 160 (Bytes.toNat bytes)⟩

/-- The address as text, forty digits. -/
def hex (a : Address) : String := Hex.ofNatWidth 20 a.bits.toNat

/-- The address that a hexadecimal text spells. -/
def ofHex? (text : String) : Option Address :=
  (Hex.toNat? text).map fun n => ⟨BitVec.ofNat 160 n⟩

instance : Ord Address := ⟨fun a b => compare a.bits b.bits⟩

instance : Std.TransOrd Address where
  eq_swap {a b} := by
    change compare a.bits b.bits = (compare b.bits a.bits).swap
    exact Std.OrientedCmp.eq_swap
  isLE_trans {a b c} h h' := by
    change (compare a.bits b.bits).isLE at h
    change (compare b.bits c.bits).isLE at h'
    change (compare a.bits c.bits).isLE
    exact Std.TransCmp.isLE_trans h h'

instance : Std.LawfulEqOrd Address where
  compare_self {a} := by
    change compare a.bits a.bits = .eq
    exact Std.ReflCmp.compare_self
  eq_of_compare {a b} h := by
    change compare a.bits b.bits = .eq at h
    exact congrArg Address.mk (Std.LawfulEqCmp.eq_of_compare h)

end Address

namespace Key

/-- The key of a small slot number. -/
def ofNat (n : Nat) : Key := ⟨BitVec.ofNat 256 n⟩

/-- The thirty-two bytes of a key. -/
def toBytes (k : Key) : Bytes := k.word.toBytes

/-- The key spelled by the bytes, modulo the width. -/
def ofBytes (bytes : Bytes) : Key := ⟨Word.ofBytes bytes⟩

/-- The key as text, sixty-four digits. -/
def hex (k : Key) : String := Hex.ofNatWidth 32 k.word.toNat

/-- The key that a hexadecimal text spells. -/
def ofHex? (text : String) : Option Key := (Word.ofHex? text).map Key.mk

instance : Ord Key := ⟨fun a b => compare a.word b.word⟩

instance : Std.TransOrd Key where
  eq_swap {a b} := by
    change compare a.word b.word = (compare b.word a.word).swap
    exact Std.OrientedCmp.eq_swap
  isLE_trans {a b c} h h' := by
    change (compare a.word b.word).isLE at h
    change (compare b.word c.word).isLE at h'
    change (compare a.word c.word).isLE
    exact Std.TransCmp.isLE_trans h h'

instance : Std.LawfulEqOrd Key where
  compare_self {a} := by
    change compare a.word a.word = .eq
    exact Std.ReflCmp.compare_self
  eq_of_compare {a b} h := by
    change compare a.word b.word = .eq at h
    exact congrArg Key.mk (Std.LawfulEqCmp.eq_of_compare h)

end Key

namespace Hash

/-- The hash as text, sixty-four digits. -/
def hex (h : Hash) : String := Hex.ofNatWidth 32 h.word.toNat

end Hash

end MutationGuard
