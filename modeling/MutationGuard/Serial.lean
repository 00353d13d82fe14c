import MutationGuard.Sha256

/-!
The serial form that values are hashed in. Numbers are written in groups of seven bits, lowest
first; sequences and texts carry their length in front; words, addresses and keys are written as
their hexadecimal texts; the parts of a tuple follow one another.
-/

namespace MutationGuard

/-- Types with a serial form. -/
class Serial (α : Type) where
  /-- The serial form of a value. -/
  serialize : α → Bytes

namespace Serial

/-- A number in groups of seven bits, lowest first; every byte but the last has its high bit set. -/
def number (n : Nat) : Bytes :=
  if n < 128 then [UInt8.ofNat n] else UInt8.ofNat (n % 128 + 128) :: number (n / 128)
termination_by n

/-- A text: the length of its encoding, then the encoding. -/
def text (s : String) : Bytes :=
  number s.utf8ByteSize ++ s.toUTF8.data.toList

instance : Serial UInt8 := ⟨fun b => [b]⟩
instance : Serial Bool := ⟨fun b => [if b then 1 else 0]⟩
instance : Serial UInt64 := ⟨fun n => number n.toNat⟩
instance : Serial String := ⟨text⟩
instance : Serial Word := ⟨fun w => text w.hex⟩
instance : Serial Address := ⟨fun a => text a.hex⟩
instance : Serial Key := ⟨fun k => text k.hex⟩

instance {α : Type} [Serial α] : Serial (List α) :=
  ⟨fun xs => number xs.length ++ xs.flatMap serialize⟩

instance {α β : Type} [Serial α] [Serial β] : Serial (α × β) :=
  ⟨fun (a, b) => serialize a ++ serialize b⟩

end Serial

/-- The digest of a value's serial form. -/
def Hash.of {α : Type} [Serial α] (a : α) : Hash := Sha256.digest (Serial.serialize a)

/-- The address of the account that `creator` makes at `nonce`: the low twenty bytes of the digest
of the pair. -/
def Address.created (creator : Address) (nonce : UInt64) : Address :=
  Address.ofWord (Hash.of (creator, nonce)).word

end MutationGuard
