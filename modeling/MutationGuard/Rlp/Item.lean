import MutationGuard.Bytes

/-!
Reading the length-prefixed items of the RLP wire form. An item is a byte string or a list of items,
told apart by its lead byte. A list is read as far as its items can be read: the first one that
cannot ends it, and a byte string has no items. Main statement: every item read leaves a shorter
rest, which is why reading a list ends.
-/

namespace MutationGuard.Rlp

/-- Why a byte string is no encoding of a declaration. -/
inductive DecodeError where
  /-- The bytes end before the item does, or a field has too few of them. -/
  | tooShort
  /-- A field has too many bytes. -/
  | tooBig
  /-- A length written over several bytes starts with a zero byte. -/
  | lengthWithLeadingZero
  /-- A shorter form exists for the same item. -/
  | notShortest
  /-- A byte string stands where a list is needed. -/
  | expectedList
  /-- A list stands where a byte string is needed. -/
  | expectedData
  /-- A list has the wrong number of items. -/
  | wrongItemCount
  /-- The tag names no category. -/
  | unknownCategory
  /-- A truth value is neither zero nor one. -/
  | nonCanonicalBoolean
  /-- An entry without slots lists some. -/
  | slotsOnScalar
  deriving DecidableEq, Repr

/-- The text of a decoding error. -/
def DecodeError.message : DecodeError → String
  | .tooShort => "RlpIsTooShort"
  | .tooBig => "RlpIsTooBig"
  | .lengthWithLeadingZero => "RlpDataLenWithZeroPrefix"
  | .notShortest => "RlpInvalidIndirection"
  | .expectedList => "RlpExpectedToBeList"
  | .expectedData => "RlpExpectedToBeData"
  | .wrongItemCount => "RlpIncorrectListLen"
  | .unknownCategory => "Custom(\"unknown policy category\")"
  | .nonCanonicalBoolean => "Custom(\"non-canonical boolean\")"
  | .slotsOnScalar => "Custom(\"slot payload on scalar category\")"

/-- How many bytes an item's header and its payload take. -/
structure Header where
  headerLength : Nat
  payloadLength : Nat

namespace Header

/-- The length of the whole item. -/
def total (h : Header) : Nat := h.headerLength + h.payloadLength

/-- The header of an item whose payload length is written in the `width` bytes after the lead. The
length must not start with a zero byte, and must be too large for the one-byte form. -/
def ofLongForm (width : Nat) (afterLead : Bytes) : Except DecodeError Header :=
  match afterLead with
  | [] => .error .tooShort
  | first :: _ =>
    let digits := afterLead.take width
    if first = 0 then .error .lengthWithLeadingZero
    else if digits.length < width then .error .tooShort
    else if Bytes.toNat digits ≤ 55 then .error .notShortest
    else .ok ⟨1 + width, Bytes.toNat digits⟩

/-- The header at the front of the bytes. A lead below 128 is its own payload. -/
def read (bytes : Bytes) : Except DecodeError Header :=
  match bytes with
  | [] => .error .tooShort
  | lead :: afterLead =>
    if lead < 0x80 then .ok ⟨0, 1⟩
    else if lead < 0xb8 then .ok ⟨1, lead.toNat - 0x80⟩
    else if lead < 0xc0 then ofLongForm (lead.toNat - 0xb7) afterLead
    else if lead < 0xf8 then .ok ⟨1, lead.toNat - 0xc0⟩
    else ofLongForm (lead.toNat - 0xf7) afterLead

theorem total_pos_of_ofLongForm {width : Nat} {bytes : Bytes} {h : Header}
    (hread : ofLongForm width bytes = .ok h) : 0 < h.total := by
  cases bytes with
  | nil => simp [ofLongForm] at hread
  | cons first rest =>
    simp only [ofLongForm] at hread
    split at hread
    · simp at hread
    · split at hread
      · simp at hread
      · split at hread
        · simp at hread
        · cases hread
          simp only [total]
          omega

/-- No item is empty. -/
theorem total_pos_of_read {bytes : Bytes} {h : Header} (hread : read bytes = .ok h) :
    0 < h.total := by
  cases bytes with
  | nil => simp [read] at hread
  | cons lead rest =>
    simp only [read] at hread
    split at hread
    · cases hread; simp [total]
    · split at hread
      · cases hread; simp only [total]; omega
      · split at hread
        · exact total_pos_of_ofLongForm hread
        · split at hread
          · cases hread; simp only [total]; omega
          · exact total_pos_of_ofLongForm hread

end Header

/-- One item: its lead byte, which tells its kind, and its payload. -/
structure Item where
  lead : UInt8
  payload : Bytes

namespace Item

/-- Whether the item is a list. -/
def isList (item : Item) : Bool := 0xc0 ≤ item.lead

/-- The item at the front of the bytes, and the bytes after it. -/
def read (bytes : Bytes) : Except DecodeError (Item × Bytes) := do
  let header ← Header.read bytes
  let whole := bytes.take header.total
  if whole.length < header.total then
    throw .tooShort
  return (⟨bytes.headD 0, whole.drop header.headerLength⟩, bytes.drop header.total)

theorem length_lt_of_read {bytes rest : Bytes} {item : Item}
    (hread : read bytes = .ok (item, rest)) : rest.length < bytes.length := by
  simp only [read, bind, Except.bind] at hread
  cases hh : Header.read bytes with
  | error e => simp [hh] at hread
  | ok header =>
    simp only [hh] at hread
    split at hread
    · simp [throw, throwThe, MonadExceptOf.throw] at hread
    · next hlen =>
      have hpos := Header.total_pos_of_read hh
      simp only [List.length_take, Nat.not_lt] at hlen
      simp only [pure, Except.pure, Except.ok.injEq, Prod.mk.injEq] at hread
      rw [← hread.2, List.length_drop]
      omega

/-- The items at the front of the bytes, as far as they can be read, after those in `seen`, which
stand last first. -/
def readAllOnto (seen : List Item) (bytes : Bytes) : List Item :=
  match _h : read bytes with
  | .error _ => seen.reverse
  | .ok (item, rest) => readAllOnto (item :: seen) rest
termination_by bytes.length
decreasing_by exact length_lt_of_read _h

/-- The items at the front of the bytes, up to the first that cannot be read. -/
def readAll (bytes : Bytes) : List Item := readAllOnto [] bytes

theorem readAllOnto_of_error {bytes : Bytes} {e : DecodeError} (h : read bytes = .error e)
    (seen : List Item) : readAllOnto seen bytes = seen.reverse := by
  rw [readAllOnto]
  split <;> simp_all

theorem readAllOnto_of_ok {bytes rest : Bytes} {item : Item} (h : read bytes = .ok (item, rest))
    (seen : List Item) : readAllOnto seen bytes = readAllOnto (item :: seen) rest := by
  rw [readAllOnto]
  split <;> simp_all

theorem readAllOnto_eq_append (seen : List Item) (bytes : Bytes) :
    readAllOnto seen bytes = seen.reverse ++ readAll bytes := by
  induction hn : bytes.length using Nat.strongRecOn generalizing seen bytes with
  | ind n ih =>
    rw [readAll]
    cases h : read bytes with
    | error e => simp [readAllOnto_of_error h]
    | ok found =>
      obtain ⟨item, rest⟩ := found
      have shorter := length_lt_of_read h
      rw [readAllOnto_of_ok h, readAllOnto_of_ok h, ih _ (hn ▸ shorter) _ rest rfl,
        ih _ (hn ▸ shorter) _ rest rfl]
      simp

theorem readAll_of_error {bytes : Bytes} {e : DecodeError} (h : read bytes = .error e) :
    readAll bytes = [] := by
  simp [readAll, readAllOnto_of_error h]

theorem readAll_of_ok {bytes rest : Bytes} {item : Item} (h : read bytes = .ok (item, rest)) :
    readAll bytes = item :: readAll rest := by
  rw [readAll, readAllOnto_of_ok h, readAllOnto_eq_append]
  simp

/-- The items of a list; none for a byte string. -/
def items (item : Item) : List Item :=
  if item.isList then readAll item.payload else []

/-- The bytes of a byte string. One byte below 128 must stand alone, without a lead. -/
def data (item : Item) : Except DecodeError Bytes :=
  if item.isList then .error .expectedData
  else if item.lead = 0x81 ∧ item.payload.headD 0 < 0x80 then .error .notShortest
  else .ok item.payload

/-- A number below 256: the empty string is zero, and zero is written no other way. -/
def byte (item : Item) : Except DecodeError UInt8 := do
  match ← item.data with
  | [] => return 0
  | [b] => if b = 0 then throw .notShortest else return b
  | _ => throw .tooBig

/-- A byte string of exactly `width` bytes. -/
def fixed (width : Nat) (item : Item) : Except DecodeError Bytes := do
  let bytes ← item.data
  if bytes.length < width then throw .tooShort
  if width < bytes.length then throw .tooBig
  return bytes

end Item
end MutationGuard.Rlp
