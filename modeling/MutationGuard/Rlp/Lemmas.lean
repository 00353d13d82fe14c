import Mathlib.Data.List.Forall2
import MutationGuard.Bytes.Lemmas
import MutationGuard.Rlp.Encode
import MutationGuard.Rlp.Item

/-!
Written items and items read. A header is read from the bytes that `encodeHeader` writes and from no
others, so an item has one spelling. Main statements: `spells_encodeData` and `spells_encodeList`, by
which what is written is read back, whatever follows it; `spelledAs_encodeData` and
`spelledAs_encodeList`, by which an item that is read is as it would have been written. For a list
that takes `Complete`: its payload may hold bytes after the last readable item, and `covers_encodeList`
is what is left without it.
-/

namespace MutationGuard.Rlp

/-! ## Headers -/

/-- The leads of the empty byte string and of the empty list. -/
def IsBase (base : UInt8) : Prop := base = 0x80 ∨ base = 0xc0

namespace IsBase

variable {base : UInt8}

theorem data : IsBase 0x80 := .inl rfl

theorem list : IsBase 0xc0 := .inr rfl

theorem toNat_add (hbase : IsBase base) {k : Nat} (hk : k ≤ 55) :
    (base + UInt8.ofNat k).toNat = base.toNat + k := by
  rw [UInt8.toNat_add, UInt8.toNat_ofNat']
  rcases hbase with rfl | rfl <;> simp only [UInt8.reduceToNat] <;> omega

theorem toNat_add_long (hbase : IsBase base) {width : Nat} (hwidth : width ≤ 8) :
    (base + 55 + UInt8.ofNat width).toNat = base.toNat + 55 + width := by
  rw [UInt8.toNat_add, UInt8.toNat_add, UInt8.toNat_ofNat']
  rcases hbase with rfl | rfl <;> simp only [UInt8.reduceToNat] <;> omega

end IsBase

/-- A lead stands for itself, or it is a base with a short length, or a base with the width of a long
one. -/
theorem lead_cases (lead : UInt8) :
    lead < 0x80 ∨ ∃ base, IsBase base ∧
      ((∃ k ≤ 55, lead = base + UInt8.ofNat k) ∨
        ∃ width, 0 < width ∧ width ≤ 8 ∧ lead = base + 55 + UInt8.ofNat width) := by
  have hlead : lead.toNat < 256 := lead.toNat_lt
  -- each base has the 64 leads from its own on
  have hfrom : ∀ base : UInt8, IsBase base → base.toNat ≤ lead.toNat →
      lead.toNat < base.toNat + 64 → (∃ k ≤ 55, lead = base + UInt8.ofNat k) ∨
        ∃ width, 0 < width ∧ width ≤ 8 ∧ lead = base + 55 + UInt8.ofNat width := by
    intro base hbase hle hlt
    by_cases hshort : lead.toNat ≤ base.toNat + 55
    · left
      refine ⟨lead.toNat - base.toNat, by omega, UInt8.toNat_inj.mp ?_⟩
      rw [hbase.toNat_add (by omega)]
      omega
    · right
      refine ⟨lead.toNat - base.toNat - 55, by omega, by omega, UInt8.toNat_inj.mp ?_⟩
      rw [hbase.toNat_add_long (by omega)]
      omega
  by_cases hsmall : lead.toNat < 0x80
  · exact .inl (UInt8.lt_iff_toNat_lt.mpr hsmall)
  · right
    by_cases hdata : lead.toNat < 0xc0
    · exact ⟨0x80, .data, hfrom 0x80 .data (Nat.not_lt.mp hsmall) hdata⟩
    · exact ⟨0xc0, .list, hfrom 0xc0 .list (Nat.not_lt.mp hdata) hlead⟩

theorem encodeHeader_short (base : UInt8) {n : Nat} (hn : n ≤ 55) :
    encodeHeader base n = [base + UInt8.ofNat n] := by
  rw [encodeHeader, if_pos hn]

theorem encodeHeader_long (base : UInt8) {n : Nat} (hn : 55 < n) :
    encodeHeader base n
      = (base + 55 + UInt8.ofNat (Bytes.minimal n).length) :: Bytes.minimal n := by
  rw [encodeHeader, if_neg (Nat.not_le.mpr hn)]

theorem encodeHeader_ne_nil (base : UInt8) (n : Nat) : encodeHeader base n ≠ [] := by
  rcases Nat.lt_or_ge 55 n with hn | hn
  · simp [encodeHeader_long base hn]
  · simp [encodeHeader_short base hn]

/-- A longer payload takes no shorter header. -/
theorem length_encodeHeader_mono (base : UInt8) {m n : Nat} (h : m ≤ n) :
    (encodeHeader base m).length ≤ (encodeHeader base n).length := by
  rcases Nat.lt_or_ge 55 m with hm | hm
  · have hdigits := Bytes.length_minimal_mono h
    rw [encodeHeader_long base hm, encodeHeader_long base (Nat.lt_of_lt_of_le hm h)]
    exact Nat.succ_le_succ hdigits
  · rw [encodeHeader_short base hm]
    exact List.length_pos_iff.mpr (encodeHeader_ne_nil base n)

namespace Header

variable {base : UInt8}

theorem read_short (hbase : IsBase base) {k : Nat} (hk : k ≤ 55) (rest : Bytes) :
    read ((base + UInt8.ofNat k) :: rest) = .ok ⟨1, k⟩ := by
  have hlead := hbase.toNat_add hk
  rcases hbase with rfl | rfl <;>
  · simp only [UInt8.reduceToNat] at hlead
    simp only [read, UInt8.lt_iff_toNat_lt, UInt8.reduceToNat, hlead]
    grind

theorem read_long (hbase : IsBase base) {width : Nat} (hpos : 0 < width) (hwidth : width ≤ 8)
    (rest : Bytes) : read ((base + 55 + UInt8.ofNat width) :: rest) = ofLongForm width rest := by
  have hlead := hbase.toNat_add_long hwidth
  rcases hbase with rfl | rfl <;>
  · simp only [UInt8.reduceToNat] at hlead
    simp only [read, UInt8.lt_iff_toNat_lt, UInt8.reduceToNat, hlead]
    grind

/-- The digits of a long length are read back. -/
theorem ofLongForm_minimal {n : Nat} (hn : 55 < n) (rest : Bytes) :
    ofLongForm (Bytes.minimal n).length (Bytes.minimal n ++ rest)
      = .ok ⟨1 + (Bytes.minimal n).length, n⟩ := by
  have hpos := Bytes.length_minimal_pos (Nat.zero_lt_of_lt hn)
  have hvalue := Bytes.toNat_minimal n
  cases hdigits : Bytes.minimal n with
  | nil => simp [hdigits] at hpos
  | cons first digits =>
    have hfirst : first ≠ 0 := by
      rintro rfl
      exact Bytes.minimal_ne_zero_cons n digits hdigits
    rw [hdigits] at hvalue
    rw [List.cons_append, ofLongForm, ← List.cons_append, List.take_left, if_neg hfirst,
      if_neg (Nat.lt_irrefl _), hvalue, if_neg (Nat.not_le.mpr hn)]

/-- A length in the long form is read from its digits only. -/
theorem minimal_of_ofLongForm {width : Nat} {bytes : Bytes} {h : Header}
    (hread : ofLongForm width bytes = .ok h) (hwidth : 0 < width) :
    55 < h.payloadLength ∧ h.headerLength = 1 + width ∧
      (Bytes.minimal h.payloadLength).length = width ∧
      ∃ rest, bytes = Bytes.minimal h.payloadLength ++ rest := by
  cases bytes with
  | nil => cases hread
  | cons first rest =>
    rw [ofLongForm] at hread
    split at hread
    · cases hread
    next hfirst =>
    split at hread
    · cases hread
    next henough =>
    split at hread
    · cases hread
    next hlarge =>
    cases hread
    -- the first digit is not zero, so the digits are how their number is written
    obtain ⟨width, rfl⟩ : ∃ w, width = w + 1 := ⟨width - 1, by omega⟩
    have hdigits := Bytes.minimal_toNat hfirst (rest.take width)
    rw [← List.take_succ_cons] at hdigits
    refine ⟨Nat.not_le.mp hlarge, rfl, ?_, rest.drop width, ?_⟩
    · show (Bytes.minimal (Bytes.toNat ((first :: rest).take (width + 1)))).length = width + 1
      rw [hdigits]
      have hle := List.length_take_le (width + 1) (first :: rest)
      omega
    · show first :: rest
        = Bytes.minimal (Bytes.toNat ((first :: rest).take (width + 1))) ++ rest.drop width
      rw [hdigits, List.take_succ_cons, List.cons_append, List.take_append_drop]

/-- A written header is read back. -/
theorem read_encodeHeader (hbase : IsBase base) {n : Nat} (hn : n < 2 ^ 64) (rest : Bytes) :
    read (encodeHeader base n ++ rest) = .ok ⟨(encodeHeader base n).length, n⟩ := by
  rcases Nat.lt_or_ge 55 n with hlong | hshort
  · have hwidth : (Bytes.minimal n).length ≤ 8 := (Bytes.length_minimal_le_iff n 8).mpr hn
    have hpos := Bytes.length_minimal_pos (Nat.zero_lt_of_lt hlong)
    rw [encodeHeader_long base hlong, List.cons_append, read_long hbase hpos hwidth,
      ofLongForm_minimal hlong, List.length_cons, Nat.add_comm]
  · rw [encodeHeader_short base hshort]
    exact read_short hbase hshort rest

/-- A header that is read is one that would have been written, a lead below 128 apart. -/
theorem eq_encodeHeader_of_read {bytes : Bytes} {h : Header} (hread : read bytes = .ok h) :
    (bytes.headD 0 < 0x80 ∧ bytes ≠ [] ∧ h = ⟨0, 1⟩) ∨
      ∃ base rest, IsBase base ∧ h.payloadLength < 2 ^ 64 ∧
        bytes = encodeHeader base h.payloadLength ++ rest ∧
        h.headerLength = (encodeHeader base h.payloadLength).length := by
  cases bytes with
  | nil => cases hread
  | cons lead afterLead =>
    rcases lead_cases lead with hsmall | ⟨base, hbase, ⟨k, hk, rfl⟩ | ⟨width, hpos, hwidth, rfl⟩⟩
    · left
      rw [read, if_pos hsmall] at hread
      cases hread
      exact ⟨hsmall, by simp, rfl⟩
    · right
      rw [read_short hbase hk] at hread
      cases hread
      refine ⟨base, afterLead, hbase, Nat.lt_of_le_of_lt hk (by decide), ?_, ?_⟩
      · rw [encodeHeader_short base hk, List.singleton_append]
      · rw [encodeHeader_short base hk, List.length_singleton]
    · right
      rw [read_long hbase hpos hwidth] at hread
      obtain ⟨hlong, hlength, hdigits, rest, rfl⟩ := minimal_of_ofLongForm hread hpos
      have hheader : encodeHeader base h.payloadLength
          = (base + 55 + UInt8.ofNat width) :: Bytes.minimal h.payloadLength := by
        rw [encodeHeader_long base hlong, hdigits]
      have hsize : h.payloadLength < 256 ^ 8 :=
        (Bytes.length_minimal_le_iff h.payloadLength 8).mp (hdigits ▸ hwidth)
      refine ⟨base, rest, hbase, hsize, ?_, ?_⟩
      · rw [hheader, List.cons_append]
      · rw [hheader, List.length_cons, hdigits, hlength, Nat.add_comm]

end Header

theorem toNat_headD_encodeHeader {base : UInt8} (hbase : IsBase base) {n : Nat}
    (hn : n < 2 ^ 64) :
    ((encodeHeader base n).headD 0).toNat =
      if n ≤ 55 then base.toNat + n else base.toNat + 55 + (Bytes.minimal n).length := by
  rcases Nat.lt_or_ge 55 n with hlong | hshort
  · have hwidth : (Bytes.minimal n).length ≤ 8 := (Bytes.length_minimal_le_iff n 8).mpr hn
    rw [encodeHeader_long base hlong, List.headD_cons, hbase.toNat_add_long hwidth,
      if_neg (Nat.not_le.mpr hlong)]
  · rw [encodeHeader_short base hshort, List.headD_cons, hbase.toNat_add hshort, if_pos hshort]

/-- The first byte of a header tells the kind of its item. -/
theorem headD_encodeHeader {base : UInt8} (hbase : IsBase base) {n : Nat} (hn : n < 2 ^ 64) :
    base ≤ (encodeHeader base n).headD 0 ∧ (encodeHeader base n).headD 0 ≤ base + 63 := by
  have hwidth : (Bytes.minimal n).length ≤ 8 := (Bytes.length_minimal_le_iff n 8).mpr hn
  have hmax : (base + 63).toNat = base.toNat + 63 := by
    rcases hbase with rfl | rfl <;> rfl
  rw [UInt8.le_iff_toNat_le, UInt8.le_iff_toNat_le, toNat_headD_encodeHeader hbase hn, hmax]
  split <;> omega

theorem headD_encodeHeader_append (base : UInt8) (n : Nat) (rest : Bytes) :
    (encodeHeader base n ++ rest).headD 0 = (encodeHeader base n).headD 0 := by
  cases hcases : encodeHeader base n with
  | nil => exact absurd hcases (encodeHeader_ne_nil base n)
  | cons lead digits => rfl

/-- Only one byte of data has the lead 129. -/
theorem headD_encodeHeader_eq_iff {n : Nat} (hn : n < 2 ^ 64) :
    (encodeHeader 0x80 n).headD 0 = 0x81 ↔ n = 1 := by
  rw [← UInt8.toNat_inj, toNat_headD_encodeHeader .data hn]
  simp only [UInt8.reduceToNat]
  split <;> omega

theorem length_flatten_lt_encodeList (parts : List Bytes) :
    parts.flatten.length < (encodeList parts).length := by
  have hheader := List.length_pos_iff.mpr (encodeHeader_ne_nil 0xc0 parts.flatten.length)
  rw [encodeList, List.length_append]
  omega

theorem length_le_flatten {part : Bytes} {parts : List Bytes} (h : part ∈ parts) :
    part.length ≤ parts.flatten.length :=
  (List.sublist_flatten_of_mem h).length_le

/-! ## Items -/

namespace Item

/-- The bytes are read as the item, whatever follows them. -/
def Spells (bytes : Bytes) (item : Item) : Prop := ∀ rest, read (bytes ++ rest) = .ok (item, rest)

theorem read_of_header {bytes : Bytes} {h : Header} (hread : Header.read bytes = .ok h)
    (henough : h.total ≤ bytes.length) :
    read bytes = .ok (⟨bytes.headD 0, (bytes.take h.total).drop h.headerLength⟩,
      bytes.drop h.total) := by
  have hlength : ¬ (bytes.take h.total).length < h.total := by
    rw [List.length_take]
    omega
  simp only [read, hread, bind, Except.bind, if_neg hlength, pure, Except.pure]

/-- An item that is read has a header that is read, and the bytes for its payload. -/
theorem header_of_read {bytes rest : Bytes} {item : Item} (hread : read bytes = .ok (item, rest)) :
    ∃ h, Header.read bytes = .ok h ∧ h.total ≤ bytes.length ∧
      item = ⟨bytes.headD 0, (bytes.take h.total).drop h.headerLength⟩ ∧
      rest = bytes.drop h.total := by
  cases hh : Header.read bytes with
  | error e => simp [read, hh, bind, Except.bind] at hread
  | ok h =>
    have henough : h.total ≤ bytes.length := by
      by_contra hshort
      have hlength : (bytes.take h.total).length < h.total := by
        rw [List.length_take]
        omega
      simp only [read, hh, bind, Except.bind, if_pos hlength] at hread
      cases hread
    rw [read_of_header hh henough] at hread
    cases hread
    exact ⟨h, rfl, henough, rfl, rfl⟩

/-- A header with its payload is read as their item. -/
theorem spells_header {base : UInt8} (hbase : IsBase base) {payload : Bytes}
    (hsize : payload.length < 2 ^ 64) :
    Spells (encodeHeader base payload.length ++ payload)
      ⟨(encodeHeader base payload.length).headD 0, payload⟩ := by
  intro rest
  have hread := Header.read_encodeHeader hbase hsize (payload ++ rest)
  rw [List.append_assoc, read_of_header hread (by simp [Header.total]), headD_encodeHeader_append]
  simp [Header.total, ← List.append_assoc]

/-- Any item that is read is a lead alone, or a header with its payload. -/
theorem eq_append_of_read {bytes rest : Bytes} {item : Item}
    (hread : read bytes = .ok (item, rest)) :
    (item.lead < 0x80 ∧ item.payload = [item.lead] ∧ bytes = item.lead :: rest) ∨
      ∃ base, IsBase base ∧ item.payload.length < 2 ^ 64 ∧
        item.lead = (encodeHeader base item.payload.length).headD 0 ∧
        bytes = encodeHeader base item.payload.length ++ item.payload ++ rest := by
  obtain ⟨h, hheader, henough, rfl, rfl⟩ := header_of_read hread
  rcases Header.eq_encodeHeader_of_read hheader with
    ⟨hsmall, hne, rfl⟩ | ⟨base, after, hbase, hsize, rfl, hlength⟩
  · left
    cases bytes with
    | nil => exact absurd rfl hne
    | cons lead after => exact ⟨hsmall, by simp [Header.total], by simp [Header.total]⟩
  · right
    have hpayload : ((encodeHeader base h.payloadLength ++ after).take h.total).drop h.headerLength
        = after.take h.payloadLength := by
      rw [Header.total, hlength, List.take_length_add_append, List.drop_left]
    have hrest : (encodeHeader base h.payloadLength ++ after).drop h.total
        = after.drop h.payloadLength := by
      rw [Header.total, hlength, List.drop_length_add_append]
    have hafter : (after.take h.payloadLength).length = h.payloadLength := by
      rw [Header.total, hlength, List.length_append] at henough
      rw [List.length_take]
      omega
    simp only [hpayload, hrest, hafter, headD_encodeHeader_append]
    exact ⟨base, hbase, hsize, rfl, by rw [List.append_assoc, List.take_append_drop]⟩

/-- A list that is read is a header with its payload. -/
theorem list_eq_of_read {bytes rest : Bytes} {item : Item} (hread : read bytes = .ok (item, rest))
    (hlist : item.isList = true) :
    item.payload.length < 2 ^ 64 ∧
      bytes = encodeHeader 0xc0 item.payload.length ++ item.payload ++ rest := by
  have hlead : 0xc0 ≤ item.lead := by simpa [isList] using hlist
  rcases eq_append_of_read hread with ⟨hsmall, -, -⟩ | ⟨base, hbase, hsize, hhead, hbytes⟩
  · rw [UInt8.le_iff_toNat_le] at hlead
    rw [UInt8.lt_iff_toNat_lt] at hsmall
    simp only [UInt8.reduceToNat] at hlead hsmall
    omega
  · rcases hbase with rfl | rfl
    · have hle := (headD_encodeHeader .data hsize).2
      rw [← hhead, UInt8.le_iff_toNat_le] at hle
      rw [UInt8.le_iff_toNat_le] at hlead
      simp only [UInt8.reduceToNat, UInt8.reduceAdd] at hlead hle
      omega
    · exact ⟨hsize, hbytes⟩

/-! ## Byte strings -/

theorem data_of_not_isList {item : Item} (hlist : item.isList = false)
    (hlead : ¬ (item.lead = 0x81 ∧ item.payload.headD 0 < 0x80)) :
    item.data = .ok item.payload := by
  rw [data, if_neg (by simp [hlist]), if_neg hlead]

theorem data_eq_ok {item : Item} {bytes : Bytes} (hdata : item.data = .ok bytes) :
    item.isList = false ∧ ¬ (item.lead = 0x81 ∧ item.payload.headD 0 < 0x80) ∧
      bytes = item.payload := by
  unfold data at hdata
  split at hdata
  · cases hdata
  next hlist =>
  split at hdata
  · cases hdata
  next hlead =>
  cases hdata
  exact ⟨Bool.not_eq_true _ ▸ hlist, hlead, rfl⟩

/-- One byte below 128 stands for itself. -/
theorem encodeData_small {b : UInt8} (hb : b < 0x80) : encodeData [b] = [b] := by
  rw [encodeData, if_pos hb]

/-- Any other byte string has a header. -/
theorem encodeData_header {data : Bytes} (hdata : ∀ b < 0x80, data ≠ [b]) :
    encodeData data = encodeHeader 0x80 data.length ++ data := by
  unfold encodeData
  split
  next b =>
    have hb : ¬ b < 0x80 := fun h => hdata b h rfl
    rw [if_neg hb, List.length_singleton]
  · rfl

/-- A written byte string is read back. -/
theorem spells_encodeData {bytes : Bytes} (hsize : bytes.length < 2 ^ 64) :
    ∃ item, Spells (encodeData bytes) item ∧ item.data = .ok bytes := by
  by_cases hsmall : ∃ b < 0x80, bytes = [b]
  · obtain ⟨b, hb, rfl⟩ := hsmall
    refine ⟨⟨b, [b]⟩, ?_, ?_⟩
    · intro rest
      have hread : Header.read (b :: rest) = .ok ⟨0, 1⟩ := by rw [Header.read, if_pos hb]
      rw [encodeData_small hb, List.singleton_append,
        read_of_header hread (by simp [Header.total])]
      simp [Header.total]
    · rw [UInt8.lt_iff_toNat_lt] at hb
      apply data_of_not_isList
      · simp only [isList, UInt8.le_iff_toNat_le, decide_eq_false_iff_not]
        simp only [UInt8.reduceToNat] at hb ⊢
        omega
      · rintro ⟨rfl, -⟩
        exact absurd hb (by decide)
  · have hheader : ∀ b < 0x80, bytes ≠ [b] := fun b hb h => hsmall ⟨b, hb, h⟩
    refine ⟨_, encodeData_header hheader ▸ spells_header .data hsize, ?_⟩
    apply data_of_not_isList
    · have hle := (headD_encodeHeader .data hsize).2
      simp only [isList, UInt8.le_iff_toNat_le, decide_eq_false_iff_not, UInt8.reduceToNat,
        UInt8.reduceAdd] at hle ⊢
      omega
    · rintro ⟨hlead, hfirst⟩
      have hone := (headD_encodeHeader_eq_iff hsize).mp hlead
      obtain ⟨b, rfl⟩ := List.length_eq_one_iff.mp hone
      exact hheader b hfirst rfl

/-- A number is read from the byte string that it is written as. -/
theorem byte_eq_ok_iff (item : Item) (b : UInt8) :
    item.byte = .ok b ↔ item.data = .ok (if b = 0 then [] else [b]) := by
  rw [byte]
  cases hdata : item.data with
  | error e => simp [bind, Except.bind]
  | ok bytes =>
    match bytes with
    | [] =>
      by_cases hb : b = 0 <;>
        simp [bind, Except.bind, pure, Except.pure, hb, eq_comm]
    | [c] =>
      by_cases hc : c = 0
      · by_cases hb : b = 0 <;>
          simp [bind, Except.bind, throw, throwThe, MonadExceptOf.throw, hb, hc, eq_comm]
      · by_cases hb : b = 0 <;>
          simp [bind, Except.bind, pure, Except.pure, hb, hc]
    | c :: d :: more =>
      by_cases hb : b = 0 <;>
        simp [bind, Except.bind, throw, throwThe, MonadExceptOf.throw, hb]

theorem fixed_eq_ok_iff (width : Nat) (item : Item) (bytes : Bytes) :
    item.fixed width = .ok bytes ↔ item.data = .ok bytes ∧ bytes.length = width := by
  rw [fixed]
  cases hdata : item.data with
  | error e => simp [bind, Except.bind]
  | ok found =>
    have hother : found.length ≠ width → ¬ (found = bytes ∧ bytes.length = width) := by
      rintro hne ⟨rfl, hwidth⟩
      exact hne hwidth
    rcases Nat.lt_trichotomy found.length width with hshort | hexact | hlong
    · have hnot := hother (Nat.ne_of_lt hshort)
      simpa [bind, Except.bind, throw, throwThe, MonadExceptOf.throw, hshort] using hnot
    · simp only [bind, Except.bind, hexact, Nat.lt_irrefl, if_false, pure, Except.pure,
        Except.ok.injEq]
      constructor
      · rintro rfl
        exact ⟨rfl, hexact⟩
      · exact And.left
    · have hnot := hother (Nat.ne_of_gt hlong)
      have hge : ¬ found.length < width := Nat.not_lt.mpr (Nat.le_of_lt hlong)
      simpa [bind, Except.bind, throw, throwThe, MonadExceptOf.throw, pure, Except.pure, hlong,
        hge] using hnot

theorem spells_encodeByte (b : UInt8) :
    ∃ item, Spells (encodeByte b) item ∧ item.byte = .ok b := by
  have hsize : (if b = 0 then [] else [b] : Bytes).length < 2 ^ 64 := by
    split <;> simp
  obtain ⟨item, hspells, hdata⟩ := spells_encodeData hsize
  exact ⟨item, hspells, (byte_eq_ok_iff item b).mpr hdata⟩

/-- A byte string that is read is as it would have been written. -/
theorem data_eq_of_read {bytes rest data : Bytes} {item : Item}
    (hread : read bytes = .ok (item, rest)) (hdata : item.data = .ok data) :
    bytes = encodeData data ++ rest := by
  obtain ⟨hlist, hlead, rfl⟩ := data_eq_ok hdata
  rcases eq_append_of_read hread with ⟨hsmall, hpayload, rfl⟩ | ⟨base, hbase, hsize, hhead, hbytes⟩
  · rw [hpayload, encodeData_small hsmall, List.singleton_append]
  · rcases hbase with rfl | rfl
    · have hheader : ∀ b < 0x80, item.payload ≠ [b] := by
        intro b hb hpayload
        rw [hpayload] at hhead hlead
        exact hlead ⟨hhead, hb⟩
      rw [hbytes, encodeData_header hheader]
    · have hle := (headD_encodeHeader .list hsize).1
      rw [← hhead] at hle
      simp [isList, hle] at hlist

/-! ## The items of a list -/

@[simp] theorem readAll_nil : readAll [] = [] := readAll_of_error rfl

theorem readAll_append {front : Bytes} {item : Item} (h : Spells front item) (rest : Bytes) :
    readAll (front ++ rest) = item :: readAll rest :=
  readAll_of_ok (h rest)

theorem readAll_eq_cons {bytes : Bytes} {item : Item} {items : List Item}
    (h : readAll bytes = item :: items) :
    ∃ rest, read bytes = .ok (item, rest) ∧ readAll rest = items := by
  cases hread : read bytes with
  | error e =>
    rw [readAll_of_error hread] at h
    cases h
  | ok found =>
    rw [readAll_of_ok hread] at h
    cases h
    exact ⟨found.2, rfl, rfl⟩

/-- The bytes are items one after another, up to the last byte. -/
inductive Whole : Bytes → Prop
  | nil : Whole []
  | cons {bytes rest : Bytes} {item : Item} :
      read bytes = .ok (item, rest) → Whole rest → Whole bytes

/-- A list that is read to its last byte. -/
def Complete (item : Item) : Prop := item.isList = true ∧ Whole item.payload

/-- Parts written one after another are read one by one, to the last byte. -/
theorem readAll_flatten {parts : List Bytes} {items : List Item}
    (h : List.Forall₂ Spells parts items) :
    readAll parts.flatten = items ∧ Whole parts.flatten := by
  induction h with
  | nil => exact ⟨readAll_nil, .nil⟩
  | @cons part item parts items hpart _ ih =>
    obtain ⟨hitems, hwhole⟩ := ih
    rw [List.flatten_cons]
    exact ⟨by rw [readAll_append hpart, hitems], .cons (hpart _) hwhole⟩

/-- A written list is read as a complete list of the items that its parts spell. -/
theorem spells_encodeList {parts : List Bytes} {items : List Item}
    (h : List.Forall₂ Spells parts items) (hsize : parts.flatten.length < 2 ^ 64) :
    ∃ item, Spells (encodeList parts) item ∧ item.Complete ∧ item.items = items := by
  obtain ⟨hitems, hwhole⟩ := readAll_flatten h
  have hhead := (headD_encodeHeader .list hsize).1
  have hlist : (⟨(encodeHeader 0xc0 parts.flatten.length).headD 0, parts.flatten⟩ : Item).isList
      = true := decide_eq_true hhead
  refine ⟨_, spells_header .list hsize, ⟨hlist, hwhole⟩, ?_⟩
  rw [Item.items, if_pos hlist, hitems]

/-- What holds of each part holds of the items of the written list. -/
theorem spells_encodeList_map {α : Type} {encode : α → Bytes} {P : Item → α → Prop} {xs : List α}
    (h : ∀ x ∈ xs, ∃ item, Spells (encode x) item ∧ P item x)
    (hsize : (xs.map encode).flatten.length < 2 ^ 64) :
    ∃ item, Spells (encodeList (xs.map encode)) item ∧ item.Complete ∧
      List.Forall₂ P item.items xs := by
  obtain ⟨items, hspells, hP⟩ :
      ∃ items, List.Forall₂ Spells (xs.map encode) items ∧ List.Forall₂ P items xs := by
    clear hsize
    induction xs with
    | nil => exact ⟨[], .nil, .nil⟩
    | cons x xs ih =>
      obtain ⟨item, hitem, hx⟩ := h x List.mem_cons_self
      obtain ⟨items, hitems, hxs⟩ := ih fun y hy => h y (List.mem_cons_of_mem x hy)
      exact ⟨item :: items, .cons hitem hitems, .cons hx hxs⟩
  obtain ⟨item, hitem, hcomplete, rfl⟩ := spells_encodeList hspells hsize
  exact ⟨item, hitem, hcomplete, hP⟩

/-- The item is read from these bytes only. -/
def SpelledAs (item : Item) (part : Bytes) : Prop :=
  ∀ ⦃bytes rest⦄, read bytes = .ok (item, rest) → bytes = part ++ rest

/-- The item is read from no fewer bytes than these. -/
def Covers (item : Item) (part : Bytes) : Prop :=
  ∀ ⦃bytes rest⦄, read bytes = .ok (item, rest) → part.length + rest.length ≤ bytes.length

theorem SpelledAs.covers {item : Item} {part : Bytes} (h : item.SpelledAs part) :
    item.Covers part := by
  intro bytes rest hread
  rw [h hread, List.length_append]

theorem spelledAs_encodeData {item : Item} {bytes : Bytes} (hdata : item.data = .ok bytes) :
    item.SpelledAs (encodeData bytes) :=
  fun _ _ hread => data_eq_of_read hread hdata

theorem spelledAs_encodeByte {item : Item} {b : UInt8} (hbyte : item.byte = .ok b) :
    item.SpelledAs (encodeByte b) :=
  spelledAs_encodeData ((byte_eq_ok_iff item b).mp hbyte)

/-- Bytes that are read to the last one are the parts of their items. -/
theorem Whole.eq_flatten {bytes : Bytes} (hwhole : Whole bytes) {parts : List Bytes}
    (h : List.Forall₂ SpelledAs (readAll bytes) parts) : bytes = parts.flatten := by
  induction hwhole generalizing parts with
  | nil =>
    rw [readAll_nil] at h
    cases h
    rfl
  | cons hread _ ih =>
    rw [readAll_of_ok hread] at h
    cases h with
    | cons hpart hrest => rw [hpart hread, ih hrest, List.flatten_cons]

/-- A complete list is as it would have been written. -/
theorem spelledAs_encodeList {item : Item} {parts : List Bytes} (hcomplete : item.Complete)
    (h : List.Forall₂ SpelledAs item.items parts) : item.SpelledAs (encodeList parts) := by
  intro bytes rest hread
  obtain ⟨hlist, hwhole⟩ := hcomplete
  rw [Item.items, if_pos hlist] at h
  rw [(list_eq_of_read hread hlist).2, hwhole.eq_flatten h, encodeList]

/-- The readable items of some bytes take no more than the bytes. -/
theorem length_flatten_le {bytes : Bytes} {items : List Item} {parts : List Bytes}
    (hitems : readAll bytes = items) (h : List.Forall₂ Covers items parts) :
    parts.flatten.length ≤ bytes.length := by
  induction h generalizing bytes with
  | nil => exact Nat.zero_le _
  | @cons item part items parts hpart _ ih =>
    obtain ⟨rest, hread, hrest⟩ := readAll_eq_cons hitems
    have hfront := hpart hread
    have hback := ih hrest
    rw [List.flatten_cons, List.length_append]
    omega

/-- Writing what was read of a list takes no more bytes than the list had. -/
theorem covers_encodeList {item : Item} {parts : List Bytes}
    (h : List.Forall₂ Covers item.items parts) : item.Covers (encodeList parts) := by
  intro bytes rest hread
  cases hlist : item.isList with
  | false =>
    rw [Item.items, if_neg (by simp [hlist])] at h
    cases h
    have hempty : (encodeList []).length = 1 := rfl
    have hshorter := length_lt_of_read hread
    omega
  | true =>
    rw [Item.items, if_pos hlist] at h
    have hpayload := length_flatten_le rfl h
    have hheader := length_encodeHeader_mono 0xc0 hpayload
    rw [(list_eq_of_read hread hlist).2, encodeList]
    simp only [List.length_append]
    omega

end Item
end MutationGuard.Rlp
