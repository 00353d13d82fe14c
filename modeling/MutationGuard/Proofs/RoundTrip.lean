import MutationGuard.Policy.Lemmas

/-!
Declarations written and read back. From the slots outwards, what an entry, a grant and a declaration
are written as is read as one item, whatever follows it, and each list in it is read to its last byte
(`Entry.spells_encode`, `Grant.spells_encode`, `Declaration.decode_encode`). Main statement:
`decode_encode_append`, by which a well-formed declaration comes back as it was, in the same order,
and any other is refused for its slots.
-/

namespace MutationGuard

open Rlp

namespace Entry

/-- The entry's list and its list of slots are lists, read to the last byte. -/
def Complete (item : Item) : Prop :=
  item.Complete ∧ ∀ slotsItem, item.items[2]? = some slotsItem → slotsItem.Complete

/-- A written entry is read as one item; it is the entry, or refused for its slots. -/
theorem spells_encode {e : Entry} (hsize : e.encode.length < 2 ^ 64) :
    ∃ item, Item.Spells e.encode item ∧ Complete item ∧
      decode item = if e.WellFormed then .ok e else .error .slotsOnScalar := by
  -- the size of the whole bounds the size of each part
  have hpayload := Nat.lt_trans (length_flatten_lt_encodeList _) hsize
  have hslotsSize : (encodeList (e.slots.map fun k => encodeData k.toBytes)).length < 2 ^ 64 :=
    Nat.lt_of_le_of_lt (length_le_flatten (by simp)) hpayload
  have hkey : ∀ k ∈ e.slots, ∃ item, Item.Spells (encodeData k.toBytes) item ∧
      decodeSlot item = .ok k := by
    intro k _
    have hlength : k.toBytes.length < 2 ^ 64 := by rw [k.length_toBytes]; decide
    obtain ⟨item, hspells, hdata⟩ := Item.spells_encodeData hlength
    exact ⟨item, hspells, decodeSlot_eq_ok_iff.mpr hdata⟩
  obtain ⟨categoryItem, hcategory, htag⟩ := Item.spells_encodeByte e.category.tag
  obtain ⟨allowedItem, hallowed, hbit⟩ := Item.spells_encodeByte (if e.allowed then 1 else 0)
  obtain ⟨slotsItem, hslots, hslotsComplete, hkeys⟩ :=
    Item.spells_encodeList_map hkey (Nat.lt_trans (length_flatten_lt_encodeList _) hslotsSize)
  obtain ⟨item, hspells, hcomplete, hitems⟩ :=
    Item.spells_encodeList (.cons hcategory (.cons hallowed (.cons hslots .nil))) hpayload
  refine ⟨item, hspells, ⟨hcomplete, ?_⟩, ?_⟩
  · rw [hitems]
    rintro _ ⟨⟩
    exact hslotsComplete
  · exact decode_eq hcomplete.1 hitems (decodeCategory_eq_ok_iff.mpr htag)
      (decodeAllowed_eq_ok_iff.mpr hbit) (mapM_eq_ok_iff.mpr hkeys)

end Entry

namespace Grant

/-- Each entry is well formed. -/
def WellFormed (g : Grant) : Prop := ∀ e ∈ g.entries, e.WellFormed

instance (g : Grant) : Decidable g.WellFormed :=
  inferInstanceAs (Decidable (∀ e ∈ g.entries, e.WellFormed))

/-- The grant's list, its list of entries and each entry are read to the last byte. -/
def Complete (item : Item) : Prop :=
  item.Complete ∧ ∀ entriesItem, item.items[1]? = some entriesItem →
    entriesItem.Complete ∧ ∀ entryItem ∈ entriesItem.items, Entry.Complete entryItem

/-- A written grant is read as one item; it is the grant, or refused for its slots. -/
theorem spells_encode {g : Grant} (hsize : g.encode.length < 2 ^ 64) :
    ∃ item, Item.Spells g.encode item ∧ Complete item ∧
      decode item = if g.WellFormed then .ok g else .error .slotsOnScalar := by
  have hpayload := Nat.lt_trans (length_flatten_lt_encodeList _) hsize
  have hentriesSize : (encodeList (g.entries.map Entry.encode)).length < 2 ^ 64 :=
    Nat.lt_of_le_of_lt (length_le_flatten (by simp)) hpayload
  have hentriesPayload := Nat.lt_trans (length_flatten_lt_encodeList _) hentriesSize
  have hentry : ∀ e ∈ g.entries, ∃ item, Item.Spells e.encode item ∧
      (Entry.Complete item ∧
        Entry.decode item = if e.WellFormed then .ok e else .error .slotsOnScalar) := by
    intro e he
    exact Entry.spells_encode
      (Nat.lt_of_le_of_lt (length_le_flatten (List.mem_map_of_mem he)) hentriesPayload)
  have hlength : g.address.toBytes.length < 2 ^ 64 := by rw [g.address.length_toBytes]; decide
  obtain ⟨addressItem, haddress, hdata⟩ := Item.spells_encodeData hlength
  obtain ⟨entriesItem, hentries, hentriesComplete, hitemsRead⟩ :=
    Item.spells_encodeList_map hentry hentriesPayload
  obtain ⟨hentryComplete, hread⟩ := (List.forall₂_and_left _ _).mp hitemsRead
  obtain ⟨item, hspells, hcomplete, hitems⟩ :=
    Item.spells_encodeList (.cons haddress (.cons hentries .nil)) hpayload
  refine ⟨item, hspells, ⟨hcomplete, ?_⟩, ?_⟩
  · rw [hitems]
    rintro _ ⟨⟩
    exact ⟨hentriesComplete, hentryComplete⟩
  · have hwellFormed : (∀ e ∈ g.entries, e.WellFormed) ↔ g.WellFormed := Iff.rfl
    rw [decode_eq hcomplete.1 hitems hdata, mapM_congr hread, mapM_ite]
    simp only [hwellFormed]
    split <;> rfl

end Grant

namespace Declaration

/-- Each grant is well formed. -/
def WellFormed (d : Declaration) : Prop := ∀ g ∈ d.grants, g.WellFormed

instance (d : Declaration) : Decidable d.WellFormed :=
  inferInstanceAs (Decidable (∀ g ∈ d.grants, g.WellFormed))

/-- The bytes start with a list of grants, and it and each list in it are read to the last byte. -/
def Complete (bytes : Bytes) : Prop :=
  ∃ item rest, Item.read bytes = .ok (item, rest) ∧ item.Complete ∧
    ∀ grantItem ∈ item.items, Grant.Complete grantItem

/-- A written declaration is read to its last byte; it is the declaration, or refused for its
slots. -/
theorem decode_encode {d : Declaration}
    (hsize : (d.grants.map Grant.encode).flatten.length < 2 ^ 64) (rest : Bytes) :
    Complete (d.encode ++ rest) ∧
      decode (d.encode ++ rest) = if d.WellFormed then .ok d else .error .slotsOnScalar := by
  have hgrant : ∀ g ∈ d.grants, ∃ item, Item.Spells g.encode item ∧
      (Grant.Complete item ∧
        Grant.decode item = if g.WellFormed then .ok g else .error .slotsOnScalar) := by
    intro g hg
    exact Grant.spells_encode
      (Nat.lt_of_le_of_lt (length_le_flatten (List.mem_map_of_mem hg)) hsize)
  obtain ⟨item, hspells, hcomplete, hgrants⟩ := Item.spells_encodeList_map hgrant hsize
  obtain ⟨hgrantComplete, hread⟩ := (List.forall₂_and_left _ _).mp hgrants
  have hfirst : Item.read (d.encode ++ rest) = .ok (item, rest) := hspells rest
  refine ⟨⟨item, rest, hfirst, hcomplete, hgrantComplete⟩, ?_⟩
  have hwellFormed : (∀ g ∈ d.grants, g.WellFormed) ↔ d.WellFormed := Iff.rfl
  rw [decode_eq_of_read hfirst hcomplete.1, mapM_congr hread, mapM_ite]
  simp only [hwellFormed]
  split <;> rfl

theorem decode_encode_of_wellFormed {d : Declaration} (hsize : d.encode.length < 2 ^ 64)
    (hwellFormed : d.WellFormed) : decode d.encode = .ok d := by
  have hdecode := (decode_encode (Nat.lt_trans (length_flatten_lt_encodeList _) hsize) []).2
  rwa [List.append_nil, if_pos hwellFormed] at hdecode

/-- What is written for a declaration is read back as the declaration, with its grants, entries and
slots in order and whatever follows it, when the entries of categories without slots list none. Any
other declaration is refused with that reason. A header has room for a length of eight bytes. -/
theorem decode_encode_append (d : Declaration) (rest : Bytes) (hsize : d.encode.length < 2 ^ 64) :
    (d.WellFormed → decode (d.encode ++ rest) = .ok d) ∧
      (¬ d.WellFormed → ∃ e, decode (d.encode ++ rest) = .error e ∧
        e.message = "Custom(\"slot payload on scalar category\")") := by
  have hpayload := Nat.lt_trans (length_flatten_lt_encodeList _) hsize
  have hdecode := (decode_encode hpayload rest).2
  constructor
  · intro hwellFormed
    rw [hdecode, if_pos hwellFormed]
  · intro hbad
    exact ⟨.slotsOnScalar, by rw [hdecode, if_neg hbad], rfl⟩

/-- Two grants for one address with repeated categories come back as they were; with a slot of a
balance they are refused. -/
theorem decode_encode_append_repeated :
    let address := Address.repeated 0x11
    let storage := Entry.storage [Key.ofNat 7, Key.ofNat 7]
    let good : Declaration := ⟨[⟨address, [storage, ⟨.code, false, []⟩, storage]⟩, ⟨address, []⟩]⟩
    let bad : Declaration := ⟨[⟨address, [storage]⟩, ⟨address, [⟨.balance, true, [Key.ofNat 7]⟩]⟩]⟩
    (good.encode.length < 2 ^ 64 ∧ good.WellFormed ∧
        decode (good.encode ++ [0xc1, 0x00]) = .ok good) ∧
      bad.encode.length < 2 ^ 64 ∧ ¬ bad.WellFormed ∧
        ∃ e, decode (bad.encode ++ [0xc1, 0x00]) = .error e ∧
          e.message = "Custom(\"slot payload on scalar category\")" := by
  intro address storage good bad
  have hgood : good.encode.length < 2 ^ 64 := by decide +kernel
  have hbad : bad.encode.length < 2 ^ 64 := by decide +kernel
  have hwellFormed : good.WellFormed := by decide
  have hnot : ¬ bad.WellFormed := by decide
  exact ⟨⟨hgood, hwellFormed, (decode_encode_append good _ hgood).1 hwellFormed⟩,
    hbad, hnot, (decode_encode_append bad _ hbad).2 hnot⟩

end Declaration
end MutationGuard
