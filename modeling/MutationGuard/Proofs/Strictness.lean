import MutationGuard.Proofs.RoundTrip

/-!
Which bytes an accepted declaration was read from. Where each list is read to its last byte, what was
accepted is what is written for it (`Entry.spelledAs_encode`, `Grant.spelledAs_encode`); without that
it is only no longer (`Entry.covers_encode`, `Grant.covers_encode`). Main statement:
`encode_prefix_iff`, by which accepted bytes start with the wire form of their declaration exactly
when each list in them is read to its last byte. Reading does not ask for that:
`decode_accepts_broken_item`.
-/

namespace MutationGuard

open Rlp

/-- What relates each item to what is written for its value relates the items to the parts of the
written list. -/
theorem forall₂_encode {β : Type} {decode : Item → Except DecodeError β} {encode : β → Bytes}
    {R : Item → Bytes → Prop} {items : List Item} {ys : List β} (h : items.mapM decode = .ok ys)
    (hR : ∀ item ∈ items, ∀ y, decode item = .ok y → R item (encode y)) :
    List.Forall₂ R items (ys.map encode) := by
  have hmem := (List.forall₂_and_left items ys).mpr ⟨fun _ hitem => hitem, mapM_eq_ok_iff.mp h⟩
  exact List.forall₂_map_right_iff.mpr (hmem.imp fun item y hy => hR item hy.1 y hy.2)

namespace Entry

/-- The items of an accepted entry are what is written for its category, its truth value and its
slots. -/
theorem parts_of_decode {item : Item} {e : Entry} (h : decode item = .ok e) :
    ∃ categoryItem allowedItem slotsItem, item.items = [categoryItem, allowedItem, slotsItem] ∧
      categoryItem.SpelledAs (encodeByte e.category.tag) ∧
      allowedItem.SpelledAs (encodeByte (if e.allowed then 1 else 0)) ∧
      List.Forall₂ Item.SpelledAs slotsItem.items (e.slots.map fun k => encodeData k.toBytes) := by
  obtain ⟨-, categoryItem, allowedItem, slotsItem, hitems, hcategory, hallowed, hslots⟩ :=
    items_of_decode h
  have htag := decodeCategory_eq_ok_iff.mp hcategory
  have hbit := decodeAllowed_eq_ok_iff.mp hallowed
  have hkeys := forall₂_encode hslots fun _ _ _ hk =>
    Item.spelledAs_encodeData (decodeSlot_eq_ok_iff.mp hk)
  exact ⟨categoryItem, allowedItem, slotsItem, hitems, Item.spelledAs_encodeByte htag,
    Item.spelledAs_encodeByte hbit, hkeys⟩

/-- Writing an accepted entry takes no more bytes than it was read from. -/
theorem covers_encode {item : Item} {e : Entry} (h : decode item = .ok e) :
    item.Covers e.encode := by
  obtain ⟨categoryItem, allowedItem, slotsItem, hitems, htag, hbit, hkeys⟩ := parts_of_decode h
  have hslots := Item.covers_encodeList (hkeys.imp fun _ _ hk => hk.covers)
  apply Item.covers_encodeList
  rw [hitems]
  exact .cons htag.covers (.cons hbit.covers (.cons hslots .nil))

/-- An accepted entry that is read to the last byte is what is written for it. -/
theorem spelledAs_encode {item : Item} {e : Entry} (hcomplete : Complete item)
    (h : decode item = .ok e) : item.SpelledAs e.encode := by
  obtain ⟨categoryItem, allowedItem, slotsItem, hitems, htag, hbit, hkeys⟩ := parts_of_decode h
  have hslotsComplete : slotsItem.Complete := hcomplete.2 slotsItem (by rw [hitems]; rfl)
  have hslots := Item.spelledAs_encodeList hslotsComplete hkeys
  apply Item.spelledAs_encodeList hcomplete.1
  rw [hitems]
  exact .cons htag (.cons hbit (.cons hslots .nil))

end Entry

namespace Grant

/-- Writing an accepted grant takes no more bytes than it was read from. -/
theorem covers_encode {item : Item} {g : Grant} (h : decode item = .ok g) :
    item.Covers g.encode := by
  obtain ⟨-, addressItem, entriesItem, hitems, hdata, hread⟩ := items_of_decode h
  have haddress := Item.spelledAs_encodeData hdata
  have hentries := Item.covers_encodeList
    (forall₂_encode hread fun _ _ _ he => Entry.covers_encode he)
  apply Item.covers_encodeList
  rw [hitems]
  exact .cons haddress.covers (.cons hentries .nil)

/-- An accepted grant that is read to the last byte is what is written for it. -/
theorem spelledAs_encode {item : Item} {g : Grant} (hcomplete : Complete item)
    (h : decode item = .ok g) : item.SpelledAs g.encode := by
  obtain ⟨-, addressItem, entriesItem, hitems, hdata, hread⟩ := items_of_decode h
  have haddress := Item.spelledAs_encodeData hdata
  obtain ⟨hentriesComplete, hentryComplete⟩ := hcomplete.2 entriesItem (by rw [hitems]; rfl)
  have hentries := Item.spelledAs_encodeList hentriesComplete
    (forall₂_encode hread fun item hitem _ he =>
      Entry.spelledAs_encode (hentryComplete item hitem) he)
  apply Item.spelledAs_encodeList hcomplete.1
  rw [hitems]
  exact .cons haddress (.cons hentries .nil)

end Grant

namespace Declaration

/-- Accepted bytes start with the wire form of their declaration exactly when each list in them is a
list and is read to its last byte. -/
theorem encode_prefix_iff {bytes : Bytes} {d : Declaration} (h : decode bytes = .ok d) :
    d.encode <+: bytes ↔ Complete bytes := by
  obtain ⟨item, rest, hread, hlist, hgrants⟩ := items_of_decode h
  constructor
  · rintro ⟨after, rfl⟩
    -- what was read is no shorter than what is written, so the lengths in that fit their headers
    have hcovers : List.Forall₂ Item.Covers item.items (d.grants.map Grant.encode) :=
      forall₂_encode hgrants fun _ _ _ hg => Grant.covers_encode hg
    rw [Item.items, if_pos hlist] at hcovers
    have hpayload := Item.length_flatten_le rfl hcovers
    have hsize := (Item.list_eq_of_read hread hlist).1
    exact (decode_encode (Nat.lt_of_le_of_lt hpayload hsize) after).1
  · rintro ⟨first, after, hfirst, hcomplete, hgrantComplete⟩
    rw [hread] at hfirst
    cases hfirst
    have hspelled : item.SpelledAs d.encode :=
      Item.spelledAs_encodeList hcomplete
        (forall₂_encode hgrants fun item hitem _ hg =>
          Grant.spelledAs_encode (hgrantComplete item hitem) hg)
    exact ⟨rest, (hspelled hread).symm⟩

/-- A slot of persistent storage, written and followed by the start of another item. -/
theorem encode_prefix_iff_slot :
    let d : Declaration := ⟨[⟨Address.repeated 0x11, [Entry.storage [Key.ofNat 7]]⟩]⟩
    let bytes := d.encode ++ [0x82]
    decode bytes = .ok d ∧ (d.encode <+: bytes ↔ Complete bytes) ∧ Complete bytes := by
  intro d bytes
  have hsize : (d.grants.map Grant.encode).flatten.length < 2 ^ 64 := by decide +kernel
  have hwellFormed : d.WellFormed := by decide
  have hdecode : decode bytes = .ok d := by
    rw [(decode_encode hsize [0x82]).2, if_pos hwellFormed]
  have hiff := encode_prefix_iff hdecode
  exact ⟨hdecode, hiff, hiff.mp (List.prefix_append ..)⟩

/-- A list whose one byte announces two more that are not there is read as the empty declaration,
which is written otherwise. -/
theorem decode_accepts_broken_item :
    decode [0xc1, 0x82] = .ok ⟨[]⟩ ∧ ¬ Declaration.encode ⟨[]⟩ <+: [0xc1, 0x82] := by
  have hread : Item.read [0xc1, 0x82] = .ok (⟨0xc1, [0x82]⟩, []) := by cbv
  have hbroken : Item.read [0x82] = .error .tooShort := by cbv
  have hitems : (⟨0xc1, [0x82]⟩ : Item).items = [] := Item.readAll_of_error hbroken
  constructor
  · rw [decode_eq_of_read hread rfl, hitems]
    rfl
  · decide

end Declaration
end MutationGuard
