import MutationGuard.Except.Lemmas
import MutationGuard.Policy.Codec
import MutationGuard.Rlp.Lemmas
import MutationGuard.Word.Lemmas

/-!
What the readers of a declaration accept. Each field is read from what it is written as; an entry, a
grant and a declaration are read when their items are, and the only thing an entry that reads well can
still be refused for is a slot where its category has none (`Entry.decode_eq`). The inversions
`Entry.items_of_decode` and `Grant.items_of_decode` give back the items of what was accepted.
-/

namespace MutationGuard

open Rlp

/-! ## Fields -/

namespace Entry

theorem decodeCategory_eq_ok_iff {item : Item} {c : Category} :
    decodeCategory item = .ok c ↔ item.byte = .ok c.tag := by
  rw [decodeCategory, bind_eq_ok_iff]
  constructor
  · rintro ⟨b, hb, htag⟩
    cases hc : Category.ofTag? b with
    | none => simp [hc, throw, throwThe, MonadExceptOf.throw] at htag
    | some found =>
      simp only [hc, pure, Except.pure, Except.ok.injEq] at htag
      rw [hb, (Category.ofTag?_eq_some_iff b c).mp (htag ▸ hc)]
  · intro hb
    refine ⟨c.tag, hb, ?_⟩
    rw [(Category.ofTag?_eq_some_iff c.tag c).mpr rfl]
    rfl

theorem decodeAllowed_eq_ok_iff {item : Item} {allowed : Bool} :
    decodeAllowed item = .ok allowed ↔ item.byte = .ok (if allowed then 1 else 0) := by
  rw [decodeAllowed, bind_eq_ok_iff]
  constructor
  · rintro ⟨b, hb, hallowed⟩
    rw [hb]
    split at hallowed
    · cases hallowed
      rfl
    · cases hallowed
      rfl
    · cases hallowed
  · intro hb
    refine ⟨_, hb, ?_⟩
    cases allowed <;> rfl

theorem decodeSlot_eq_ok_iff {item : Item} {k : Key} :
    decodeSlot item = .ok k ↔ item.data = .ok k.toBytes := by
  rw [decodeSlot, map_eq_ok_iff]
  constructor
  · rintro ⟨bytes, hbytes, rfl⟩
    obtain ⟨hdata, hlength⟩ := (Item.fixed_eq_ok_iff 32 item bytes).mp hbytes
    rw [hdata, Key.toBytes_ofBytes hlength]
  · intro hdata
    exact ⟨k.toBytes, (Item.fixed_eq_ok_iff ..).mpr ⟨hdata, k.length_toBytes⟩, k.ofBytes_toBytes⟩

/-! ## Entries, grants and declarations -/

/-- An entry whose three items read well is accepted when it is well formed. -/
theorem decode_eq {item categoryItem allowedItem slotsItem : Item} {e : Entry}
    (hlist : item.isList = true) (hitems : item.items = [categoryItem, allowedItem, slotsItem])
    (hcategory : decodeCategory categoryItem = .ok e.category)
    (hallowed : decodeAllowed allowedItem = .ok e.allowed)
    (hslots : slotsItem.items.mapM decodeSlot = .ok e.slots) :
    decode item = if e.WellFormed then .ok e else .error .slotsOnScalar := by
  obtain ⟨category, allowed, slots⟩ := e
  simp only [decode, hlist, hitems, hcategory, hallowed, hslots, Bool.not_true, bind, Except.bind]
  cases hscalar : category.hasSlots <;> cases slots <;>
    simp [WellFormed, hscalar, pure, Except.pure, throw, throwThe, MonadExceptOf.throw]

/-- An accepted entry is a list of three items that read well. -/
theorem items_of_decode {item : Item} {e : Entry} (h : decode item = .ok e) :
    item.isList = true ∧ ∃ categoryItem allowedItem slotsItem,
      item.items = [categoryItem, allowedItem, slotsItem] ∧
      decodeCategory categoryItem = .ok e.category ∧
      decodeAllowed allowedItem = .ok e.allowed ∧
      slotsItem.items.mapM decodeSlot = .ok e.slots := by
  obtain ⟨hlist, h⟩ := ite_throw_eq_ok_iff.mp h
  refine ⟨by simpa using hlist, ?_⟩
  split at h
  next categoryItem allowedItem slotsItem hitems =>
    obtain ⟨category, hcategory, h⟩ := bind_eq_ok_iff.mp h
    obtain ⟨allowed, hallowed, h⟩ := bind_eq_ok_iff.mp h
    obtain ⟨slots, hslots, h⟩ := bind_eq_ok_iff.mp h
    obtain ⟨-, h⟩ := ite_throw_eq_ok_iff.mp h
    cases h
    exact ⟨_, _, _, hitems, hcategory, hallowed, hslots⟩
  · cases h

end Entry

namespace Grant

/-- A grant whose two items read well is read as they are. -/
theorem decode_eq {item addressItem entriesItem : Item} {a : Address}
    (hlist : item.isList = true) (hitems : item.items = [addressItem, entriesItem])
    (haddress : addressItem.data = .ok a.toBytes) :
    decode item = Grant.mk a <$> entriesItem.items.mapM Entry.decode := by
  have hfixed : Address.ofBytes <$> addressItem.fixed 20 = .ok a :=
    map_eq_ok_iff.mpr ⟨a.toBytes,
      (Item.fixed_eq_ok_iff ..).mpr ⟨haddress, a.length_toBytes⟩, a.ofBytes_toBytes⟩
  simp only [decode, hlist, hitems, Bool.not_true, hfixed, bind, Except.bind]
  cases entriesItem.items.mapM Entry.decode <;> rfl

/-- An accepted grant is a list of two items that read well. -/
theorem items_of_decode {item : Item} {g : Grant} (h : decode item = .ok g) :
    item.isList = true ∧ ∃ addressItem entriesItem,
      item.items = [addressItem, entriesItem] ∧ addressItem.data = .ok g.address.toBytes ∧
      entriesItem.items.mapM Entry.decode = .ok g.entries := by
  obtain ⟨hlist, h⟩ := ite_throw_eq_ok_iff.mp h
  refine ⟨by simpa using hlist, ?_⟩
  split at h
  next addressItem entriesItem hitems =>
    obtain ⟨address, haddress, h⟩ := bind_eq_ok_iff.mp h
    obtain ⟨entries, hentries, h⟩ := bind_eq_ok_iff.mp h
    cases h
    obtain ⟨bytes, hbytes, rfl⟩ := map_eq_ok_iff.mp haddress
    obtain ⟨hdata, hlength⟩ := (Item.fixed_eq_ok_iff 20 addressItem bytes).mp hbytes
    refine ⟨addressItem, entriesItem, hitems, ?_, hentries⟩
    rw [hdata, Address.toBytes_ofBytes hlength]
  · cases h

end Grant

namespace Declaration

/-- A declaration is read from the first item, which is a list of grants. -/
theorem decode_eq_of_read {bytes rest : Bytes} {item : Item}
    (hread : Item.read bytes = .ok (item, rest)) (hlist : item.isList = true) :
    decode bytes = Declaration.mk <$> item.items.mapM Grant.decode := by
  simp only [decode, hread, hlist, Bool.not_true, bind, Except.bind]
  cases item.items.mapM Grant.decode <;> rfl

/-- Accepted bytes start with a list of items that read well. -/
theorem items_of_decode {bytes : Bytes} {d : Declaration} (h : decode bytes = .ok d) :
    ∃ item rest, Item.read bytes = .ok (item, rest) ∧ item.isList = true ∧
      item.items.mapM Grant.decode = .ok d.grants := by
  obtain ⟨⟨item, rest⟩, hread, h⟩ := bind_eq_ok_iff.mp h
  obtain ⟨hlist, h⟩ := ite_throw_eq_ok_iff.mp h
  obtain ⟨grants, hgrants, h⟩ := bind_eq_ok_iff.mp h
  cases h
  exact ⟨item, rest, hread, by simpa using hlist, hgrants⟩

end Declaration
end MutationGuard
