import MutationGuard.Policy.Basic
import MutationGuard.Rlp.Encode
import MutationGuard.Rlp.Item

/-!
The wire form of a declaration, as nested lists:

    Entry       = [category, allowed, [slot, ...]]
    Grant       = [address, [Entry, ...]]
    Declaration = [Grant, ...]

Reading takes the item at the front of the bytes and ignores what follows it. Inside a list, reading
stops at the first item that cannot be read, and only the items before it count.
-/

namespace MutationGuard

open Rlp

namespace Entry

/-- The wire form of an entry. -/
def encode (e : Entry) : Bytes :=
  encodeList
    [encodeByte e.category.tag, encodeByte (if e.allowed then 1 else 0),
      encodeList (e.slots.map fun k => encodeData k.toBytes)]

/-- Reads a truth value, which is zero or one. -/
def decodeAllowed (item : Item) : Except DecodeError Bool := do
  match ← item.byte with
  | 0 => return false
  | 1 => return true
  | _ => throw .nonCanonicalBoolean

/-- Reads a category from its tag. -/
def decodeCategory (item : Item) : Except DecodeError Category := do
  match Category.ofTag? (← item.byte) with
  | some category => return category
  | none => throw .unknownCategory

/-- Reads a slot key of exactly thirty-two bytes. -/
def decodeSlot (item : Item) : Except DecodeError Key :=
  Key.ofBytes <$> item.fixed 32

/-- Reads an entry of three items. The slots of a category that carries none must be empty. -/
def decode (item : Item) : Except DecodeError Entry := do
  if !item.isList then throw .expectedList
  match item.items with
  | [categoryItem, allowedItem, slotsItem] =>
    let category ← decodeCategory categoryItem
    let allowed ← decodeAllowed allowedItem
    let slots ← slotsItem.items.mapM decodeSlot
    if !category.hasSlots && !slots.isEmpty then throw .slotsOnScalar
    return ⟨category, allowed, slots⟩
  | _ => throw .wrongItemCount

end Entry

namespace Grant

/-- The wire form of a grant. -/
def encode (g : Grant) : Bytes :=
  encodeList [encodeData g.address.toBytes, encodeList (g.entries.map Entry.encode)]

/-- Reads a grant of two items. -/
def decode (item : Item) : Except DecodeError Grant := do
  if !item.isList then throw .expectedList
  match item.items with
  | [addressItem, entriesItem] =>
    let address ← Address.ofBytes <$> addressItem.fixed 20
    let entries ← entriesItem.items.mapM Entry.decode
    return ⟨address, entries⟩
  | _ => throw .wrongItemCount

end Grant

namespace Declaration

/-- The wire form of a declaration. -/
def encode (d : Declaration) : Bytes := encodeList (d.grants.map Grant.encode)

/-- Reads the declaration at the front of the bytes. -/
def decode (bytes : Bytes) : Except DecodeError Declaration := do
  let (item, _) ← Item.read bytes
  if !item.isList then throw .expectedList
  return ⟨← item.items.mapM Grant.decode⟩

end Declaration
end MutationGuard
