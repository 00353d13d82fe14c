import Mathlib.Logic.Relation
import MutationGuard.Policy.Permission
import MutationGuard.Scenario.Sample

/-!
What a declaration resolves to, read backwards. Resolving goes forward through grants and their entries
and overwrites one field at a time; what is left at the end is, for each address and category, the last
entry there is (`PermissionSet.get?_ofDeclaration`), whatever stood before it. So neighbours that share
no category of an address may change places. Main statement: `PermissionSet.last_entry_wins`.
-/

namespace MutationGuard

namespace Entry

/-- The last entry of a category. -/
def lastOf? (c : Category) (entries : List Entry) : Option Entry :=
  (entries.filter (·.category = c)).getLast?

theorem lastOf?_append (c : Category) (xs ys : List Entry) :
    lastOf? c (xs ++ ys) = (lastOf? c ys).or (lastOf? c xs) := by
  rw [lastOf?, List.filter_append, List.getLast?_append]
  rfl

theorem lastOf?_eq_none {c : Category} {entries : List Entry} (h : ∀ e ∈ entries, e.category ≠ c) :
    lastOf? c entries = none := by
  rw [lastOf?, List.getLast?_eq_none_iff, List.filter_eq_nil_iff]
  intro e he
  simpa using h e he

/-- No category has entries in both lists. -/
def Disjoint (xs ys : List Entry) : Prop := ∀ x ∈ xs, ∀ y ∈ ys, x.category ≠ y.category

/-- Of two lists that have no category in common, either may come first. -/
theorem lastOf?_append_comm {xs ys : List Entry} (h : Disjoint xs ys) (c : Category) :
    lastOf? c (xs ++ ys) = lastOf? c (ys ++ xs) := by
  rw [lastOf?_append, lastOf?_append]
  by_cases hx : ∃ x ∈ xs, x.category = c
  · obtain ⟨x, hx, rfl⟩ := hx
    rw [lastOf?_eq_none fun y hy => (h x hx y hy).symm, Option.none_or, Option.or_none]
  · have hnone : lastOf? c xs = none := lastOf?_eq_none fun x hxs hc => hx ⟨x, hxs, hc⟩
    rw [hnone, Option.none_or, Option.or_none]

/-- Two lists of entries that differ in the order of two stretches without a common category. -/
inductive Exchange : List Entry → List Entry → Prop
  | mk (first : List Entry) {xs ys : List Entry} (h : Disjoint xs ys) (rest : List Entry) :
    Exchange (first ++ (xs ++ ys) ++ rest) (first ++ (ys ++ xs) ++ rest)

theorem Exchange.refl (entries : List Entry) : Exchange entries entries := by
  have hnil : Disjoint [] [] := nofun
  simpa using Exchange.mk entries hnil []

theorem Exchange.append {entries entries' : List Entry} (h : Exchange entries entries')
    (before after : List Entry) :
    Exchange (before ++ entries ++ after) (before ++ entries' ++ after) := by
  obtain ⟨first, hdisjoint, rest⟩ := h
  simpa only [List.append_assoc] using Exchange.mk (before ++ first) hdisjoint (rest ++ after)

theorem Exchange.lastOf? {entries entries' : List Entry} (h : Exchange entries entries')
    (c : Category) : Entry.lastOf? c entries = Entry.lastOf? c entries' := by
  obtain ⟨first, hdisjoint, rest⟩ := h
  simp only [lastOf?_append _ (first ++ _), lastOf?_append _ first, lastOf?_append_comm hdisjoint c]

/-- The slot set that an entry of a storage category gives, if it allows one. -/
def slotSet? (e : Entry) : Option SlotSet :=
  if e.allowed then some (Std.ExtTreeSet.ofList e.slots) else none

theorem isSome_bind_slotSet? {last : Option Entry} :
    (last.bind slotSet?).isSome = true ↔ ∃ e, last = some e ∧ e.allowed = true := by
  cases last <;> simp [slotSet?]

theorem contains_bind_slotSet? {last : Option Entry} {k : Key} :
    (last.bind slotSet?).any (·.contains k) = true ↔
      ∃ e, last = some e ∧ e.allowed = true ∧ k ∈ e.slots := by
  cases last with
  | none => simp
  | some e => cases h : e.allowed <;> simp [slotSet?, h, Std.ExtTreeSet.contains_ofList]

end Entry

/-! ## One address -/

namespace AccountPermissions

/-- The permissions that the last entry of each category gives. -/
def ofLast (last : Category → Option Entry) : AccountPermissions where
  code := (last .code).any (·.allowed)
  nonce := (last .nonce).any (·.allowed)
  balance := (last .balance).any (·.allowed)
  storage := (last .storage).bind Entry.slotSet?
  transientStorage := (last .transientStorage).bind Entry.slotSet?

/-- One more entry becomes the last one of its category. -/
theorem apply_ofLast (last : Category → Option Entry) (e : Entry) :
    (ofLast last).apply e = ofLast fun c => if e.category = c then some e else last c := by
  obtain ⟨category, allowed, slots⟩ := e
  cases category <;> simp [apply, ofLast, Entry.slotSet?]

theorem foldl_apply_ofLast (entries : List Entry) (last : Category → Option Entry) :
    entries.foldl apply (ofLast last) = ofLast fun c => (Entry.lastOf? c entries).or (last c) := by
  induction entries generalizing last with
  | nil => rfl
  | cons e entries ih =>
    rw [List.foldl_cons, apply_ofLast, ih]
    congr 1
    funext c
    have hcons : e :: entries = [e] ++ entries := rfl
    rw [hcons, Entry.lastOf?_append, Option.or_assoc]
    by_cases hc : e.category = c <;> simp [Entry.lastOf?, hc]

theorem foldl_apply_denied (entries : List Entry) :
    entries.foldl apply denied = ofLast fun c => Entry.lastOf? c entries := by
  have hdenied : denied = ofLast fun _ => none := rfl
  simp only [hdenied, foldl_apply_ofLast, Option.or_none]

end AccountPermissions

/-! ## All addresses -/

namespace Grant

/-- The entries for an address, in order, those of all its grants. -/
def entriesFor (a : Address) (grants : List Grant) : List Entry :=
  grants.flatMap fun g => if g.address = a then g.entries else []

theorem entriesFor_append (a : Address) (grants grants' : List Grant) :
    entriesFor a (grants ++ grants') = entriesFor a grants ++ entriesFor a grants' :=
  List.flatMap_append

theorem entriesFor_cons (a : Address) (g : Grant) (grants : List Grant) :
    entriesFor a (g :: grants) = (if g.address = a then g.entries else []) ++ entriesFor a grants :=
  List.flatMap_cons

end Grant

namespace Declaration

/-- Some grant is for the address, be it without entries. -/
def Names (d : Declaration) (a : Address) : Prop := ∃ g ∈ d.grants, g.address = a

instance (d : Declaration) (a : Address) : Decidable (d.Names a) :=
  inferInstanceAs (Decidable (∃ g ∈ d.grants, g.address = a))

/-- The last entry of a category for an address. -/
def lastEntry? (d : Declaration) (a : Address) (c : Category) : Option Entry :=
  Entry.lastOf? c (Grant.entriesFor a d.grants)

end Declaration

namespace PermissionSet

/-- Going through grants, the permissions of an address change by its own entries alone, as if these
stood in one list. -/
theorem get?_foldl_apply (grants : List Grant) (s : PermissionSet) (a : Address) :
    (grants.foldl apply s).get? a =
      if ∃ g ∈ grants, g.address = a then
        some ((Grant.entriesFor a grants).foldl AccountPermissions.apply ((s.get? a).getD .denied))
      else s.get? a := by
  induction grants generalizing s with
  | nil => simp
  | cons g grants ih =>
    rw [List.foldl_cons, ih, get?_apply, Grant.entriesFor_cons, List.foldl_append]
    by_cases hg : g.address = a
    · -- the entries of this grant come first, also if no later grant is for the address
      have hnamed : ∃ g' ∈ g :: grants, g'.address = a := ⟨g, List.mem_cons_self, hg⟩
      rw [if_pos hg, if_pos hg, if_pos hnamed, Option.getD_some]
      by_cases hlater : ∃ g' ∈ grants, g'.address = a
      · rw [if_pos hlater]
      · have hnone : Grant.entriesFor a grants = [] := by
          refine List.flatMap_eq_nil_iff.mpr fun g' hg' => if_neg fun h => hlater ⟨g', hg', h⟩
        rw [if_neg hlater, hnone]
        rfl
    · simp [hg]

/-- An address has the permissions that its last entries give, if the declaration names it. -/
theorem get?_ofDeclaration (d : Declaration) (a : Address) :
    (ofDeclaration d).get? a = if d.Names a then some (.ofLast (d.lastEntry? a)) else none := by
  rw [ofDeclaration, get?_foldl_apply, get?_empty, Option.getD_none,
    AccountPermissions.foldl_apply_denied]
  rfl

theorem lastEntry?_of_not_names {d : Declaration} {a : Address} (h : ¬ d.Names a) (c : Category) :
    d.lastEntry? a c = none := by
  have hnone : Grant.entriesFor a d.grants = [] :=
    List.flatMap_eq_nil_iff.mpr fun g hg => if_neg fun ha => h ⟨g, hg, ha⟩
  rw [Declaration.lastEntry?, hnone]
  rfl

/-- A question about one address is answered by its last entries, if nothing is permitted without
entries. -/
theorem any_get?_ofDeclaration (d : Declaration) (a : Address) {ask : AccountPermissions → Bool}
    (h : ask (.ofLast fun _ => none) = false) :
    ((ofDeclaration d).get? a).any ask = ask (.ofLast (d.lastEntry? a)) := by
  rw [get?_ofDeclaration]
  by_cases ha : d.Names a
  · rw [if_pos ha, Option.any_some]
  · have hlast : d.lastEntry? a = fun _ => none := funext (lastEntry?_of_not_names ha)
    rw [if_neg ha, Option.any_none, hlast, h]

/-- Declarations that name the same addresses and end in the same entries resolve to the same set. -/
theorem ofDeclaration_congr {d d' : Declaration} (hnames : ∀ a, d.Names a ↔ d'.Names a)
    (hlast : ∀ a c, d.lastEntry? a c = d'.lastEntry? a c) : ofDeclaration d = ofDeclaration d' := by
  refine ext_get? fun a => ?_
  have hlast' : d.lastEntry? a = d'.lastEntry? a := funext (hlast a)
  simp only [get?_ofDeclaration, hnames a, hlast']

end PermissionSet

/-! ## The order of declarations -/

namespace Declaration

/-- Two neighbours in a declaration change places. They share no category of an address. -/
inductive Swap : Declaration → Declaration → Prop
  /-- Two entries of one grant. -/
  | entries (before after : List Grant) (a : Address) (first rest : List Entry) {e f : Entry}
    (h : e.category ≠ f.category) :
    Swap ⟨before ++ ⟨a, first ++ [e, f] ++ rest⟩ :: after⟩
      ⟨before ++ ⟨a, first ++ [f, e] ++ rest⟩ :: after⟩
  /-- An entry at the end of a grant, and the next one for the address, in a later grant. -/
  | across (before between after : List Grant) (a : Address) (first rest : List Entry) {e f : Entry}
    (hbetween : ∀ g ∈ between, g.address = a → g.entries = []) (h : e.category ≠ f.category) :
    Swap ⟨before ++ ⟨a, first ++ [e]⟩ :: (between ++ ⟨a, f :: rest⟩ :: after)⟩
      ⟨before ++ ⟨a, first ++ [f]⟩ :: (between ++ ⟨a, e :: rest⟩ :: after)⟩
  /-- Two grants, for different addresses or without a common category. -/
  | grants (before after : List Grant) {g h : Grant}
    (hdisjoint : g.address = h.address → Entry.Disjoint g.entries h.entries) :
    Swap ⟨before ++ g :: h :: after⟩ ⟨before ++ h :: g :: after⟩

theorem names_iff {d : Declaration} {a : Address} : d.Names a ↔ a ∈ d.grants.map (·.address) := by
  simp [Names]

theorem Swap.names {d d' : Declaration} (h : Swap d d') (a : Address) : d.Names a ↔ d'.Names a := by
  rw [names_iff, names_iff]
  cases h with
  | entries | across => simp
  | grants => simp [or_left_comm]

theorem disjoint_pair {e f : Entry} (h : e.category ≠ f.category) : Entry.Disjoint [e] [f] := by
  intro x hx y hy
  rw [List.mem_singleton.mp hx, List.mem_singleton.mp hy]
  exact h

/-- In the entries for any one address, at most two stretches change places. -/
theorem Swap.exchange {d d' : Declaration} (h : Swap d d') (a : Address) :
    Entry.Exchange (Grant.entriesFor a d.grants) (Grant.entriesFor a d'.grants) := by
  cases h with
  | entries before after b first rest h =>
    simp only [Grant.entriesFor_append, Grant.entriesFor_cons, ← List.append_assoc]
    refine Entry.Exchange.append ?_ _ _
    by_cases hb : b = a
    · rw [if_pos hb, if_pos hb]
      exact .mk first (disjoint_pair h) rest
    · rw [if_neg hb, if_neg hb]
      exact .refl []
  | @across before between after b first rest e f hbetween h =>
    simp only [Grant.entriesFor_append, Grant.entriesFor_cons]
    by_cases hb : b = a
    · subst hb
      have hnone : Grant.entriesFor b between = [] := by
        refine List.flatMap_eq_nil_iff.mpr fun g hg => ?_
        by_cases hgb : g.address = b
        · rw [if_pos hgb, hbetween g hg hgb]
        · rw [if_neg hgb]
      have hpair := Entry.Exchange.mk first (disjoint_pair h) rest
      simpa [hnone] using hpair.append (Grant.entriesFor b before) (Grant.entriesFor b after)
    · simp only [if_neg hb]
      exact .refl _
  | @grants before after g h hdisjoint =>
    simp only [Grant.entriesFor_append, Grant.entriesFor_cons]
    have hstretches : Entry.Disjoint (if g.address = a then g.entries else [])
        (if h.address = a then h.entries else []) := by
      intro x hx y hy
      split at hx <;> split at hy
      · next hg hh => exact hdisjoint (hg.trans hh.symm) x hx y hy
      all_goals simp_all
    simpa using Entry.Exchange.mk (Grant.entriesFor a before) hstretches (Grant.entriesFor a after)

end Declaration

namespace PermissionSet

theorem ofDeclaration_swap {d d' : Declaration} (h : d.Swap d') : ofDeclaration d = ofDeclaration d' :=
  ofDeclaration_congr h.names fun a c => (h.exchange a).lastOf? c

/-- The last occurrence wins. A set resolved from a declaration names the addresses of its grants. It
allows a category without slots if the last entry of that category for the address allows it, and a slot
if the last entry of the kind of storage is allowed and lists the slot; entries before that one add
nothing. So neighbours without a common category of an address may change places, any number of times. -/
theorem last_entry_wins (d : Declaration) :
    (∀ a, ((ofDeclaration d).get? a).isSome = true ↔ d.Names a) ∧
    (∀ a c, c.hasSlots = false →
      ((ofDeclaration d).allows a c = true ↔ ∃ e, d.lastEntry? a c = some e ∧ e.allowed = true)) ∧
    (∀ a k, (ofDeclaration d).allowsSlot a k = true ↔
      ∃ e, d.lastEntry? a .storage = some e ∧ e.allowed = true ∧ k ∈ e.slots) ∧
    (∀ a k, (ofDeclaration d).allowsTransientSlot a k = true ↔
      ∃ e, d.lastEntry? a .transientStorage = some e ∧ e.allowed = true ∧ k ∈ e.slots) ∧
    ∀ d', Relation.ReflTransGen Declaration.Swap d d' → ofDeclaration d' = ofDeclaration d := by
  refine ⟨fun a => ?_, fun a c hc => ?_, fun a k => ?_, fun a k => ?_, fun d' hswaps => ?_⟩
  · rw [get?_ofDeclaration]
    split <;> simp_all
  · rw [allows, any_get?_ofDeclaration _ _ (by cases c <;> rfl)]
    cases c with
    | code | nonce | balance =>
      simp [AccountPermissions.allows, AccountPermissions.ofLast, Option.any_eq_true]
    | storage | transientStorage => cases hc
  · rw [allowsSlot, any_get?_ofDeclaration _ _ rfl]
    exact Entry.contains_bind_slotSet?
  · rw [allowsTransientSlot, any_get?_ofDeclaration _ _ rfl]
    exact Entry.contains_bind_slotSet?
  · induction hswaps with
    | refl => rfl
    | tail _ hswap ih => rw [← ofDeclaration_swap hswap, ih]

/-- Balance is allowed and then denied, a slot is listed and then another one, over two grants with a
third in between. The denial and the later slot may change places. -/
theorem last_entry_wins_repeated :
    let allowed := Entry.allow .balance
    let denied : Entry := ⟨.balance, false, []⟩
    let d : Declaration := ⟨[⟨Sample.guarded, [allowed, .storage [.ofNat 1], denied]⟩,
      ⟨Sample.bob, []⟩, ⟨Sample.guarded, [.storage [.ofNat 2], .allow .code]⟩]⟩
    let d' : Declaration := ⟨[⟨Sample.guarded, [allowed, .storage [.ofNat 1], .storage [.ofNat 2]]⟩,
      ⟨Sample.bob, []⟩, ⟨Sample.guarded, [denied, .allow .code]⟩]⟩
    Category.balance.hasSlots = false ∧ Relation.ReflTransGen Declaration.Swap d d' ∧
      ((ofDeclaration d).get? Sample.bob).isSome = true ∧
      (ofDeclaration d).allows Sample.guarded .balance = false ∧
      (ofDeclaration d).allowsSlot Sample.guarded (.ofNat 1) = false ∧
      (ofDeclaration d).allowsSlot Sample.guarded (.ofNat 2) = true ∧
      ofDeclaration d' = ofDeclaration d := by
  intro allowed denied d d'
  have hbetween : ∀ g ∈ [Grant.mk Sample.bob []], g.address = Sample.guarded → g.entries = [] := by
    decide
  have hcategories : denied.category ≠ (Entry.storage [.ofNat 2]).category := by decide
  have hswap : Declaration.Swap d d' :=
    .across [] [⟨Sample.bob, []⟩] [] Sample.guarded [allowed, .storage [.ofNat 1]] [.allow .code]
      hbetween hcategories
  obtain ⟨hnames, hallows, hslots, -, horder⟩ := last_entry_wins d
  have hbalance : d.lastEntry? Sample.guarded .balance = some denied := by decide
  have hstorage : d.lastEntry? Sample.guarded .storage = some (.storage [.ofNat 2]) := by decide
  refine ⟨rfl, .single hswap, (hnames _).mpr (by decide), Bool.eq_false_iff.mpr fun h => ?_,
    Bool.eq_false_iff.mpr fun h => ?_, (hslots _ _).mpr ⟨_, hstorage, rfl, by decide⟩,
    horder d' (.single hswap)⟩
  · obtain ⟨e, he, hallowed⟩ := (hallows _ .balance rfl).mp h
    rw [hbalance] at he
    cases he
    cases hallowed
  · obtain ⟨e, he, -, hlisted⟩ := (hslots _ _).mp h
    rw [hstorage] at he
    cases he
    exact absurd hlisted (by decide)

end PermissionSet
end MutationGuard
