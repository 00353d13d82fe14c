import Mathlib.Data.List.DropRight
import Mathlib.Data.List.Induction
import Mathlib.Data.Set.Card
import MutationGuard.Lock
import MutationGuard.Proofs.Batch
import MutationGuard.Scenario.Sample

/-!
A table as it is used: accounts are put in place, slots are set and batches taken, in any order. All of it
comes down to updates (`run_eq`). Two things carry the result through a history of them: a slot reads as
what was stored in it last since its account was erased (`slot_foldl_apply`), and the table keeps no slot
that is zero and no entry without slots (`Live`). So an account's slots can be counted by the reads that
are not zero (`Live.encard_slots`). That the table is only reached through a lock makes no difference
(`applyAll_action`). Main statement: `holds_live_slots`.
-/

namespace MutationGuard

/-! ## What counts of the updates -/

namespace Update

/-- The account that the update writes to. -/
def address : Update → Address
  | .balance a _ | .nonce a _ | .code a _ | .storage a _ _ | .destroy a => a

/-- Whether the update erases the account. -/
def erases (a : Address) : Update → Bool
  | .destroy b => b = a
  | _ => false

/-- The value that the update stores in a slot, if it stores one. -/
def stored? (a : Address) (k : Key) : Update → Option Word
  | .storage b l value => if b = a ∧ l = k then some value else none
  | _ => none

/-- The updates after the last one that erases the account; all of them if none does. -/
def sinceErased (a : Address) (updates : List Update) : List Update :=
  updates.rtakeWhile (!·.erases a)

/-- The value stored last in a slot since its account was last erased; zero if none was. -/
def lastStored (a : Address) (k : Key) (updates : List Update) : Word :=
  ((sinceErased a updates).filterMap (stored? a k)).getLast?.getD 0

theorem slot?_eq (a : Address) (k : Key) (u : Update) :
    u.slot? a k = if u.erases a then some 0 else u.stored? a k := by
  cases u with
  | destroy b => simp [slot?, erases, stored?]
  | _ => rfl

theorem lastStored_append_singleton (a : Address) (k : Key) (updates : List Update) (u : Update) :
    lastStored a k (updates ++ [u]) =
      if u.erases a then 0 else (u.stored? a k).getD (lastStored a k updates) := by
  unfold lastStored sinceErased
  rw [List.rtakeWhile_concat]
  cases he : u.erases a with
  | true => rfl
  | false =>
    show ((updates.rtakeWhile (!·.erases a) ++ [u]).filterMap (stored? a k)).getLast?.getD 0 = _
    rw [List.filterMap_append, List.getLast?_append]
    cases hu : u.stored? a k <;> simp [hu]

/-- An update of another account writes nothing of this one. -/
theorem silent_of_ne {a : Address} {u : Update} (h : u.address ≠ a) :
    u.balance? a = none ∧ u.nonce? a = none ∧ u.code? a = none ∧ ∀ k, u.slot? a k = none := by
  cases u with
  | balance b => exact ⟨if_neg h, rfl, rfl, fun k => rfl⟩
  | nonce b => exact ⟨rfl, if_neg h, rfl, fun k => rfl⟩
  | code b => exact ⟨rfl, rfl, if_neg h, fun k => rfl⟩
  | storage b l value => exact ⟨rfl, rfl, rfl, fun k => if_neg fun hb => h hb.1⟩
  | destroy b => exact ⟨if_neg h, if_neg h, if_neg h, fun k => if_neg h⟩

end Update

namespace Table

/-! ## Requests -/

/-- What can be asked of a table. -/
inductive Request where
  | insertAccount (a : Address) (account : Account)
  | insertSlot (a : Address) (k : Key) (value : Word)
  | applyBatch (updates : List Update)

/-- The table after one request. -/
def step (t : Table) : Request → Except Fault Table
  | .insertAccount a account => .ok (t.insertAccount a account)
  | .insertSlot a k value => .ok (t.insertSlot a k value)
  | .applyBatch updates => Sink.applyBatch t updates

/-- An empty table after requests, made in order. -/
def run (requests : List Request) : Except Fault Table := requests.foldlM step ∅

/-- The request as updates. Putting an account in place writes its three fields. -/
def Request.updates : Request → List Update
  | .insertAccount a account =>
    [.balance a account.balance, .nonce a account.nonce, .code a account.code]
  | .insertSlot a k value => [.storage a k value]
  | .applyBatch updates => updates

/-- All that requests write, in order. -/
def updates (requests : List Request) : List Update := requests.flatMap Request.updates

/-- What requests write to one account, in order. -/
def updatesAt (a : Address) (requests : List Request) : List Update :=
  (updates requests).filter (·.address = a)

/-- Of two accounts put in the same place the later one stays. -/
theorem insertAccount_insertAccount (t : Table) (a : Address) (account account' : Account) :
    (t.insertAccount a account).insertAccount a account' = t.insertAccount a account' := by
  unfold insertAccount
  congr 1
  apply Std.ExtTreeMap.ext_getElem?
  intro b
  simp only [Std.ExtTreeMap.getElem?_insert]
  split <;> rfl

theorem step_eq (t : Table) (request : Request) :
    t.step request = .ok (request.updates.foldl apply t) := by
  cases request with
  | insertAccount a account =>
    refine congrArg Except.ok ?_
    show t.insertAccount a account =
      (((t.apply (.balance a account.balance)).apply (.nonce a account.nonce)).apply
        (.code a account.code))
    simp only [apply, account_insertAccount, if_true, insertAccount_insertAccount]
  | insertSlot a k value => rfl
  | applyBatch updates => rfl

theorem run_eq (requests : List Request) :
    run requests = .ok ((updates requests).foldl apply ∅) := by
  have hfold : ∀ t : Table,
      requests.foldlM step t = .ok ((updates requests).foldl apply t) := by
    induction requests with
    | nil => intro t; rfl
    | cons request requests ih =>
      intro t
      rw [List.foldlM_cons, step_eq, updates, List.flatMap_cons, List.foldl_append]
      exact ih _
  exact hfold ∅

/-! ## The last value stored -/

theorem slot_foldl_apply (updates : List Update) (a : Address) (k : Key) :
    (updates.foldl apply ∅).slot a k = Update.lastStored a k updates := by
  induction updates using List.reverseRecOn with
  | nil =>
    show (((∅ : Std.ExtTreeMap Address Slots).getD a ∅).getD k 0) = 0
    rw [Std.ExtTreeMap.getD_empty, Std.ExtTreeMap.getD_empty]
  | append_singleton updates u ih =>
    rw [List.foldl_append, List.foldl_cons, List.foldl_nil, slot_apply, ih, Update.slot?_eq,
      Update.lastStored_append_singleton]
    split <;> rfl

/-! ## Only live slots are kept -/

/-- No slot that is kept is zero, and no address has an entry without slots. -/
structure Live (t : Table) : Prop where
  slot_ne_zero (a : Address) (k : Key) : (t.slots a)[k]? ≠ some 0
  entry_ne_empty (a : Address) : t.storage[a]? ≠ some ∅

theorem live_empty : (∅ : Table).Live where
  slot_ne_zero a k := by
    show ((∅ : Std.ExtTreeMap Address Slots).getD a ∅)[k]? ≠ some 0
    rw [Std.ExtTreeMap.getD_empty, Std.ExtTreeMap.getElem?_empty]
    simp
  entry_ne_empty a := by
    show (∅ : Std.ExtTreeMap Address Slots)[a]? ≠ some ∅
    rw [Std.ExtTreeMap.getElem?_empty]
    simp

namespace Live

variable {t : Table}

theorem insertAccount (h : t.Live) (a : Address) (account : Account) :
    (t.insertAccount a account).Live := ⟨h.slot_ne_zero, h.entry_ne_empty⟩

theorem destroy (h : t.Live) (a : Address) : (t.destroy a).Live where
  slot_ne_zero b k := by
    have hb := h.slot_ne_zero b k
    simp only [Table.destroy, slots, Std.ExtTreeMap.getD_erase] at hb ⊢
    split
    · simp
    · exact hb
  entry_ne_empty b := by
    have hb := h.entry_ne_empty b
    simp only [Table.destroy, Std.ExtTreeMap.getElem?_erase]
    split
    · simp
    · exact hb

/-- Zero takes its slot away, any other value keeps the slot; the last slot takes the entry away. -/
theorem insertSlot (h : t.Live) (a : Address) (k : Key) (value : Word) :
    (t.insertSlot a k value).Live where
  slot_ne_zero b l := by
    have ha := h.slot_ne_zero a l
    have hb := h.slot_ne_zero b l
    rw [slots_insertSlot]
    by_cases hab : a = b
    · rw [if_pos hab]
      by_cases hv : value = 0
      · rw [if_pos hv, Std.ExtTreeMap.getElem?_erase]
        split
        · simp
        · exact ha
      · rw [if_neg hv, Std.ExtTreeMap.getElem?_insert]
        split
        · exact fun hvalue => hv (Option.some.inj hvalue)
        · exact ha
    · rw [if_neg hab]
      exact hb
  entry_ne_empty b := by
    have hb := h.entry_ne_empty b
    by_cases hv : value = 0
    · by_cases hleft : ((t.slots a).erase k).isEmpty
      · simp only [Table.insertSlot, hv, hleft, if_true, Std.ExtTreeMap.getElem?_erase]
        split
        · simp
        · exact hb
      · simp only [Table.insertSlot, hv, hleft, if_true, Bool.false_eq_true, if_false,
          Std.ExtTreeMap.getElem?_insert]
        split
        · intro hempty
          exact hleft (Std.ExtTreeMap.isEmpty_iff.mpr (Option.some.inj hempty))
        · exact hb
    · simp only [Table.insertSlot, hv, if_false, Std.ExtTreeMap.getElem?_insert]
      split
      · intro hempty
        exact Std.ExtTreeMap.insert_ne_empty (Option.some.inj hempty)
      · exact hb

theorem apply (h : t.Live) (u : Update) : (t.apply u).Live := by
  cases u with
  | storage a k value => exact h.insertSlot a k value
  | destroy a => exact h.destroy a
  | balance a | nonce a | code a => exact h.insertAccount a _

theorem foldl_apply (h : t.Live) (updates : List Update) : (updates.foldl Table.apply t).Live := by
  induction updates generalizing t with
  | nil => exact h
  | cons u updates ih => exact ih (h.apply u)

/-- The count of an account's slots is the number of keys that do not read as zero. -/
theorem encard_slots (h : t.Live) (a : Address) :
    {k | t.slot a k ≠ 0}.encard = t.slotCount a := by
  have hkept : ∀ k, t.slot a k ≠ 0 ↔ k ∈ t.slots a := by
    intro k
    have hk := h.slot_ne_zero a k
    rw [slot, Std.ExtTreeMap.getD_eq_getD_getElem?, Std.ExtTreeMap.mem_iff_isSome_getElem?]
    cases hvalue : (t.slots a)[k]? with
    | none => simp
    | some value =>
      rw [hvalue] at hk
      exact ⟨fun _ => rfl, fun _ hzero => hk (congrArg some hzero)⟩
  have hkeys : {k | t.slot a k ≠ 0} = ((t.slots a).keys.toFinset : Set Key) := by
    rw [List.coe_toFinset]
    exact Set.ext fun k => (hkept k).trans Std.ExtTreeMap.mem_keys.symm
  rw [hkeys, Set.encard_coe_eq_coe_finsetCard,
    List.toFinset_card_of_nodup Std.ExtTreeMap.nodup_keys, Std.ExtTreeMap.length_keys, slotCount]

end Live

/-! ## Behind a lock -/

/-- A request as an action on a table that is reached through actions only. -/
def Request.action (request : Request) : EStateM Fault Table Unit := fun t =>
  match t.step request with
  | .ok t' => .ok () t'
  | .error fault => .error fault t

theorem apply_action (lock : Lock Table) (request : Request) :
    lock.apply request.action = (.ok (), ⟨request.updates.foldl apply lock.value⟩) := by
  unfold Lock.apply Request.action
  rw [step_eq]

theorem leaves_action (t : Table) (request : Request) :
    Lock.leaves request.action t = request.updates.foldl apply t := by
  rw [← Lock.value_apply ⟨t⟩, apply_action]

/-- Requests made of a table behind a lock write what they write without one, and none of them fails. -/
theorem applyAll_action (lock : Lock Table) (requests : List Request) :
    lock.applyAll (requests.map Request.action) =
      (requests.map fun _ => .ok (), ⟨(updates requests).foldl apply lock.value⟩) := by
  have hvalue : (lock.applyAll (requests.map Request.action)).2.value =
      (updates requests).foldl apply lock.value := by
    rw [Lock.value_applyAll, List.foldl_map, updates, List.foldl_flatMap]
    simp only [leaves_action]
  have hanswers : (lock.applyAll (requests.map Request.action)).1 = requests.map fun _ => .ok () := by
    apply List.ext_getElem?
    intro i
    rw [Lock.getElem?_applyAll, List.getElem?_map, List.getElem?_map, Option.map_map]
    simp only [Function.comp_def, apply_action]
  exact Prod.ext hanswers (congrArg Lock.mk hvalue)

/-! ## Accounts apart -/

/-- Two tables that answer alike about an account. -/
structure AlikeAt (a : Address) (t t' : Table) : Prop where
  balance : Source.balance t a = Source.balance t' a
  nonce : Source.nonce t a = Source.nonce t' a
  code : Source.code t a = Source.code t' a
  storage (k : Key) : Source.storage t a k = Source.storage t' a k
  slotCount : t.slotCount a = t'.slotCount a

/-- What only updates of an account write is read alike where the same was written to that account. -/
theorem read_foldl_congr {β : Type} (read : Table → β) (written : Update → Option β) {a : Address}
    (happly : ∀ t u, read (t.apply u) = (written u).getD (read t))
    (hother : ∀ u, u.address ≠ a → written u = none) {updates updates' : List Update}
    (h : updates.filter (·.address = a) = updates'.filter (·.address = a)) (t : Table) :
    read (updates.foldl apply t) = read (updates'.foldl apply t) := by
  have hwritten : ∀ l : List Update,
      (l.filter (·.address = a)).filterMap written = l.filterMap written := by
    intro l
    rw [List.filterMap_filter]
    refine List.filterMap_congr fun u _ => ?_
    by_cases hu : u.address = a
    · simp [hu]
    · simp [hu, hother u hu]
  rw [read_foldl_apply read written happly, read_foldl_apply read written happly,
    ← hwritten updates, h, hwritten]

/-- Tables that were written alike at an account answer alike about it. -/
theorem alikeAt_of_filter_eq {updates updates' : List Update} {a : Address}
    (h : updates.filter (·.address = a) = updates'.filter (·.address = a)) :
    AlikeAt a (updates.foldl apply ∅) (updates'.foldl apply ∅) := by
  have hslot : ∀ k, (updates.foldl apply ∅).slot a k = (updates'.foldl apply ∅).slot a k :=
    fun k => read_foldl_congr (·.slot a k) (Update.slot? a k) (fun t u => t.slot_apply u a k)
      (fun _ hu => (Update.silent_of_ne hu).2.2.2 k) h ∅
  refine ⟨?_, ?_, ?_, fun k => congrArg Except.ok (hslot k), ?_⟩
  · exact congrArg Except.ok (read_foldl_congr (fun t => (t.account a).balance) (Update.balance? a)
      (fun t u => t.balance_apply u a) (fun _ hu => (Update.silent_of_ne hu).1) h ∅)
  · exact congrArg Except.ok (read_foldl_congr (fun t => (t.account a).nonce) (Update.nonce? a)
      (fun t u => t.nonce_apply u a) (fun _ hu => (Update.silent_of_ne hu).2.1) h ∅)
  · exact congrArg Except.ok (read_foldl_congr (fun t => (t.account a).code) (Update.code? a)
      (fun t u => t.code_apply u a) (fun _ hu => (Update.silent_of_ne hu).2.2.1) h ∅)
  · -- the slots are counted by how they read
    have hcount := (live_empty.foldl_apply updates).encard_slots a
    simp only [hslot, (live_empty.foldl_apply updates').encard_slots a] at hcount
    exact_mod_cast hcount.symm

/-- After any requests, made of a table that was empty, only live slots are kept, and the count of an
account's slots is the number of keys that do not read as zero. A slot reads as the value that was stored
in it last since its account was last erased, or as zero. All answers about an account hang on what was
written to that account: a history that differs in nothing but requests and updates of other accounts,
added, left out or changed, gives the same ones. The same table is left behind a lock, where no request
fails either. -/
theorem holds_live_slots (requests : List Request) (a : Address) :
    ∃ t, run requests = .ok t ∧ t.Live ∧
      {k | Source.storage t a k ≠ .ok 0}.encard = t.slotCount a ∧
      (∀ k, Source.storage t a k = .ok (Update.lastStored a k (updates requests))) ∧
      (∀ others, updatesAt a others = updatesAt a requests →
        ∃ t', run others = .ok t' ∧ AlikeAt a t' t) ∧
      (⟨∅⟩ : Lock Table).applyAll (requests.map Request.action) =
        (requests.map fun _ => .ok (), ⟨t⟩) := by
  have hlive : ((updates requests).foldl apply ∅).Live := live_empty.foldl_apply _
  refine ⟨_, run_eq requests, hlive, ?_, fun k => ?_, fun others hothers => ?_,
    applyAll_action ⟨∅⟩ requests⟩
  · have hreads : ∀ (t : Table) (k : Key), Source.storage t a k ≠ .ok 0 ↔ t.slot a k ≠ 0 :=
      fun t k => not_congr ⟨Except.ok.inj, congrArg Except.ok⟩
    simp only [hreads]
    exact hlive.encard_slots a
  · exact congrArg Except.ok (slot_foldl_apply (updates requests) a k)
  · exact ⟨_, run_eq others, alikeAt_of_filter_eq hothers⟩

/-- Alice's slots are set, cleared and erased, and one is set again; what is done to Bob in between does
not show. -/
theorem holds_live_slots_erased :
    let requests : List Request :=
      [.insertSlot Sample.alice (.ofNat 1) 7,
        .applyBatch [.storage Sample.alice (.ofNat 2) 8, .storage Sample.bob (.ofNat 1) 5,
          .storage Sample.alice (.ofNat 1) 0],
        .insertAccount Sample.alice (Sample.account 3 []),
        .applyBatch [.destroy Sample.alice, .destroy Sample.bob, .storage Sample.alice (.ofNat 3) 9],
        .insertSlot Sample.alice (.ofNat 4) 0]
    let others : List Request :=
      [.insertSlot Sample.alice (.ofNat 1) 7,
        .applyBatch [.storage Sample.alice (.ofNat 2) 8, .storage Sample.alice (.ofNat 1) 0],
        .insertAccount Sample.alice (Sample.account 3 []),
        .applyBatch [.destroy Sample.alice, .storage Sample.alice (.ofNat 3) 9],
        .insertSlot Sample.alice (.ofNat 4) 0, .insertAccount Sample.bob (Sample.account 1 [])]
    updatesAt Sample.alice others = updatesAt Sample.alice requests ∧
      ∃ t t', run requests = .ok t ∧ run others = .ok t' ∧
        Source.storage t Sample.alice (.ofNat 2) = .ok 0 ∧
        Source.storage t Sample.alice (.ofNat 3) = .ok 9 ∧
        {k | Source.storage t Sample.alice k ≠ .ok 0}.encard = 1 ∧ AlikeAt Sample.alice t' t := by
  intro requests others
  have hothers : updatesAt Sample.alice others = updatesAt Sample.alice requests := rfl
  have hone : (·.slotCount Sample.alice) <$> run requests = .ok 1 := rfl
  obtain ⟨t, hrun, -, hcount, hreads, hapart, -⟩ := holds_live_slots requests Sample.alice
  obtain ⟨t', hrun', halike⟩ := hapart others hothers
  refine ⟨hothers, t, t', hrun, hrun', ?_, ?_, ?_, halike⟩
  · rw [hreads]
    rfl
  · rw [hreads]
    rfl
  · rw [hrun] at hone
    have hkept : t.slotCount Sample.alice = 1 := Except.ok.inj hone
    rw [hcount, hkept]
    rfl

end Table
end MutationGuard
