import MutationGuard.Proofs.Batch
import MutationGuard.Proofs.Session
import MutationGuard.Scenario.Sample

/-!
Committing to a table makes durable exactly what the transaction showed. The pending writes are
handed over as a batch, erasures first; the order within the erasures and within the other writes is
up to whoever lists them, and does not show. That an erasure does not undo the pending writes to its
account rests on an invariant: what was erased has its balance, nonce and code pending (`Covered`).
Main statement: `commit_durable`.
-/

namespace MutationGuard

/-- A list without two different members ends in the only one it has. -/
theorem getLast?_eq_of_mem_iff {β : Type} {l : List β} {o : Option β}
    (h : ∀ x, x ∈ l ↔ o = some x) : l.getLast? = o := by
  cases hl : l.getLast? with
  | none =>
    rw [List.getLast?_eq_none_iff] at hl
    subst hl
    cases o with
    | none => rfl
    | some x => exact absurd ((h x).mpr rfl) List.not_mem_nil
  | some x => exact ((h x).mp (List.mem_of_getLast? hl)).symm

namespace Overlay

/-! ## Handing over the writes -/

/-- The erasures. -/
def erasures (o : Overlay) : List Update := o.destroyed.toList.map .destroy

def balanceWrites (o : Overlay) : List Update :=
  o.balances.toList.map fun (a, value) => .balance a value

def nonceWrites (o : Overlay) : List Update :=
  o.nonces.toList.map fun (a, value) => .nonce a value

def codeWrites (o : Overlay) : List Update :=
  o.codes.toList.map fun (a, value) => .code a value

def slotWrites (o : Overlay) : List Update :=
  o.storage.toList.flatMap fun (a, slots) => slots.toList.map fun (k, value) => .storage a k value

/-- Everything that is written besides the erasures. -/
def writes (o : Overlay) : List Update :=
  o.balanceWrites ++ o.nonceWrites ++ o.codeWrites ++ o.slotWrites

/-- A batch that hands over the pending writes: the erasures in some order, then everything else in
some order. -/
inductive Batch (o : Overlay) : List Update → Prop
  | mk {erased written : List Update} (herased : erased.Perm o.erasures)
    (hwritten : written.Perm o.writes) : Batch o (erased ++ written)

/-- Listing the writes kind by kind, each kind in some order, gives a batch. -/
theorem batch_of_perm {o : Overlay} {erased balances nonces codes slots : List Update}
    (herased : erased.Perm o.erasures) (hbalances : balances.Perm o.balanceWrites)
    (hnonces : nonces.Perm o.nonceWrites) (hcodes : codes.Perm o.codeWrites)
    (hslots : slots.Perm o.slotWrites) :
    o.Batch (erased ++ balances ++ nonces ++ codes ++ slots) := by
  have hwritten : (balances ++ nonces ++ codes ++ slots).Perm o.writes :=
    ((hbalances.append hnonces).append hcodes).append hslots
  have h := Batch.mk herased hwritten
  simpa only [List.append_assoc] using h

/-- The batch of a commit lists every kind in ascending order. -/
theorem batch_updates (o : Overlay) : o.Batch o.updates :=
  batch_of_perm (.refl _) (.refl _) (.refl _) (.refl _) (.refl _)

theorem mem_erasures {o : Overlay} {u : Update} :
    u ∈ o.erasures ↔ ∃ a, o.destroyed.contains a = true ∧ u = .destroy a := by
  simp only [erasures, List.mem_map, Std.ExtTreeSet.mem_toList, Std.ExtTreeSet.mem_iff_contains,
    eq_comm]

theorem mem_balanceWrites {o : Overlay} {u : Update} :
    u ∈ o.balanceWrites ↔ ∃ a value, o.balances[a]? = some value ∧ u = .balance a value := by
  simp [balanceWrites, Std.ExtTreeMap.mem_toList_iff_getElem?_eq_some, eq_comm]

theorem mem_nonceWrites {o : Overlay} {u : Update} :
    u ∈ o.nonceWrites ↔ ∃ a value, o.nonces[a]? = some value ∧ u = .nonce a value := by
  simp [nonceWrites, Std.ExtTreeMap.mem_toList_iff_getElem?_eq_some, eq_comm]

theorem mem_codeWrites {o : Overlay} {u : Update} :
    u ∈ o.codeWrites ↔ ∃ a value, o.codes[a]? = some value ∧ u = .code a value := by
  simp [codeWrites, Std.ExtTreeMap.mem_toList_iff_getElem?_eq_some, eq_comm]

theorem mem_slotWrites {o : Overlay} {u : Update} :
    u ∈ o.slotWrites ↔ ∃ a k value, o.storage? a k = some value ∧ u = .storage a k value := by
  simp only [slotWrites, storage?, List.mem_flatMap, List.mem_map, Prod.exists,
    Std.ExtTreeMap.mem_toList_iff_getElem?_eq_some, Option.bind_eq_some_iff]
  constructor
  · rintro ⟨a, slots, hslots, k, value, hvalue, rfl⟩
    exact ⟨a, k, value, ⟨slots, hslots, hvalue⟩, rfl⟩
  · rintro ⟨a, k, value, ⟨slots, hslots, hvalue⟩, rfl⟩
    exact ⟨a, slots, hslots, k, value, hvalue, rfl⟩

theorem mem_writes {o : Overlay} {u : Update} :
    u ∈ o.writes ↔
      (∃ a value, o.balances[a]? = some value ∧ u = .balance a value) ∨
      (∃ a value, o.nonces[a]? = some value ∧ u = .nonce a value) ∨
      (∃ a value, o.codes[a]? = some value ∧ u = .code a value) ∨
      ∃ a k value, o.storage? a k = some value ∧ u = .storage a k value := by
  simp only [writes, List.mem_append, mem_balanceWrites, mem_nonceWrites, mem_codeWrites,
    mem_slotWrites, or_assoc]

/-! ## The last value that a batch writes -/

variable {β : Type} {o : Overlay} {batch : List Update}

/-- The last value that a batch writes is the pending one; without a pending one it is the value that
erasing the account leaves, if the account was erased. -/
theorem Batch.getLast?_filterMap (h : o.Batch batch) {written : Update → Option β} {a : Address}
    {left : β} {pending : Option β}
    (herase : ∀ b, written (.destroy b) = if b = a then some left else none)
    (hwrite : ∀ x, (∃ u ∈ o.writes, written u = some x) ↔ pending = some x) :
    (batch.filterMap written).getLast? =
      pending.or (if o.destroyed.contains a then some left else none) := by
  obtain @⟨erasures, writes, herasures, hwrites⟩ := h
  have hlater : (writes.filterMap written).getLast? = pending := by
    refine getLast?_eq_of_mem_iff fun x => ?_
    simp only [List.mem_filterMap, hwrites.mem_iff]
    exact hwrite x
  have hearlier : (erasures.filterMap written).getLast? =
      if o.destroyed.contains a then some left else none := by
    refine getLast?_eq_of_mem_iff fun x => ?_
    simp only [List.mem_filterMap, herasures.mem_iff, mem_erasures]
    constructor
    · rintro ⟨_, ⟨b, hb, rfl⟩, hx⟩
      rw [herase] at hx
      split at hx
      · next hba => rw [← hba, if_pos hb, ← hx]
      · cases hx
    · intro hx
      split at hx
      · next ha => exact ⟨_, ⟨a, ha, rfl⟩, by rw [herase, if_pos rfl, hx]⟩
      · cases hx
  rw [List.filterMap_append, List.getLast?_append, hlater, hearlier]

theorem Batch.balance? (h : o.Batch batch) (a : Address) :
    (batch.filterMap (Update.balance? a)).getLast? =
      o.balances[a]?.or (if o.destroyed.contains a then some 0 else none) := by
  refine h.getLast?_filterMap (fun _ => rfl) fun x => ?_
  simp only [mem_writes]
  grind [Update.balance?]

theorem Batch.nonce? (h : o.Batch batch) (a : Address) :
    (batch.filterMap (Update.nonce? a)).getLast? =
      o.nonces[a]?.or (if o.destroyed.contains a then some 0 else none) := by
  refine h.getLast?_filterMap (fun _ => rfl) fun x => ?_
  simp only [mem_writes]
  grind [Update.nonce?]

theorem Batch.code? (h : o.Batch batch) (a : Address) :
    (batch.filterMap (Update.code? a)).getLast? =
      o.codes[a]?.or (if o.destroyed.contains a then some [] else none) := by
  refine h.getLast?_filterMap (fun _ => rfl) fun x => ?_
  simp only [mem_writes]
  grind [Update.code?]

theorem Batch.slot? (h : o.Batch batch) (a : Address) (k : Key) :
    (batch.filterMap (Update.slot? a k)).getLast? =
      (o.storage? a k).or (if o.destroyed.contains a then some 0 else none) := by
  refine h.getLast?_filterMap (fun _ => rfl) fun x => ?_
  simp only [mem_writes]
  grind [Update.slot?]

/-- Without pending writes there is only the empty batch. -/
theorem Batch.eq_nil (h : (∅ : Overlay).Batch batch) : batch = [] := by
  obtain ⟨herased, hwritten⟩ := h
  have herasures : (∅ : Overlay).erasures = [] := rfl
  have hwrites : (∅ : Overlay).writes = [] := rfl
  rw [herasures] at herased
  rw [hwrites] at hwritten
  rw [herased.eq_nil, hwritten.eq_nil, List.append_nil]

/-! ## What was erased has its account pending -/

/-- The balance, the nonce and the code of every erased account are pending. -/
structure Covered (o : Overlay) : Prop where
  balance : ∀ a ∈ o.destroyed, a ∈ o.balances
  nonce : ∀ a ∈ o.destroyed, a ∈ o.nonces
  code : ∀ a ∈ o.destroyed, a ∈ o.codes

namespace Covered

theorem empty : (∅ : Overlay).Covered where
  balance _ ha := absurd ha Std.ExtTreeSet.not_mem_empty
  nonce _ ha := absurd ha Std.ExtTreeSet.not_mem_empty
  code _ ha := absurd ha Std.ExtTreeSet.not_mem_empty

theorem setBalance (h : o.Covered) (a : Address) (value : Word) : (o.setBalance a value).Covered where
  balance b hb := Std.ExtTreeMap.mem_insert.mpr (.inr (h.balance b hb))
  nonce := h.nonce
  code := h.code

theorem setNonce (h : o.Covered) (a : Address) (value : UInt64) : (o.setNonce a value).Covered where
  balance := h.balance
  nonce b hb := Std.ExtTreeMap.mem_insert.mpr (.inr (h.nonce b hb))
  code := h.code

theorem setCode (h : o.Covered) (a : Address) (value : Code) : (o.setCode a value).Covered where
  balance := h.balance
  nonce := h.nonce
  code b hb := Std.ExtTreeMap.mem_insert.mpr (.inr (h.code b hb))

theorem setStorage (h : o.Covered) (a : Address) (k : Key) (value : Word) :
    (o.setStorage a k value).Covered := ⟨h.balance, h.nonce, h.code⟩

theorem setTransient (h : o.Covered) (a : Address) (k : Key) (value : Word) :
    (o.setTransient a k value).Covered := ⟨h.balance, h.nonce, h.code⟩

/-- What is erased now is written now; what was erased before was written before. -/
theorem destroy (h : o.Covered) (a : Address) : (o.destroy a).Covered where
  balance b hb := Std.ExtTreeMap.mem_insert.mpr
    ((Std.ExtTreeSet.mem_insert.mp hb).imp id (h.balance b))
  nonce b hb := Std.ExtTreeMap.mem_insert.mpr
    ((Std.ExtTreeSet.mem_insert.mp hb).imp id (h.nonce b))
  code b hb := Std.ExtTreeMap.mem_insert.mpr
    ((Std.ExtTreeSet.mem_insert.mp hb).imp id (h.code b))

end Covered
end Overlay

namespace Txn

theorem covered_of_transfer? {σ : Type} [Source σ] {t t' : Txn σ} {sender recipient : Address}
    {value : Word} (ht : t.transfer? sender recipient value = .ok (some t'))
    (h : t.pending.Covered) : t'.pending.Covered := by
  cases transferred_of_transfer? ht with
  | idle _ => exact h
  | moved => exact (h.setBalance _ _).setBalance _ _

namespace Session

variable {σ : Type} [Source σ]

/-- The invariant of a session: it holds of the pending writes and of every snapshot. -/
structure Covered (s : Session σ) : Prop where
  pending : s.txn.pending.Covered
  snapshots : ∀ o ∈ s.snapshots, o.Covered

theorem covered_step {s : Session σ} (h : s.Covered) (request : Request) :
    (s.step request).Covered := by
  cases request with
  | setBalance a value => exact ⟨h.pending.setBalance a value, h.snapshots⟩
  | setNonce a value => exact ⟨h.pending.setNonce a value, h.snapshots⟩
  | setCode a value => exact ⟨h.pending.setCode a value, h.snapshots⟩
  | setStorage a k value => exact ⟨h.pending.setStorage a k value, h.snapshots⟩
  | setTransient a k value => exact ⟨h.pending.setTransient a k value, h.snapshots⟩
  | destroy a => exact ⟨h.pending.destroy a, h.snapshots⟩
  | transfer sender recipient value =>
    rw [step]
    cases ht : s.txn.transfer? sender recipient value with
    | error fault => exact ⟨h.pending, h.snapshots⟩
    | ok moved =>
      cases moved with
      | none => exact ⟨h.pending, h.snapshots⟩
      | some moved => exact ⟨covered_of_transfer? ht h.pending, h.snapshots⟩
  | snapshot =>
    refine ⟨h.pending, fun o ho => ?_⟩
    rcases List.mem_append.mp ho with ho | ho
    · exact h.snapshots o ho
    · rw [List.mem_singleton.mp ho]
      exact h.pending
  | rollbackTo place =>
    rw [step]
    cases hplace : s.snapshots[place]? with
    | none => exact h
    | some o => exact ⟨h.snapshots o (List.mem_of_getElem? hplace), h.snapshots⟩
  | rollback => exact ⟨.empty, h.snapshots⟩

theorem covered_run (base : σ) (requests : List Request) : ((start base).run requests).Covered := by
  have hstart : (start base).Covered := ⟨.empty, fun _ ho => absurd ho List.not_mem_nil⟩
  have hrun : ∀ (requests : List Request) (s : Session σ), s.Covered → (s.run requests).Covered := by
    intro requests
    induction requests with
    | nil => exact fun _ hs => hs
    | cons request requests ih => exact fun s hs => ih _ (covered_step hs request)
  exact hrun requests (start base) hstart

end Session
end Txn

/-! ## Committing to a table -/

/-- Two sources that answer alike. -/
structure Source.Alike {σ τ : Type} [Source σ] [Source τ] (s : σ) (t : τ) : Prop where
  balance (a : Address) : Source.balance s a = Source.balance t a
  nonce (a : Address) : Source.nonce s a = Source.nonce t a
  code (a : Address) : Source.code s a = Source.code t a
  storage (a : Address) (k : Key) : Source.storage s a k = Source.storage t a k

/-- A field of an account after a batch is the pending one, or else the one it had. What erasing
leaves of it does not show, since the field of an erased account is pending. -/
theorem Overlay.field_foldl_apply {o : Overlay} {batch : List Update} {β : Type}
    {field : Account → β} {a : Address} {written : Update → Option β} {left : β}
    {pending : Option β}
    (hlast : (batch.filterMap written).getLast? =
      pending.or (if o.destroyed.contains a then some left else none))
    (hcovered : a ∈ o.destroyed → pending.isSome = true)
    (happly : ∀ (t : Table) (u : Update),
      field ((t.apply u).account a) = (written u).getD (field (t.account a))) (t : Table) :
    field ((batch.foldl Table.apply t).account a) = pending.getD (field (t.account a)) := by
  rw [Table.read_foldl_apply (fun t => field (t.account a)) written happly, hlast]
  cases pending with
  | some value => rfl
  | none =>
    have hkept : ¬ o.destroyed.contains a = true := fun h => nomatch hcovered h
    rw [if_neg hkept]
    rfl

namespace Txn

theorem balance_eq (t : Txn Table) (a : Address) :
    t.balance a = .ok (t.pending.balances[a]?.getD (t.base.account a).balance) := by
  unfold balance
  cases t.pending.balances[a]? <;> rfl

theorem nonce_eq (t : Txn Table) (a : Address) :
    t.nonce a = .ok (t.pending.nonces[a]?.getD (t.base.account a).nonce) := by
  unfold nonce
  cases t.pending.nonces[a]? <;> rfl

theorem code_eq (t : Txn Table) (a : Address) :
    t.code a = .ok (t.pending.codes[a]?.getD (t.base.account a).code) := by
  unfold code
  cases t.pending.codes[a]? <;> rfl

/-- After a batch the table alone answers as the transaction did on top of it. -/
theorem alike_of_batch (t : Txn Table) {batch : List Update} (hcovered : t.pending.Covered)
    (hbatch : t.pending.Batch batch) : Source.Alike (batch.foldl Table.apply t.base) t where
  balance a := by
    have hread := Overlay.field_foldl_apply (hbatch.balance? a)
      (fun h => Std.ExtTreeMap.mem_iff_isSome_getElem?.mp (hcovered.balance a h))
      (fun t u => t.balance_apply u a) t.base
    exact (congrArg Except.ok hread).trans (t.balance_eq a).symm
  nonce a := by
    have hread := Overlay.field_foldl_apply (hbatch.nonce? a)
      (fun h => Std.ExtTreeMap.mem_iff_isSome_getElem?.mp (hcovered.nonce a h))
      (fun t u => t.nonce_apply u a) t.base
    exact (congrArg Except.ok hread).trans (t.nonce_eq a).symm
  code a := by
    have hread := Overlay.field_foldl_apply (hbatch.code? a)
      (fun h => Std.ExtTreeMap.mem_iff_isSome_getElem?.mp (hcovered.code a h))
      (fun t u => t.code_apply u a) t.base
    exact (congrArg Except.ok hread).trans (t.code_eq a).symm
  storage a k := by
    have hread := Table.read_foldl_apply (fun t => t.slot a k) (Update.slot? a k)
      (fun t u => t.slot_apply u a k) batch t.base
    rw [hbatch.slot?] at hread
    refine (congrArg Except.ok hread).trans ?_
    change _ = t.storage a k
    -- both sides show the pending value, or else zero in an erased account, or else what was below
    unfold storage
    cases t.pending.storage? a k with
    | some value => rfl
    | none => cases t.pending.destroyed.contains a <;> rfl

/-- What a commit leaves of a transaction: the table alone answers as the transaction did before, and so
does the transaction, which has nothing pending and no transient storage any more. Committing once more
changes nothing. -/
structure Durable (t t' : Txn Table) : Prop where
  table : Source.Alike t'.base t
  reads : Source.Alike t' t
  pending : t'.pending = ∅
  transient (a : Address) (k : Key) : t'.transient a k = 0
  again : t'.commit = .ok t'
  again_batch (batch : List Update) : t'.pending.Batch batch → t'.commitBatch batch = .ok t'

/-- A batch of the pending writes is taken, in whatever order it lists them. -/
theorem durable_of_batch (t : Txn Table) {batch : List Update} (hcovered : t.pending.Covered)
    (hbatch : t.pending.Batch batch) : ∃ t', t.commitBatch batch = .ok t' ∧ t.Durable t' := by
  have htable := t.alike_of_batch hcovered hbatch
  let t' : Txn Table := ⟨batch.foldl Table.apply t.base, ∅⟩
  have hagain : ∀ again, t'.pending.Batch again → t'.commitBatch again = .ok t' := by
    intro again h
    rw [h.eq_nil]
    rfl
  exact ⟨t', rfl,
    { table := htable
      reads := ⟨htable.balance, htable.nonce, htable.code, htable.storage⟩
      pending := rfl
      transient := fun _ _ => rfl
      again := hagain _ t'.pending.batch_updates
      again_batch := hagain }⟩

end Txn

/-- A transaction used in any way and committed to a table: the commit succeeds and is durable, as is
that of any other batch which lists the pending writes in some order, erasures first. The commit itself
hands over one such batch. -/
theorem commit_durable (base : Table) (requests : List Txn.Request) (batch : List Update)
    (hbatch : ((Txn.Session.start base).run requests).txn.pending.Batch batch) :
    let t := ((Txn.Session.start base).run requests).txn
    (∃ t', t.commit = .ok t' ∧ t.Durable t') ∧
    (∃ t', t.commitBatch batch = .ok t' ∧ t.Durable t') ∧
    t.commit = t.commitBatch t.pending.updates ∧ t.pending.Batch t.pending.updates := by
  intro t
  have hcovered : t.pending.Covered := (Txn.Session.covered_run base requests).pending
  have hupdates : t.pending.Batch t.pending.updates := t.pending.batch_updates
  exact ⟨t.durable_of_batch hcovered hupdates, t.durable_of_batch hcovered hbatch, rfl, hupdates⟩

/-- An account that was erased, and then funded and given a slot that is zero, keeps its funds and
none of the slots it had; so it is with the batch of the commit and with another order. -/
theorem commit_durable_erased :
    let base := Sample.funded.insertSlot Sample.alice (.ofNat 1) 7
    let requests : List Txn.Request :=
      [.setStorage Sample.alice (.ofNat 1) 8, .destroy Sample.alice, .setBalance Sample.alice 3,
        .setStorage Sample.alice (.ofNat 2) 0]
    let t := ((Txn.Session.start base).run requests).txn
    let batch := t.pending.erasures ++ t.pending.balanceWrites.reverse ++
      t.pending.nonceWrites ++ t.pending.codeWrites ++ t.pending.slotWrites.reverse
    let answers (table : Table) := (Source.balance table Sample.alice,
      Source.nonce table Sample.alice, Source.storage table Sample.alice (.ofNat 1))
    t.pending.Batch batch ∧
      (∃ t', t.commit = .ok t' ∧ t'.commit = .ok t' ∧ answers t'.base = (.ok 3, .ok 0, .ok 0)) ∧
      ∃ t', t.commitBatch batch = .ok t' ∧ answers t'.base = (.ok 3, .ok 0, .ok 0) := by
  intro base requests t batch answers
  have hbatch : t.pending.Batch batch := Overlay.batch_of_perm (.refl _) (List.reverse_perm _)
    (.refl _) (.refl _) (List.reverse_perm _)
  have hanswers : ∀ t' : Txn Table, t.Durable t' → answers t'.base = (.ok 3, .ok 0, .ok 0) := by
    intro t' h
    simp only [answers, h.table.balance, h.table.nonce, h.table.storage]
    rfl
  obtain ⟨⟨t', hcommit, hdurable⟩, ⟨other, hother, hotherDurable⟩, -⟩ :=
    commit_durable base requests batch hbatch
  exact ⟨hbatch, ⟨t', hcommit, hdurable.again, hanswers t' hdurable⟩,
    ⟨other, hother, hanswers other hotherDurable⟩⟩

end MutationGuard
