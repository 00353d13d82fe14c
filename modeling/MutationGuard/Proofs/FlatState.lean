import Mathlib.Algebra.Group.Nat.Defs
import MutationGuard.Proofs.Session

/-!
A transaction answers like a state that is kept in full. Such a state has the answer to every read
written down: a write replaces answers, a copy is a copy of all of them, and going back puts the copy
in place of them all. A transaction keeps only what was written and asks its source for the rest, and
nobody who uses it can tell the difference (`reads_eq_flat`).
-/

namespace MutationGuard

/-- Account state and transient storage in full. Where the source below cannot answer a read, its
fault is the answer. -/
@[ext]
structure FlatState where
  balance : Address → Except Fault Word
  nonce : Address → Except Fault UInt64
  code : Address → Except Fault Code
  storage : Address → Key → Except Fault Word
  transient : Address → Key → Word

namespace FlatState

/-- What a source answers, with no transient storage in use. -/
def ofSource {σ : Type} [Source σ] (base : σ) : FlatState where
  balance := Source.balance base
  nonce := Source.nonce base
  code := Source.code base
  storage := Source.storage base
  transient _ _ := 0

def setBalance (w : FlatState) (a : Address) (value : Word) : FlatState :=
  { w with balance := fun b => if a = b then .ok value else w.balance b }

def setNonce (w : FlatState) (a : Address) (value : UInt64) : FlatState :=
  { w with nonce := fun b => if a = b then .ok value else w.nonce b }

def setCode (w : FlatState) (a : Address) (value : Code) : FlatState :=
  { w with code := fun b => if a = b then .ok value else w.code b }

def setStorage (w : FlatState) (a : Address) (k : Key) (value : Word) : FlatState :=
  { w with storage := fun b l => if a = b ∧ k = l then .ok value else w.storage b l }

def setTransient (w : FlatState) (a : Address) (k : Key) (value : Word) : FlatState :=
  { w with transient := fun b l => if a = b ∧ k = l then value else w.transient b l }

/-- Nothing is left at the address but its transient storage. -/
def destroy (w : FlatState) (a : Address) : FlatState where
  balance b := if a = b then .ok 0 else w.balance b
  nonce b := if a = b then .ok 0 else w.nonce b
  code b := if a = b then .ok [] else w.code b
  storage b k := if a = b then .ok 0 else w.storage b k
  transient := w.transient

/-- Moves value, counted without bound: the sender has so much less and the recipient so much more.
It is refused if the sender has too little or the recipient would have more than a word can hold. -/
def transfer? (w : FlatState) (sender recipient : Address) (value : Word) :
    Except Fault (Option FlatState) := do
  let had ← w.balance sender
  if had.toNat < value.toNat then return none
  if sender = recipient ∨ value = 0 then return some w
  let held ← w.balance recipient
  if 2 ^ 256 ≤ held.toNat + value.toNat then return none
  let left := BitVec.ofNat 256 (had.toNat - value.toNat)
  let now := BitVec.ofNat 256 (held.toNat + value.toNat)
  return some ((w.setBalance sender left).setBalance recipient now)

end FlatState

/-! ## A transaction seen in full -/

namespace Word

theorem sub?_eq (a b : Word) :
    a.sub? b = if a.toNat < b.toNat then none else some (BitVec.ofNat 256 (a.toNat - b.toNat)) := by
  unfold sub?
  by_cases h : b.toNat ≤ a.toNat
  · have hsub : (a - b).toNat = a.toNat - b.toNat := BitVec.toNat_sub_of_le h
    rw [if_pos h, if_neg (by omega), ← hsub, BitVec.ofNat_toNat, BitVec.setWidth_eq]
  · rw [if_neg h, if_pos (by omega)]

theorem add?_eq (a b : Word) :
    a.add? b =
      if 2 ^ 256 ≤ a.toNat + b.toNat then none else some (BitVec.ofNat 256 (a.toNat + b.toNat)) := by
  unfold add?
  rw [BitVec.ofNat_add, BitVec.ofNat_toNat, BitVec.ofNat_toNat, BitVec.setWidth_eq,
    BitVec.setWidth_eq]
  by_cases h : 2 ^ 256 ≤ a.toNat + b.toNat
  · have hover : a.uaddOverflow b = true := decide_eq_true h
    rw [if_pos h, if_pos hover]
  · have hfits : ¬ a.uaddOverflow b = true := fun hover => h (of_decide_eq_true hover)
    rw [if_neg h, if_neg hfits]

end Word

namespace Txn

variable {σ : Type} [Source σ]

/-- Everything that a transaction answers. -/
def flat (t : Txn σ) : FlatState where
  balance := t.balance
  nonce := t.nonce
  code := t.code
  storage := t.storage
  transient := t.transient

/-- Without writes a transaction answers what its source answers. -/
theorem flat_rollback (t : Txn σ) : t.rollback.flat = .ofSource t.base := by
  have hbalances : t.rollback.pending.balances = ∅ := rfl
  have hnonces : t.rollback.pending.nonces = ∅ := rfl
  have hcodes : t.rollback.pending.codes = ∅ := rfl
  have hstorage : t.rollback.pending.storage = ∅ := rfl
  have hdestroyed : t.rollback.pending.destroyed = ∅ := rfl
  have htransient : t.rollback.pending.transient = ∅ := rfl
  have hbase : t.rollback.base = t.base := rfl
  refine FlatState.ext ?_ ?_ ?_ ?_ ?_
  · funext a
    simp [flat, FlatState.ofSource, balance, hbalances, hbase]
  · funext a
    simp [flat, FlatState.ofSource, nonce, hnonces, hbase]
  · funext a
    simp [flat, FlatState.ofSource, code, hcodes, hbase]
  · funext a k
    simp [flat, FlatState.ofSource, storage, Overlay.storage?, hstorage, hdestroyed, hbase]
  · funext a k
    simp [flat, FlatState.ofSource, transient, Overlay.transientSlot, htransient]

theorem flat_setBalance (t : Txn σ) (a : Address) (value : Word) :
    (t.setBalance a value).flat = t.flat.setBalance a value :=
  FlatState.ext (funext fun b => balance_setBalance t a b value) rfl rfl rfl rfl

theorem flat_setNonce (t : Txn σ) (a : Address) (value : UInt64) :
    (t.setNonce a value).flat = t.flat.setNonce a value :=
  FlatState.ext rfl (funext fun b => nonce_setNonce t a b value) rfl rfl rfl

theorem flat_setCode (t : Txn σ) (a : Address) (value : Code) :
    (t.setCode a value).flat = t.flat.setCode a value :=
  FlatState.ext rfl rfl (funext fun b => code_setCode t a b value) rfl rfl

theorem flat_setStorage (t : Txn σ) (a : Address) (k : Key) (value : Word) :
    (t.setStorage a k value).flat = t.flat.setStorage a k value :=
  FlatState.ext rfl rfl rfl (funext fun b => funext fun l => storage_setStorage t a b k l value) rfl

theorem flat_setTransient (t : Txn σ) (a : Address) (k : Key) (value : Word) :
    (t.setTransient a k value).flat = t.flat.setTransient a k value :=
  FlatState.ext rfl rfl rfl rfl (funext fun b => funext fun l => transient_setTransient t a b k l value)

theorem flat_destroy (t : Txn σ) (a : Address) : (t.destroy a).flat = t.flat.destroy a :=
  FlatState.ext (funext fun b => balance_destroy t a b) (funext fun b => nonce_destroy t a b)
    (funext fun b => code_destroy t a b) (funext fun b => funext fun k => storage_destroy t a b k) rfl

/-- A transfer is made, refused or fails just as it would be in full. -/
theorem flat_transfer? (t : Txn σ) (sender recipient : Address) (value : Word) :
    t.flat.transfer? sender recipient value =
      (t.transfer? sender recipient value).map (Option.map flat) := by
  have hbalance : t.flat.balance = t.balance := rfl
  unfold FlatState.transfer? transfer?
  rw [hbalance]
  cases t.balance sender with
  | error fault => rfl
  | ok had =>
    simp only [bind, Except.bind, Word.sub?_eq]
    by_cases hcover : had.toNat < value.toNat
    · rw [if_pos hcover, if_pos hcover]
      rfl
    rw [if_neg hcover, if_neg hcover]
    by_cases hidle : sender = recipient ∨ value = 0
    · simp only [if_pos hidle]
      rfl
    simp only [if_neg hidle]
    cases t.balance recipient with
    | error fault => rfl
    | ok held =>
      simp only [pure, Except.pure, Word.add?_eq]
      by_cases hroom : 2 ^ 256 ≤ held.toNat + value.toNat
      · simp only [if_pos hroom]
        rfl
      simp only [if_neg hroom, Except.map, Option.map_some, flat_setBalance]

end Txn

/-! ## Sessions -/

namespace FlatState

/-- A state kept in full, in use like a transaction. -/
structure Session where
  /-- What rolling back restores. -/
  origin : FlatState
  state : FlatState
  /-- The copies made, first to last. -/
  copies : List FlatState := []
  /-- Whether each transfer asked for was made, or how it failed, first to last. -/
  transfers : List (Except Fault Bool) := []

namespace Session

/-- A state that nothing was asked of yet. -/
def start (origin : FlatState) : Session := { origin := origin, state := origin }

/-- The session after one request. A snapshot copies the whole state, and going back to it puts the
copy in place of the whole state. -/
def step (s : Session) : Txn.Request → Session
  | .setBalance a value => { s with state := s.state.setBalance a value }
  | .setNonce a value => { s with state := s.state.setNonce a value }
  | .setCode a value => { s with state := s.state.setCode a value }
  | .setStorage a k value => { s with state := s.state.setStorage a k value }
  | .setTransient a k value => { s with state := s.state.setTransient a k value }
  | .destroy a => { s with state := s.state.destroy a }
  | .transfer sender recipient value =>
    match s.state.transfer? sender recipient value with
    | .ok (some moved) => { s with state := moved, transfers := s.transfers ++ [.ok true] }
    | .ok none => { s with transfers := s.transfers ++ [.ok false] }
    | .error fault => { s with transfers := s.transfers ++ [.error fault] }
  | .snapshot => { s with copies := s.copies ++ [s.state] }
  | .rollbackTo place =>
    match s.copies[place]? with
    | some copy => { s with state := copy }
    | none => s
  | .rollback => { s with state := s.origin }

/-- The session after requests, made in order. -/
def run (s : Session) (requests : List Txn.Request) : Session := requests.foldl step s

end Session
end FlatState

namespace Txn.Session

variable {σ : Type} [Source σ]

/-- A session seen in full. A snapshot holds writes only, and shows what these make of the source. -/
def flat (s : Session σ) : FlatState.Session where
  origin := .ofSource s.txn.base
  state := s.txn.flat
  copies := s.snapshots.map fun snapshot => (s.txn.rollbackTo snapshot).flat
  transfers := s.transfers

theorem flat_start (base : σ) : (start base).flat = .start (.ofSource base) := by
  have hstate : (start base).txn.flat = .ofSource base := (start base).txn.flat_rollback
  unfold flat
  rw [hstate]
  rfl

/-- A write to the transaction replaces the state seen in full, and nothing else. -/
theorem flat_write (s : Session σ) {t : Txn σ} {w : FlatState} (hbase : t.base = s.txn.base)
    (hstate : t.flat = w) : ({ s with txn := t } : Session σ).flat = { s.flat with state := w } := by
  have hcopies : ∀ snapshot, t.rollbackTo snapshot = s.txn.rollbackTo snapshot := by
    intro snapshot
    unfold Txn.rollbackTo
    rw [hbase]
  simp only [flat, hbase, hstate, hcopies]

/-- Each request does to a session seen in full what it does to a state kept in full. -/
theorem flat_step (s : Session σ) (request : Request) :
    (s.step request).flat = s.flat.step request := by
  cases request with
  | setBalance a value => exact s.flat_write rfl (s.txn.flat_setBalance a value)
  | setNonce a value => exact s.flat_write rfl (s.txn.flat_setNonce a value)
  | setCode a value => exact s.flat_write rfl (s.txn.flat_setCode a value)
  | setStorage a k value => exact s.flat_write rfl (s.txn.flat_setStorage a k value)
  | setTransient a k value => exact s.flat_write rfl (s.txn.flat_setTransient a k value)
  | destroy a => exact s.flat_write rfl (s.txn.flat_destroy a)
  | transfer sender recipient value =>
    have htransfer : s.flat.state.transfer? sender recipient value =
        (s.txn.transfer? sender recipient value).map (Option.map Txn.flat) :=
      s.txn.flat_transfer? sender recipient value
    rw [step, FlatState.Session.step, htransfer]
    cases h : s.txn.transfer? sender recipient value with
    | error fault => rfl
    | ok moved =>
      cases moved with
      | none => rfl
      | some moved =>
        have hmoved := s.flat_write (Txn.base_of_transfer? h) (Eq.refl moved.flat)
        exact congrArg (fun w => { w with transfers := s.transfers ++ [Except.ok true] }) hmoved
  | snapshot => exact congrArg (FlatState.Session.mk _ _ · _) List.map_append
  | rollbackTo place =>
    have hcopy : s.flat.copies[place]? =
        s.snapshots[place]?.map fun snapshot => (s.txn.rollbackTo snapshot).flat :=
      List.getElem?_map
    rw [step, FlatState.Session.step, hcopy]
    cases s.snapshots[place]? with
    | none => rfl
    | some snapshot => exact s.flat_write rfl rfl
  | rollback => exact s.flat_write rfl s.txn.flat_rollback

theorem flat_run (s : Session σ) (requests : List Request) :
    (s.run requests).flat = s.flat.run requests :=
  (List.foldl_hom flat fun s request => (flat_step s request).symm).symm

end Txn.Session

/-- After any requests a transaction answers every read as a state does that is kept in full, and it
has made, refused or failed the same transfers. -/
theorem reads_eq_flat {σ : Type} [Source σ] (base : σ) (requests : List Txn.Request) :
    let s := (Txn.Session.start base).run requests
    let w := (FlatState.Session.start (.ofSource base)).run requests
    (∀ a, s.txn.balance a = w.state.balance a) ∧ (∀ a, s.txn.nonce a = w.state.nonce a) ∧
      (∀ a, s.txn.code a = w.state.code a) ∧ (∀ a k, s.txn.storage a k = w.state.storage a k) ∧
      (∀ a k, s.txn.transient a k = w.state.transient a k) ∧ s.transfers = w.transfers := by
  intro s w
  have hflat : s.flat = w := by rw [Txn.Session.flat_run, Txn.Session.flat_start]
  rw [← hflat]
  exact ⟨fun _ => rfl, fun _ => rfl, fun _ => rfl, fun _ _ => rfl, fun _ _ => rfl, rfl⟩

end MutationGuard
