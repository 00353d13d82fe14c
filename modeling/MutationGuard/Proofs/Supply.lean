import Mathlib.Algebra.BigOperators.Group.Finset.Basic
import Mathlib.Data.Fintype.EquivFin
import MutationGuard.Proofs.Atomicity
import MutationGuard.Proofs.Destruction
import MutationGuard.Word.Lemmas

/-!
The value held by all accounts together. A transfer moves value, also where sender and recipient are
the same or the recipient cannot hold it; erasing an account burns what it still holds; nothing else
touches a balance. So no execution creates value, and one that destroys no account keeps it exactly
(`value_not_created`).
-/

namespace MutationGuard

variable {σ : Type} [Source σ]

instance : Fintype Address :=
  Fintype.ofEquiv (Fin (2 ^ 160))
    { toFun := fun i => ⟨BitVec.ofFin i⟩
      invFun := fun a => a.bits.toFin
      left_inv := fun _ => rfl
      right_inv := fun _ => rfl }

/-! ## Balances -/

namespace Txn

/-- The value an account holds. An account whose balance cannot be read counts as holding none. -/
def held (t : Txn σ) (a : Address) : Nat :=
  match t.balance a with
  | .ok value => value.toNat
  | .error _ => 0

/-- The value that all accounts hold together. -/
def supply (t : Txn σ) : Nat := ∑ a, t.held a

theorem held_of_balance {t : Txn σ} {a : Address} {value : Word} (h : t.balance a = .ok value) :
    t.held a = value.toNat := by
  unfold held
  rw [h]

theorem held_setBalance (t : Txn σ) (a b : Address) (value : Word) :
    (t.setBalance a value).held b = if a = b then value.toNat else t.held b := by
  unfold held
  rw [balance_setBalance]
  by_cases h : a = b
  · rw [if_pos h, if_pos h]
  · rw [if_neg h, if_neg h]

/-- Writing one balance changes the total by what is written less what was there. -/
theorem supply_setBalance (t : Txn σ) (a : Address) (value : Word) :
    (t.setBalance a value).supply + t.held a = t.supply + value.toNat := by
  have hothers : ∑ b ∈ Finset.univ.erase a, (t.setBalance a value).held b =
      ∑ b ∈ Finset.univ.erase a, t.held b := by
    refine Finset.sum_congr rfl fun b hb => ?_
    rw [held_setBalance, if_neg (Finset.ne_of_mem_erase hb).symm]
  have hnow := Finset.add_sum_erase Finset.univ (t.setBalance a value).held (Finset.mem_univ a)
  have hwas := Finset.add_sum_erase Finset.univ t.held (Finset.mem_univ a)
  rw [hothers, held_setBalance, if_pos rfl] at hnow
  unfold supply
  omega

/-- Balances that read the same add up to the same. -/
theorem supply_congr {t t' : Txn σ} (h : ∀ a, t'.balance a = t.balance a) :
    t'.supply = t.supply := by
  refine Finset.sum_congr rfl fun a _ => ?_
  unfold held
  rw [h a]

/-- A transfer keeps the total, whoever takes part in it. -/
theorem supply_of_transfer? {t t' : Txn σ} {sender recipient : Address} {value : Word}
    (h : t.transfer? sender recipient value = .ok (some t')) : t'.supply = t.supply := by
  cases transferred_of_transfer? h with
  | idle _ => rfl
  | @moved had left held now hne hs hl hr hn =>
    have hdistinct : sender ≠ recipient := fun h => hne (.inl h)
    have hpaid := supply_setBalance t sender left
    have hreceived := supply_setBalance (t.setBalance sender left) recipient now
    rw [held_of_balance hs] at hpaid
    rw [held_setBalance, if_neg hdistinct, held_of_balance hr] at hreceived
    have hleft := Word.toNat_of_sub?_eq_some hl
    have hnow := Word.toNat_of_add?_eq_some hn
    omega

theorem supply_write {t t' : Txn σ} (h : Write t t') : t'.supply = t.supply := by
  cases h with
  | storage | transient | nonce | code => exact supply_congr fun _ => rfl
  | transfer h => exact supply_of_transfer? h

/-- Erasing an account burns what it holds. -/
theorem supply_destroy_le (t : Txn σ) (a : Address) : (t.destroy a).supply ≤ t.supply := by
  have hburned := supply_setBalance t a 0
  have hsame : (t.destroy a).supply = (t.setBalance a 0).supply := supply_congr fun _ => rfl
  have hzero : (0 : Word).toNat = 0 := rfl
  omega

/-- The later transaction pends on the same source, and its accounts hold no more. -/
def NoRicher (t t' : Txn σ) : Prop := t'.base = t.base ∧ t'.supply ≤ t.supply

theorem kept_noRicher : Kept (NoRicher (σ := σ)) where
  refl _ := ⟨rfl, Nat.le_refl _⟩
  trans h h' := ⟨h'.1.trans h.1, Nat.le_trans h'.2 h.2⟩
  rollback {t t'} h := by
    rw [rollbackTo_snapshot h.1]
    exact ⟨rfl, Nat.le_refl _⟩
  write h := ⟨h.base, Nat.le_of_eq (supply_write h)⟩

theorem noRicher_destroy {t : Txn σ} {moved : Option (Txn σ)} {sender recipient : Address}
    {value : Word} (h : t.transfer? sender recipient value = .ok moved) (a : Address) :
    NoRicher t ((moved.getD t).destroy a) := by
  refine ⟨base_getD_of_transfer? h, Nat.le_trans (supply_destroy_le _ a) (Nat.le_of_eq ?_)⟩
  cases moved with
  | none => rfl
  | some t' => exact supply_of_transfer? h

/-- The accounts hold as much in the later transaction as in the earlier one. -/
def SameSupply (t t' : Txn σ) : Prop := t'.supply = t.supply

theorem SameSupply.refl (t : Txn σ) : SameSupply t t := Eq.refl t.supply

theorem SameSupply.trans {t t' t'' : Txn σ} (h : SameSupply t t') (h' : SameSupply t' t'') :
    SameSupply t t'' := Eq.trans h' h

end Txn

/-! ## Runs and transactions -/

namespace Frame

theorem run_noRicher (prices : Pricing) (budget : Nat) (f : Frame) (code : Code) (gasLimit : Nat)
    (t : Txn σ) : t.NoRicher (f.run prices budget code gasLimit t).state := by
  refine Activation.finish_preserves (G := fun _ => True) (R := Txn.NoRicher)
    Txn.kept_noRicher.refl (fun _ _ _ => Txn.kept_noRicher.trans) ?_ budget
    (.start f code gasLimit t) trivial
  intro run hrun f t f' t' _ ⟨op, heffect⟩
  refine ⟨trivial, heffect.preserves Txn.kept_noRicher (fun _ _ hm => ?_) fun _ _ _ _ _ => ?_⟩
  · exact Txn.noRicher_destroy hm _
  · exact hrun _ _ _ _ trivial

/-- A run that destroys no account keeps the value exactly. -/
theorem sameSupply_run {prices : Pricing} {budget : Nat} {f : Frame} {code : Code} {gasLimit : Nat}
    {t : Txn σ} (h : f.destroyed prices budget code gasLimit t = []) :
    t.SameSupply (f.run prices budget code gasLimit t).state := by
  have hkept : Txn.Kept (Txn.Unless (Txn.SameSupply (σ := Recorded Address σ))) :=
    Txn.kept_unless Txn.SameSupply.refl Txn.SameSupply.trans Txn.supply_write
  have hrun : Txn.Unless Txn.SameSupply t.recording
      (f.recorded Note.destroyed prices budget code gasLimit t.recording).state :=
    Activation.unless_finish Txn.SameSupply.refl Txn.SameSupply.trans
      (fun hne hrun heffect => heffect.preserves hkept (fun h => absurd h hne)
        fun child code gas t _ => hrun child code gas t)
      budget (.start f code gasLimit t.recording)
  have hsame := hrun.of_events_eq_nil h
  rw [state_run Note.destroyed]
  exact hsame

end Frame

namespace Transaction

/-- The accounts that are destroyed while a transaction is executed. -/
def destroyed (prices : Pricing) (tx : Transaction) (budget : Nat) (t : Txn σ) : List Address :=
  match t.transfer? tx.caller tx.target tx.value with
  | .ok (some paid) =>
    match paid.code tx.target with
    | .ok code => tx.frame.destroyed prices budget code tx.gasLimit paid
    | .error _ => []
  | _ => []

/-- A transaction that changes anything leaves what its frame leaves, once the value is paid. -/
theorem state_execute (prices : Pricing) (budget : Nat) (tx : Transaction) (t : Txn σ) :
    (tx.execute prices budget t).state = t ∨
      ∃ paid code, t.transfer? tx.caller tx.target tx.value = .ok (some paid) ∧
        paid.code tx.target = .ok code ∧
        (tx.execute prices budget t).state =
          (tx.frame.run prices budget code tx.gasLimit paid).state := by
  have hends := tx.ends_execute prices budget t
  generalize tx.execute prices budget t = result at hends ⊢
  cases hends with
  | failed | reverted | halted => exact .inl rfl
  | kept hpaid hcode hrun =>
    refine .inr ⟨_, _, hpaid, hcode, ?_⟩
    rw [hrun]
    rfl

end Transaction

/-- No run of a frame and no transaction creates value, however it ends; and it keeps the value
exactly unless an account is destroyed on the way. -/
theorem value_not_created (prices : Pricing) (budget : Nat) (t : Txn σ) :
    (∀ (f : Frame) (code : Code) (gasLimit : Nat),
      (f.run prices budget code gasLimit t).state.supply ≤ t.supply ∧
      (f.destroyed prices budget code gasLimit t = [] →
        (f.run prices budget code gasLimit t).state.supply = t.supply)) ∧
    ∀ tx : Transaction,
      (tx.execute prices budget t).state.supply ≤ t.supply ∧
      (tx.destroyed prices budget t = [] →
        (tx.execute prices budget t).state.supply = t.supply) := by
  refine ⟨fun f code gasLimit => ⟨?_, Frame.sameSupply_run⟩, fun tx => ?_⟩
  · exact (f.run_noRicher prices budget code gasLimit t).2
  obtain hsame | ⟨paid, code, hpaid, hcode, hrun⟩ := tx.state_execute prices budget t
  · rw [hsame]
    exact ⟨Nat.le_refl _, fun _ => Eq.refl t.supply⟩
  · rw [hrun, ← Txn.supply_of_transfer? hpaid]
    refine ⟨(tx.frame.run_noRicher prices budget code tx.gasLimit paid).2, fun hnone => ?_⟩
    refine Frame.sameSupply_run ?_
    unfold Transaction.destroyed at hnone
    rw [hpaid] at hnone
    dsimp only at hnone
    rw [hcode] at hnone
    exact hnone

/-- Alice's transaction calls the guarded contract, which pays Bob and itself. -/
theorem value_not_created_payment :
    let prices := ({} : GasSchedule).pricing
    let program := Fragment.call Sample.bob 7 0 ++ Fragment.call Sample.guarded 5 0
    let t := Sample.withContracts [(Sample.guarded, program)]
    let f := Sample.frame .unrestricted
    let tx := Sample.transaction Sample.guarded
    (f.destroyed prices 12 (Op.encodeAll program) 100000 t = [] ∧
      (f.run prices 12 (Op.encodeAll program) 100000 t).state.supply = t.supply) ∧
    (tx.destroyed prices 12 t = [] ∧ (tx.execute prices 12 t).state.supply = t.supply) := by
  intro prices program t f tx
  have hkept := value_not_created prices 12 t
  have hf : f.destroyed prices 12 (Op.encodeAll program) 100000 t = [] := by decide +kernel
  have htx : tx.destroyed prices 12 t = [] := by decide +kernel
  exact ⟨⟨hf, (hkept.1 f (Op.encodeAll program) 100000).2 hf⟩, htx, (hkept.2 tx).2 htx⟩

end MutationGuard
