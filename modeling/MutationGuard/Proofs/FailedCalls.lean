import MutationGuard.Machine.Fragment
import MutationGuard.Proofs.Calls
import MutationGuard.Scenario.Sample

/-!
A callee that fails leaves no trace. Whatever it has written, created or destroyed before it failed, in
its own frame or below, is not there when its caller goes on; and if it was never entered, nothing was
written. The one thing that a failed creation of an account may leave is the creator's nonce, raised by
one (`Txn.OnlyNonceRaised`). Main statement: `failed_call_leaves_no_trace`.
-/

namespace MutationGuard

variable {σ : Type} [Source σ]

/-- Everything that can be read is as before, but for the nonce of an account, which is one higher. -/
structure Txn.OnlyNonceRaised (t t' : Txn σ) (a : Address) : Prop where
  raised : ∃ n, t.nonce a = .ok n ∧ t'.nonce a = .ok (n + 1) ∧ (n + 1).toNat = n.toNat + 1
  nonce (b : Address) (h : b ≠ a) : t'.nonce b = t.nonce b
  balance (b : Address) : t'.balance b = t.balance b
  code (b : Address) : t'.code b = t.code b
  storage (b : Address) (k : Key) : t'.storage b k = t.storage b k
  transient (b : Address) (k : Key) : t'.transient b k = t.transient b k

namespace Exec

/-- A nonce that can still rise rises by one when it is bumped. -/
theorem onlyNonceRaised_bumped {f : Frame} {t : Txn σ} {nonce : UInt64}
    (hnonce : t.nonce f.address = .ok nonce) (hroom : nonce.toNat ≠ counterMax) :
    t.OnlyNonceRaised (Creating.bumped f t nonce) f.address where
  raised := by
    have hlt : nonce.toNat < 2 ^ 64 := nonce.toNat_lt
    have hroom : nonce.toNat ≠ 2 ^ 64 - 1 := hroom
    have hone : (1 : UInt64).toNat = 1 := rfl
    refine ⟨nonce, hnonce, ?_, ?_⟩
    · rw [Creating.bumped, Txn.nonce_setNonce, if_pos rfl]
    · rw [UInt64.toNat_add, hone]
      omega
  nonce b h := by rw [Creating.bumped, Txn.nonce_setNonce, if_neg h.symm]
  balance _ := rfl
  code _ := rfl
  storage _ _ := rfl
  transient _ _ := rfl

end Exec

open Exec in
/-- A call that completes has taken its operands and pushes zero or one. If it pushes zero, the
transaction is what it was before the step. The creation of an account that completes has taken its
operands and pushes one word. It pushes zero where the creator's nonce cannot rise or the frame is too
deep, and then the transaction is what it was before; or it pushes zero and the creator's nonce is one
higher, and all else reads as before; or the code that makes the account has ended successfully, and the
word is the address of the account. -/
theorem failed_call_leaves_no_trace (prices : Pricing) (budget : Nat) (r s : Activation σ) (pc : Nat)
    (h : step prices (Frame.run prices budget) r = .ok (.next pc) s) :
    (∀ op, r.next? = some op → op.isCall = true →
      op.operands ≤ r.stack.words.length ∧
      ∃ word, s.stack.words = word :: r.stack.words.drop op.operands ∧ (word = 0 ∨ word = 1) ∧
        (word = 0 → s.txn = r.txn)) ∧
    (r.next? = some .create →
      Op.operands .create ≤ r.stack.words.length ∧
      ∃ nonce word, r.txn.nonce r.frame.address = .ok nonce ∧
        s.stack.words = word :: r.stack.words.drop (Op.operands .create) ∧
        let created := r.frame.address.created nonce
        let exhausted := nonce.toNat = counterMax ∨ r.frame.atMaxDepth = true
        (word = 0 ∧ exhausted ∧ s.txn = r.txn ∨
          word = 0 ∧ ¬ exhausted ∧ r.txn.OnlyNonceRaised s.txn r.frame.address ∨
          word = created.toWord ∧ ¬ exhausted ∧
            ∃ value code outcome after, outcome.status = .success ∧
              Entered (Frame.run prices budget) (r.frame.child created value false) code
                (Creating.prepare r.frame nonce value) (Creating.bumped r.frame r.txn nonce)
                (some outcome) after ∧
              s.txn = after.setCode created outcome.output)) := by
  have hrun : Runner.Regular (σ := σ) (Frame.run prices budget) := Frame.regular_run prices budget
  constructor
  · intro op hop hcall
    obtain ⟨meter, -, hperform⟩ := ok_of_step hop h
    obtain ⟨x, hx, hcases⟩ := perform_call_cases prices hcall (r.paying meter)
    rw [hx] at hperform
    obtain ⟨hdone, -⟩ := ok_of_andNext hperform
    obtain ⟨e, s', -, hfails⟩ | ⟨a, child, prepare, hprepare, hlength, hgoes⟩ := hcases
    · rw [hfails] at hdone
      cases hdone
    · rw [hgoes] at hdone
      obtain ⟨succeeded, hword, hback⟩ := ok_of_callee hrun hprepare hdone
      refine ⟨hlength, Word.ofBool succeeded, hword, ?_, fun hzero => hback ?_⟩
      · cases succeeded
        · exact .inl rfl
        · exact .inr rfl
      · cases succeeded with
        | false => rfl
        | true => exact absurd hzero (by decide)
  · intro hop
    obtain ⟨meter, -, hperform⟩ := ok_of_step hop h
    have hperform : andNext (create prices (Frame.run prices budget)) (r.paying meter) =
        .ok (.next pc) s := hperform
    obtain ⟨hdone, -⟩ := ok_of_andNext hperform
    obtain ⟨hlength, nonce, word, hnonce, hword, hends⟩ := ok_of_create hrun hdone
    refine ⟨hlength, nonce, word, hnonce, hword, ?_⟩
    generalize hleft : s.txn = left at hends
    cases hends with
    | refused hexhausted => exact .inl ⟨rfl, hexhausted, rfl⟩
    | failed hroom =>
      exact .inr (.inl ⟨rfl, hroom, onlyNonceRaised_bumped hnonce fun hmax => hroom (.inl hmax)⟩)
    | created hroom hs he => exact .inr (.inr ⟨rfl, hroom, _, _, _, _, hs, he, rfl⟩)

open Exec in
/-- Bob writes a slot and reverts when he is called. The code that is to make an account reverts, too. -/
theorem failed_call_leaves_no_trace_revert :
    let prices := ({} : GasSchedule).pricing
    let t := Sample.withContracts [(Sample.bob, Fragment.writeSlot 1 5 ++ [.revert])]
    let f := Sample.frame .unrestricted
    let calling : Activation Table :=
      { Activation.start f (Op.encodeAll [.call]) 100000 t with
        stack := ⟨[0, Sample.bob.toWord, 50000]⟩ }
    let creating : Activation Table :=
      { Activation.start f (Op.encodeAll [.create]) 100000 t with
        stack := ⟨[1, 0, 0]⟩
        memory := ⟨(Op.encodeAll [.revert] ++ List.replicate 31 0).toArray⟩ }
    (∃ s, step prices (Frame.run prices 9) calling = .ok (.next 1) s ∧
      s.stack.words = [0] ∧ s.txn = t) ∧
    ∃ s, step prices (Frame.run prices 9) creating = .ok (.next 1) s ∧
      s.stack.words = [0] ∧ t.OnlyNonceRaised s.txn Sample.guarded := by
  intro prices t f calling creating
  have hall := failed_call_leaves_no_trace (σ := Table) prices 9
  have hpushes : ∀ r : Activation Table,
      (step prices (Frame.run prices 9) r).ok?.map (fun x => (x.1, x.2.stack.words)) =
        some (.next 1, [0]) →
      ∃ s, step prices (Frame.run prices 9) r = .ok (.next 1) s ∧ s.stack.words = [0] := by
    intro r hr
    obtain ⟨next, s, hs, hfound⟩ := EStateM.Result.exists_of_ok? hr
    obtain ⟨hnext, hwords⟩ := Prod.mk.inj hfound
    exact ⟨s, hs.trans (congrArg (EStateM.Result.ok · s) hnext), hwords⟩
  obtain ⟨s, hs, hwords⟩ := hpushes calling (by decide +kernel)
  obtain ⟨s', hs', hwords'⟩ := hpushes creating (by decide +kernel)
  refine ⟨⟨s, hs, hwords, ?_⟩, s', hs', hwords', ?_⟩
  · have hop : calling.next? = some .call := by cbv
    obtain ⟨-, word, hword, -, hback⟩ := (hall calling s 1 hs).1 .call hop rfl
    rw [hwords] at hword
    exact hback (List.cons.inj hword).1.symm
  · have hop : creating.next? = some .create := by cbv
    obtain ⟨-, nonce, word, hnonce, hword, hends⟩ := (hall creating s' 1 hs').2 hop
    rw [hwords'] at hword
    obtain ⟨rfl, -⟩ := List.cons.inj hword
    have hzero : nonce = 0 := by
      have hread : (t.nonce Sample.guarded).toOption = some 0 := by decide +kernel
      have hsome : (t.nonce Sample.guarded).toOption = some nonce := congrArg Except.toOption hnonce
      exact Option.some.inj (hsome.symm.trans hread)
    obtain ⟨-, hexhausted, -⟩ | ⟨-, -, hraised⟩ | ⟨haddress, -⟩ := hends
    · subst hzero
      exact absurd hexhausted (by decide)
    · exact hraised
    · subst hzero
      exact absurd haddress (by decide +kernel)

end MutationGuard
