import MutationGuard.Proofs.FailedCalls
import MutationGuard.Proofs.Layout

/-!
The program that returns given bytes, and the accounts that are made with it. The bytes are laid out word by
word and the range of the bytes is returned, without the zeroes that fill up the last word; with too little
gas the program is halted, and nothing in between happens (`Frame.run_deploy_of_le`,
`Frame.run_deploy_of_lt`). A creation runs no code but its init code (`create_only`), so an account that is
made with the program has just the bytes for code. Main statement: `deploy_exact`.
-/

namespace MutationGuard

variable {σ : Type}

namespace Fragment

/-- The operations of the program that returns the bytes. -/
def deployOps (code : Code) : List Op := storeBytes 0 code ++ [number 0, number code.length, .ret]

/-- What it costs to return bytes: the operations, and the memory that holds them. -/
def deployCost (prices : Pricing) (code : Code) : Nat :=
  ((deployOps code).map prices.opCost).sum + prices.schedule.memoryCost ((code.length + 31) / 32)

theorem deploy_eq (code : Code) : deploy code = Op.encodeAll (deployOps code) := rfl

theorem deployOps_eq (code : Code) :
    deployOps code = (storeBytes 0 code ++ [number 0, number code.length]) ++ [.ret] := by
  rw [List.append_assoc]
  rfl

theorem deployCost_eq (prices : Pricing) (code : Code) :
    deployCost prices code = presentCost prices code + prices.opCost .ret := by
  rw [deployCost, presentCost, deployOps_eq, List.map_append, List.sum_append]
  simp only [List.map_cons, List.map_nil, List.sum_cons, List.sum_nil]
  omega

end Fragment

/-! ## Returning the bytes -/

section Returning

variable {prices : Pricing} {r s : Activation σ} {code : Code}

/-- A frame that presents bytes and takes them. -/
theorem Exec.popRange_of_presenting (prices : Pricing) (hsize : code.length ≤ Memory.sizeLimit)
    (hstack : r.stack.words = [BitVec.ofNat 256 code.length, 0])
    (hmemory : r.memory = Fragment.laidOut code) (hgas : r.gas.Sound) :
    popRange prices r = .ok code { r with stack := {} } := by
  have hlength : (BitVec.ofNat 256 code.length).toNat = code.length := Fragment.toNat_number hsize
  have hmax : Memory.sizeLimit ≤ counterMax := by decide
  have hrequired : r.memory.wordsRequired 0 code.length = .ok r.memory.words := by
    rw [hmemory]
    exact Fragment.wordsRequired_laidOut hsize
  have hcharge : r.gas.charge (r.growthCost prices r.memory.words) = .ok r.gas := by
    rw [Activation.growthCost, Nat.sub_self]
    exact GasMeter.charge_eq_ok_iff.mpr ⟨hgas, rfl⟩
  have hexpand : expand prices 0 code.length { r with stack := {} } = .ok () { r with stack := {} } := by
    refine expand_eq_ok_iff.mpr ⟨_, _, hrequired, hcharge, ?_⟩
    rw [Memory.growTo_words]
  have hslice := slice_eq 0 code.length { r with stack := {} }
  dsimp only at hslice
  rw [hmemory, Fragment.slice_laidOut] at hslice
  unfold popRange
  rw [bind_of_ok (pop2_of_words hstack)]
  dsimp only
  rw [bind_of_ok (counter_of_le (Nat.zero_le _)), bind_of_ok (counter_of_le (by rw [hlength]; omega)), hlength]
  exact (bind_of_ok hexpand).trans (hmemory ▸ hslice)

theorem Exec.perform_ret [Source σ] {run : Runner σ} {bytes : Bytes} (h : popRange prices r = .ok bytes s) :
    perform prices run .ret r = .ok (.exit .success bytes) s := by
  rw [perform, map_eq_pure_bind, bind_of_ok h]
  rfl

/-- The program returns the bytes if there is the gas for it, and is halted if there is not. -/
theorem Frame.run_deploy [Source σ] (prices : Pricing) (budget : Nat) (f : Frame) (gasLimit : Nat)
    (t : Txn σ) (hsize : code.length ≤ Memory.sizeLimit) :
    f.run prices ((Fragment.storeBytes 0 code).length + 2 + (budget + 1)) (Fragment.deploy code) gasLimit t =
      if Fragment.deployCost prices code ≤ gasLimit then
        .ok ⟨.success, gasLimit - Fragment.deployCost prices code, code⟩ t
      else .ok ⟨.halted, 0, []⟩ t := by
  let presented := Activation.presenting prices f (Fragment.deploy code) gasLimit t code
  have hhas : (Listing.ofCode (Fragment.deploy code)).Has 0
      ((Fragment.storeBytes 0 code ++ [Fragment.number 0, Fragment.number code.length]) ++ [.ret]) := by
    have hops := Listing.has_ofCode (Fragment.deployOps code) []
    rwa [List.append_nil, ← Fragment.deploy_eq, Fragment.deployOps_eq] at hops
  have hpresents : Activation.Performs prices (.ofCode (Fragment.deploy code)) _
      (.start f (Fragment.deploy code) gasLimit t) presented := .present hhas.left hsize
  have hret : (Listing.ofCode (Fragment.deploy code)).at? presented.pc = some (.ok .ret) := by
    have hright := hhas.right
    rw [Nat.zero_add, List.length_append] at hright
    exact hright.head
  rw [Fragment.deployCost_eq]
  by_cases hpresented : presented.gas.Sound
  · obtain ⟨q, hq, hadvances⟩ := hpresents.paid hpresented _ (LazyBytecode.maps_ofCode _)
    obtain ⟨q', -, hstep⟩ := Activation.step_of_at? prices hret hq
    refine (hadvances.finish_eq (budget + 1)).trans ?_
    rw [Activation.finish_succ, hstep]
    by_cases hpaid : Fragment.presentCost prices code + prices.opCost .ret ≤ gasLimit
    · have hcharge : Exec.charge (prices.opCost .ret) presented =
          .ok () (presented.spending (prices.opCost .ret)) := Exec.charge_of_le hpaid
      have htake := Exec.popRange_of_presenting prices
        (r := presented.spending (prices.opCost .ret)) hsize rfl rfl hpaid
      rw [if_pos hpaid, Exec.bind_of_ok hcharge, Exec.perform_ret htake]
      rfl
    · have hcharge : Exec.charge (prices.opCost .ret) presented =
          .error (.outOfGas _) presented := Exec.charge_of_lt (Nat.not_le.mp hpaid)
      rw [if_neg hpaid, Exec.bind_of_error hcharge]
      have hnone : presented.gas.exhaust.remaining = 0 := Nat.sub_self _
      rw [← hnone]
      rfl
  · have hover : ¬ Fragment.presentCost prices code + prices.opCost .ret ≤ gasLimit := fun hle =>
      hpresented (Nat.le_trans (Nat.le_add_right _ _) hle)
    rw [if_neg hover]
    exact hpresents.unpaid (Nat.zero_le _) hpresented _ (LazyBytecode.maps_ofCode _) (budget + 1)

/-- Whatever the budget, the program that succeeds returns the bytes. -/
theorem Frame.output_of_run_deploy [Source σ] {budget gasLimit : Nat} {f : Frame} {t after : Txn σ}
    {outcome : Outcome} (hsize : code.length ≤ Memory.sizeLimit)
    (h : f.run prices budget (Fragment.deploy code) gasLimit t = .ok outcome after)
    (hs : outcome.status = .success) : outcome.output = code := by
  have hmore := Activation.finish_add_of_ok h ((Fragment.storeBytes 0 code).length + 2 + 1)
  have hall := Frame.run_deploy prices budget f gasLimit t hsize
  rw [← Nat.add_assoc _ budget 1, Nat.add_right_comm, Nat.add_comm _ budget] at hall
  have hsame := hmore.symm.trans hall
  split at hsame
  · cases hsame
    rfl
  · cases hsame
    cases hs

end Returning

/-! ## Making an account -/

/-- The runner for one code alone; any other is a dead end. -/
def Runner.only (run : Runner σ) (code : Code) : Runner σ := fun child code' gas t =>
  if code' = code then run child code' gas t else .error .outOfSteps t

theorem Runner.eq_of_only {run : Runner σ} {code code' : Code} {child : Frame} {gas : Nat} {t after : Txn σ}
    {outcome : Outcome} (h : run.only code child code' gas t = .ok outcome after) :
    code' = code ∧ run child code' gas t = .ok outcome after := by
  unfold only at h
  by_cases hcode : code' = code
  · rw [if_pos hcode] at h
    exact ⟨hcode, h⟩
  · rw [if_neg hcode] at h
    cases h

theorem Runner.Regular.only {run : Runner σ} (h : run.Regular) (code : Code) : (run.only code).Regular where
  base child code' gas t := by
    unfold Runner.only
    split
    · exact h.base child code' gas t
    · rfl
  halted hrun := h.halted (Runner.eq_of_only hrun).2

namespace Exec

variable {prices : Pricing} {run : Runner σ} {r s : Activation σ} {code : Code}

/-- A creation runs no code but the one it takes from memory. -/
theorem create_only [Source σ] (h : popRange prices r = .ok code s) :
    create prices (run.only code) r = create prices run r := by
  have hrun : ∀ child gas t, run.only code child code gas t = run child code gas t :=
    fun _ _ _ => if_pos rfl
  unfold create
  rw [bind_of_ok h, bind_of_ok h]
  simp only [enter, hrun]

/-- A range that lies in memory is taken as it is. -/
theorem eq_of_popRange_reads {offset length : Word} {rest : List Word} {bytes taken : Bytes}
    (hstack : r.stack.words = length :: offset :: rest)
    (hreads : r.memory.Reads offset.toNat length.toNat bytes) (h : popRange prices r = .ok taken s) :
    taken = bytes := by
  obtain ⟨⟨offset', length'⟩, popped, hpop, hrest⟩ := ok_of_bind h
  obtain ⟨_, _, hoffset, hlengths⟩ := ok_of_bind hrest
  obtain ⟨_, _, hlength, hgrows⟩ := ok_of_bind hlengths
  obtain ⟨_, grown, hexpand, hslice⟩ := ok_of_bind hgrows
  obtain ⟨rfl, rfl⟩ := eq_of_counter hoffset
  obtain ⟨rfl, rfl⟩ := eq_of_counter hlength
  have hoperands := hstack.symm.trans (words_of_pop2 hpop)
  simp only [List.cons.injEq] at hoperands
  obtain ⟨rfl, rfl, -⟩ := hoperands
  obtain ⟨stack, -, rfl⟩ := eq_of_onStack hpop
  have hgrown := (memory_of_expand hexpand).1
  rw [slice_eq] at hslice
  cases hbytes : grown.memory.slice offset.toNat length.toNat with
  | error e =>
    rw [hbytes] at hslice
    cases hslice
  | ok found =>
    rw [hbytes] at hslice
    cases hslice
    exact (hreads.grown hgrown).unique (Memory.reads_of_slice hbytes)

/-- The program returns just the bytes, with the gas that is left, and changes nothing, whatever the frame,
the transaction and the prices, as long as there is the gas for it. So a creation that has the program for
init code and completes has either failed, leaving the transaction as it was but for the creator's nonce, or
made an account whose code is just the bytes. -/
theorem deploy_exact [Source σ] (prices : Pricing) (code : Code) (hsize : code.length ≤ Memory.sizeLimit) :
    (∀ budget (f : Frame) gasLimit (t : Txn σ), (Fragment.deployOps code).length ≤ budget →
      Fragment.deployCost prices code ≤ gasLimit →
        f.run prices budget (Fragment.deploy code) gasLimit t =
          .ok ⟨.success, gasLimit - Fragment.deployCost prices code, code⟩ t) ∧
    ∀ budget (r s : Activation σ) pc offset length value rest, r.next? = some .create →
      r.stack.words = length :: offset :: value :: rest →
      r.memory.Reads offset.toNat length.toNat (Fragment.deploy code) →
      step prices (Frame.run prices budget) r = .ok (.next pc) s →
        ∃ nonce word, r.txn.nonce r.frame.address = .ok nonce ∧ s.stack.words = word :: rest ∧
          (word = 0 ∧ (s.txn = r.txn ∨ s.txn = Creating.bumped r.frame r.txn nonce) ∨
            word = (r.frame.address.created nonce).toWord ∧
              s.txn.code (r.frame.address.created nonce) = .ok code) := by
  constructor
  · intro budget f gasLimit t hbudget hgas
    have hlength : (Fragment.deployOps code).length = (Fragment.storeBytes 0 code).length + 2 + 1 :=
      List.length_append
    obtain ⟨left, rfl⟩ : ∃ left, budget = (Fragment.storeBytes 0 code).length + 2 + (left + 1) :=
      ⟨budget - (Fragment.deployOps code).length, by omega⟩
    rw [Frame.run_deploy prices left f gasLimit t hsize, if_pos hgas]
  · intro budget r s pc offset length value rest hop hstack hreads hstep
    obtain ⟨meter, -, hperform⟩ := ok_of_step hop hstep
    have hperform : andNext (create prices (Frame.run prices budget)) (r.paying meter) =
        .ok (.next pc) s := hperform
    obtain ⟨hcreate, -⟩ := ok_of_andNext hperform
    obtain ⟨initCode, popped, hpop, -⟩ := ok_of_bind hcreate
    obtain rfl : initCode = Fragment.deploy code :=
      eq_of_popRange_reads (r := r.paying meter) hstack hreads hpop
    rw [← create_only hpop] at hcreate
    obtain ⟨-, nonce, word, hnonce, hword, hends⟩ :=
      ok_of_create ((Frame.regular_run prices budget).only _) hcreate
    have hrest : (r.paying meter).stack.words.drop 3 = rest := congrArg (List.drop 3) hstack
    refine ⟨nonce, word, hnonce, hrest ▸ hword, ?_⟩
    generalize s.txn = left at hends
    cases hends with
    | refused => exact .inl ⟨rfl, .inl rfl⟩
    | failed => exact .inl ⟨rfl, .inr rfl⟩
    | created _ hs he =>
      refine .inr ⟨rfl, ?_⟩
      cases he with
      | ended _ hr =>
        obtain ⟨rfl, hran⟩ := Runner.eq_of_only hr
        refine (Txn.code_setCode _ _ _ _).trans ((if_pos rfl).trans ?_)
        rw [Frame.output_of_run_deploy hsize hran hs]

/-- Three bytes, returned by a frame and made into an account. -/
theorem deploy_exact_three_bytes :
    let prices := ({} : GasSchedule).pricing
    let code : Code := [0x01, 0x02, 0x03]
    let initCode := Fragment.deploy code
    let f := Sample.frame .unrestricted
    let t := Sample.withContracts []
    let r : Activation Table :=
      { Activation.start f (Op.encodeAll [.create]) 100000 t with
        stack := ⟨[BitVec.ofNat 256 initCode.length, 0, 0]⟩
        memory := ⟨(initCode ++ List.replicate (160 - initCode.length) 0).toArray⟩ }
    code.length ≤ Memory.sizeLimit ∧
      f.run prices 9 initCode 100 t = .ok ⟨.success, 100 - Fragment.deployCost prices code, code⟩ t ∧
      ∃ s nonce, step prices (Frame.run prices 9) r = .ok (.next 1) s ∧
        s.txn.code (Sample.guarded.created nonce) = .ok code := by
  intro prices code initCode f t r
  have hsize : code.length ≤ Memory.sizeLimit := by decide
  have hlength : initCode.length = 134 := by decide +kernel
  obtain ⟨hrun, hcreates⟩ := deploy_exact (σ := Table) prices code hsize
  have hcompletes : (step prices (Frame.run prices 9) r).ok?.map
      (fun x => (x.1, decide (x.2.stack.words = [0]))) = some (.next 1, false) := by decide +kernel
  obtain ⟨next, s, hs, hfound⟩ := EStateM.Result.exists_of_ok? hcompletes
  obtain ⟨rfl, hword⟩ := Prod.mk.inj hfound
  have hop : r.next? = some .create := by cbv
  have hreads : r.memory.Reads 0 initCode.length initCode := ⟨rfl, fun i hi => by
    change initCode[i]? = (initCode ++ _).toArray[0 + i]?
    rw [Nat.zero_add, List.getElem?_toArray, List.getElem?_append_left hi]⟩
  obtain ⟨nonce, word, -, hwords, hends⟩ := hcreates 9 r s 1 0 _ 0 [] hop rfl (by
    rw [hlength] at hreads ⊢
    exact hreads) hs
  obtain ⟨rfl, -⟩ | ⟨-, hcode⟩ := hends
  · exact absurd hwords (of_decide_eq_false hword)
  · exact ⟨hsize, hrun 9 f 100 t (by decide +kernel) (by decide +kernel), s, nonce, hs, hcode⟩

end Exec
end MutationGuard
