import MutationGuard.Machine.Fragment
import MutationGuard.Machine.Listing
import MutationGuard.Proofs.Built
import MutationGuard.Scenario.Sample

/-!
Code is decoded as far as a run gets, and nobody who runs it can tell. The run by the listing is the
one to compare with: all of the code is listed first, each step takes the operation that the listing
has at the program counter, and frames hold no bytes. Both runs end alike, for any jumps
(`lazy_decoding_invisible`): wherever the program is asked it answers what the listing says, and an
operation does the same whatever the program is. So the bytes that a run does not get to do not count.
-/

namespace MutationGuard

variable {σ : Type} [Source σ]

/-- One operation of a listing: read off it, paid for, performed. Past the last operation the frame
halts if the listing ends with an error, and ends successfully if not. -/
def Exec.listed (prices : Pricing) (listing : Listing) (run : Runner σ) : Exec σ Step := do
  match listing.at? (← get).pc with
  | none => return .exit .success []
  | some (.error e) => throw (.bytecode e)
  | some (.ok op) =>
    charge (prices.opCost op)
    perform prices run op

namespace Activation

/-- Steps a frame under way until it ends, by a listing of its code. The frames that it calls are run
by listings of their code. -/
def finishListed (prices : Pricing) :
    Nat → Listing → Activation σ → EStateM.Result Abort (Txn σ) Outcome
  | 0, _, r => .error .outOfSteps r.txn
  | budget + 1, listing, r =>
    let run : Runner σ := fun child code gas txn =>
      finishListed prices budget (.ofCode code) (.start child [] gas txn)
    proceed (finishListed prices budget listing) (Exec.listed prices listing run r)

/-- The indices at which a frame under way reads its program, one for each of its steps. -/
def reads (prices : Pricing) : Nat → Activation σ → List Nat
  | 0, _ => []
  | budget + 1, r => r.pc ::
    match Exec.step prices (Frame.run prices budget) r with
    | .ok (.next pc) s => reads prices budget { s with pc := pc }
    | _ => []

end Activation

namespace Frame

/-- Runs the code of a frame by its listing. -/
def runListed (prices : Pricing) (budget : Nat) : Runner σ :=
  fun frame code gasLimit txn =>
    (Activation.start frame [] gasLimit txn).finishListed prices budget (.ofCode code)

/-- The indices at which a frame reads its code while it runs. -/
def reads (prices : Pricing) (budget : Nat) (f : Frame) (code : Code) (gasLimit : Nat) (t : Txn σ) :
    List Nat :=
  (Activation.start f code gasLimit t).reads prices budget

end Frame

namespace Exec

variable {prices : Pricing} {run : Runner σ} {r : Activation σ} {l : Listing}

theorem listed_eq (program : LazyBytecode) :
    listed prices l run (r.withProgram program) =
      match l.at? r.pc with
      | none => .ok (.exit .success []) (r.withProgram program)
      | some (.error e) => .error (.bytecode e) (r.withProgram program)
      | some (.ok op) =>
        (do charge (prices.opCost op); perform prices run op) (r.withProgram program) := by
  unfold listed
  rw [bind_get]
  have hpc : (r.withProgram program).pc = r.pc := rfl
  rw [hpc]
  cases l.at? r.pc with
  | none => rfl
  | some found => cases found <;> rfl

/-- A step of a program that answers what a listing says is the step by the listing; if the frame goes
on, the program still answers so. -/
theorem step_of_maps (prices : Pricing) (run : Runner σ) (h : r.program.Maps l)
    (program : LazyBytecode) :
    listed prices l run (r.withProgram program) =
        (step prices run r).mapState (·.withProgram program) ∧
      ∀ pc s, step prices run r = .ok (.next pc) s → s.program.Maps l := by
  obtain ⟨haccess, hmaps⟩ := LazyBytecode.access_of_maps h r.pc
  have hfetch := fetch_eq r
  rw [haccess] at hfetch
  rw [listed_eq]
  unfold step
  cases hat : l.at? r.pc with
  | none =>
    rw [hat] at hfetch
    rw [bind_of_ok hfetch]
    exact ⟨rfl, nofun⟩
  | some found =>
    rw [hat] at hfetch
    cases found with
    | error e =>
      rw [bind_of_error hfetch]
      exact ⟨rfl, nofun⟩
    | ok op =>
      rw [bind_of_ok hfetch]
      have hbuilt : Built prices run (do charge (prices.opCost op); perform prices run op) :=
        (Built.charge _).bind fun _ => built_perform op
      refine ⟨hbuilt.replaceProgram { r with program := (r.program.access r.pc).2 } program, ?_⟩
      intro pc s hs
      have hprogram := hbuilt.program_eq { r with program := (r.program.access r.pc).2 }
      dsimp only at hs hprogram
      rw [hs] at hprogram
      rw [show s.program = _ from hprogram]
      exact hmaps ⟨op, hat⟩

end Exec

theorem Activation.finishListed_succ (prices : Pricing) (budget : Nat) (l : Listing)
    (r : Activation σ) :
    r.finishListed prices (budget + 1) l =
      proceed (finishListed prices budget l)
        (Exec.listed prices l (Frame.runListed prices budget) r) := rfl

/-- A run of a program that answers what one listing says ends as the run by another listing, if the
two say the same wherever the run reads. -/
theorem Activation.finish_eq_finishListed (prices : Pricing) (budget : Nat) {l l' : Listing}
    (r : Activation σ) (program : LazyBytecode) (h : r.program.Maps l)
    (hreads : ∀ i ∈ r.reads prices budget, l'.at? i = l.at? i) :
    r.finish prices budget = (r.withProgram program).finishListed prices budget l' := by
  induction budget generalizing r l l' program with
  | zero => rfl
  | succ budget ih =>
    have hrun : Frame.runListed prices budget = Frame.run (σ := σ) prices budget := by
      funext child code gas txn
      exact (ih (.start child code gas txn) (.ofCode []) (LazyBytecode.maps_ofCode code)
        fun _ _ => rfl).symm
    obtain ⟨hstep, hmaps⟩ := Exec.step_of_maps prices (Frame.run prices budget) h program
    have hlisted : Exec.listed prices l' (Frame.run prices budget) (r.withProgram program) =
        (Exec.step prices (Frame.run prices budget) r).mapState (·.withProgram program) := by
      rw [← hstep, Exec.listed_eq, Exec.listed_eq, hreads r.pc List.mem_cons_self]
    rw [finish_succ, finishListed_succ, hrun, hlisted]
    cases hs : Exec.step prices (Frame.run prices budget) r with
    | error e s => cases e <;> rfl
    | ok next s =>
      cases next with
      | exit status output => rfl
      | next pc =>
        refine ih { s with pc := pc } program (hmaps pc s hs) fun i hi => hreads i ?_
        rw [reads, hs]
        exact List.mem_cons_of_mem _ hi

/-- The run of any code ends as the run by its listing: with the same outcome, or for the same cause,
and with the same state. If it reads no index past the last operation listed, any bytes may stand
after the encodings of those operations, with which the code starts. -/
theorem lazy_decoding_invisible (prices : Pricing) (budget : Nat) (f : Frame) (code : Code)
    (gasLimit : Nat) (t : Txn σ) :
    let ops := (Listing.ofCode code).ops
    f.run prices budget code gasLimit t = f.runListed prices budget code gasLimit t ∧
    Op.encodeAll ops <+: code ∧
    ((∀ i ∈ f.reads prices budget code gasLimit t, i < ops.length) → ∀ rest,
      f.run prices budget (Op.encodeAll ops ++ rest) gasLimit t =
        f.run prices budget code gasLimit t) := by
  intro ops
  have hlisted : ∀ code', f.run prices budget code' gasLimit t =
      f.runListed prices budget code' gasLimit t := fun code' =>
    Activation.finish_eq_finishListed prices budget (.start f code' gasLimit t) (.ofCode [])
      (LazyBytecode.maps_ofCode code') fun _ _ => rfl
  refine ⟨hlisted code, Listing.encodeAll_ops_prefix code, fun hreads rest => ?_⟩
  rw [hlisted]
  have hsame : ∀ i ∈ f.reads prices budget code gasLimit t,
      (Listing.ofCode (Op.encodeAll ops ++ rest)).at? i = (Listing.ofCode code).at? i := by
    intro i hi
    have hlt := hreads i hi
    rw [Listing.ofCode_encodeAll_append, Listing.at?_of_lt hlt, Listing.at?,
      List.getElem?_append_left hlt, List.getElem?_eq_getElem hlt]
  exact (Activation.finish_eq_finishListed prices budget (.start f code gasLimit t) (.ofCode [])
    (LazyBytecode.maps_ofCode code) hsame).symm

/-- A program that jumps over an operation and back to it, and then halts, in front of bytes that are
no operations. -/
theorem lazy_decoding_invisible_jumps :
    let prices := ({} : GasSchedule).pricing
    let f := Sample.frame .unrestricted
    let t := Sample.withContracts []
    let program := [Fragment.number 3, .jump, .halt, Fragment.number 2, .jump]
    let code := Op.encodeAll program ++ [0x01, 0xFF]
    (∀ i ∈ f.reads prices 9 code 1000 t, i < (Listing.ofCode code).ops.length) ∧
      f.run prices 9 (Op.encodeAll program ++ [0x02]) 1000 t = f.run prices 9 code 1000 t := by
  intro prices f t program code
  have hops : (Listing.ofCode code).ops = program := by decide +kernel
  have hreads : f.reads prices 9 code 1000 t = [0, 1, 3, 4, 2] := by decide +kernel
  have hwithin : ∀ i ∈ f.reads prices 9 code 1000 t, i < (Listing.ofCode code).ops.length := by
    rw [hops, hreads]
    decide
  obtain ⟨-, -, hrest⟩ := lazy_decoding_invisible prices 9 f code 1000 t
  rw [hops] at hrest
  exact ⟨hwithin, hrest (hops ▸ hwithin) [0x02]⟩

end MutationGuard
