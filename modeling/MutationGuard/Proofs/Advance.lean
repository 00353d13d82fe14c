import MutationGuard.Proofs.HaltReasons
import MutationGuard.Proofs.LazyDecoding

/-!
Operations in a row, none of which calls. A frame `Advances` from one state under way to another whatever
runs the frames it might call, so a run of the first goes on as a run of the second (`Advances.finish_eq`).
Where the operations stand in a listing, what they do is said once for all gas limits, with a meter that may
be overdrawn: a frame that ends up within its limit comes through (`Performs.paid`), and one that does not
has failed on the way (`Performs.unpaid`). One operation, `Performs.of_pays`; one after the other,
`Performs.trans`.
-/

namespace MutationGuard

variable {σ : Type}

/-! ## Steps that call nobody -/

section Steps

variable [Source σ]

/-- So many steps of a frame under way, none of which ends it or hangs on what runs the frames it calls. -/
inductive Activation.Advances (prices : Pricing) : Nat → Activation σ → Activation σ → Prop
  | refl (r : Activation σ) : Advances prices 0 r r
  | step {n pc : Nat} {r s u : Activation σ} (hstep : ∀ run, Exec.step prices run r = .ok (.next pc) s)
      (hrest : Advances prices n { s with pc := pc } u) : Advances prices (n + 1) r u

namespace Activation.Advances

variable {prices : Pricing} {n m : Nat} {r s u : Activation σ}

theorem trans (h : Advances prices n r s) (h' : Advances prices m s u) : Advances prices (n + m) r u := by
  induction h with
  | refl r => rwa [Nat.zero_add]
  | @step n pc r s _ hstep hrest ih =>
    rw [Nat.add_right_comm]
    exact .step hstep (ih h')

/-- A run goes on from where the frame has come to. -/
theorem finish_eq (h : Advances prices n r s) (budget : Nat) :
    r.finish prices (n + budget) = s.finish prices budget := by
  induction h with
  | refl r => rw [Nat.zero_add]
  | step hstep hrest ih => rw [Nat.add_right_comm, finish_succ, hstep, proceed, ih]

end Activation.Advances

end Steps

/-! ## Operations that are paid for -/

/-- What an operation does to a frame under way: it comes to the other state if that is within the limit,
and fails for want of gas if it is not. -/
structure Exec.Pays (x : Exec σ Step) (r s : Activation σ) : Prop where
  limit : s.gas.limit = r.gas.limit
  spent : r.gas.spent ≤ s.gas.spent
  txn : s.txn = r.txn
  paid : s.gas.Sound → x r = .ok (.next s.pc) { s with pc := r.pc }
  unpaid : r.gas.Sound → ¬ s.gas.Sound → ∃ e u, x r = .error (.outOfGas e) u ∧ u.txn = r.txn

/-- The frame under way with so much more gas spent. -/
def Activation.spending (r : Activation σ) (gas : Nat) : Activation σ :=
  { r with gas := { r.gas with spent := r.gas.spent + gas } }

/-- The frame under way once it has pushed a word. -/
def Activation.pushing (prices : Pricing) (r : Activation σ) (w : Word) : Activation σ :=
  { r.spending (prices.opCost (.push w)) with pc := r.pc + 1, stack := ⟨w :: r.stack.words⟩ }

theorem GasMeter.charge_of_lt {m : GasMeter} {gas : Nat} (h : m.limit < m.spent + gas) :
    m.charge gas = .error ⟨m.spent, m.limit, gas⟩ := if_neg (Nat.not_le.mpr h)

namespace Exec

variable {prices : Pricing} {r s : Activation σ}

theorem charge_of_le {gas : Nat} (h : r.gas.spent + gas ≤ r.gas.limit) :
    charge gas r = .ok () (r.spending gas) :=
  charge_eq_ok_iff.mpr ⟨h, rfl⟩

theorem charge_of_lt {gas : Nat} (h : r.gas.limit < r.gas.spent + gas) :
    charge gas r = .error (.outOfGas ⟨r.gas.spent, r.gas.limit, gas⟩) r := by
  rw [charge_eq, GasMeter.charge_of_lt h]

/-- What is charged first is spent first. -/
theorem Pays.of_charge {gas : Nat} {x : Exec σ Step} (h : Pays x (r.spending gas) s) :
    Pays (do charge gas; x) r s where
  limit := h.limit
  spent := Nat.le_trans (Nat.le_add_right _ gas) h.spent
  txn := h.txn
  paid hsound := by
    have hspent : r.gas.spent + gas ≤ s.gas.spent := h.spent
    have hlimit : s.gas.limit = r.gas.limit := h.limit
    have hle : r.gas.spent + gas ≤ r.gas.limit := hlimit ▸ Nat.le_trans hspent hsound
    exact (bind_of_ok (charge_of_le hle)).trans (h.paid hsound)
  unpaid _ hover := by
    rcases Nat.lt_or_ge r.gas.limit (r.gas.spent + gas) with hlt | hle
    · exact ⟨_, _, bind_of_error (charge_of_lt hlt), rfl⟩
    · obtain ⟨e, u, hx, htxn⟩ := h.unpaid hle hover
      exact ⟨e, u, (bind_of_ok (charge_of_le hle)).trans hx, htxn⟩

theorem pays_push [Source σ] {run : Runner σ} {w : Word} (hroom : r.stack.words.length < Stack.sizeLimit) :
    Pays (perform prices run (.push w)) r { r with pc := r.pc + 1, stack := ⟨w :: r.stack.words⟩ } where
  limit := rfl
  spent := Nat.le_refl _
  txn := rfl
  paid _ := push_of_room hroom
  unpaid hsound hover := absurd hsound hover

end Exec

/-! ## Operations of a listing -/

/-- The operations stand in the listing from an index on. -/
def Listing.Has (l : Listing) (i : Nat) (ops : List Op) : Prop := ops <+: l.ops.drop i

namespace Listing

variable {l : Listing} {i : Nat} {ops more : List Op} {op : Op}

theorem has_ofCode (ops : List Op) (rest : Bytes) : (ofCode (Op.encodeAll ops ++ rest)).Has 0 ops := by
  rw [ofCode_encodeAll_append]
  exact List.prefix_append _ _

theorem Has.left (h : l.Has i (ops ++ more)) : l.Has i ops := (List.prefix_append _ _).trans h

theorem Has.right (h : l.Has i (ops ++ more)) : l.Has (i + ops.length) more := by
  obtain ⟨rest, hrest⟩ := h
  refine ⟨rest, ?_⟩
  rw [← List.drop_drop, ← hrest, List.append_assoc, List.drop_left]

theorem Has.head (h : l.Has i (op :: ops)) : l.at? i = some (.ok op) := by
  obtain ⟨rest, hrest⟩ := h
  have hop : l.ops[i]? = some op := by
    rw [← Nat.add_zero i, ← List.getElem?_drop, ← hrest]
    rfl
  rw [at?, hop]

theorem Has.tail (h : l.Has i (op :: ops)) : l.Has (i + 1) ops :=
  Has.right (show l.Has i ([op] ++ ops) from h)

end Listing

section Runs

variable [Source σ]

/-- What so many operations of a listing do to a frame under way: it comes to the other state if that is
within the limit, and is halted on the way if it is not. -/
structure Activation.Performs (prices : Pricing) (l : Listing) (n : Nat) (r s : Activation σ) : Prop where
  limit : s.gas.limit = r.gas.limit
  spent : r.gas.spent ≤ s.gas.spent
  txn : s.txn = r.txn
  paid : s.gas.Sound → ∀ p : LazyBytecode, p.Maps l →
    ∃ q : LazyBytecode, q.Maps l ∧ Advances prices n (r.withProgram p) (s.withProgram q)
  unpaid : r.gas.Sound → ¬ s.gas.Sound → ∀ p : LazyBytecode, p.Maps l → ∀ budget,
    (r.withProgram p).finish prices (n + budget) = .ok ⟨.halted, 0, []⟩ r.txn

namespace Activation

variable {prices : Pricing} {l : Listing} {n m : Nat} {r s u : Activation σ}

/-- A step of a program that answers what the listing says. -/
theorem step_of_at? (prices : Pricing) {op : Op} (hat : l.at? r.pc = some (.ok op)) {p : LazyBytecode}
    (hp : p.Maps l) :
    ∃ q : LazyBytecode, q.Maps l ∧ ∀ run, Exec.step prices run (r.withProgram p) =
      ((do Exec.charge (prices.opCost op); Exec.perform prices run op) r).mapState
        fun s : Activation σ => s.withProgram q := by
  obtain ⟨haccess, hmaps⟩ := LazyBytecode.access_of_maps hp r.pc
  refine ⟨(p.access r.pc).2, hmaps ⟨op, hat⟩, fun run => ?_⟩
  have hstep := Exec.step_of_access prices run (r := r.withProgram p) (haccess.trans hat)
  have hbuilt : Exec.Built prices run (do Exec.charge (prices.opCost op); Exec.perform prices run op) :=
    (Exec.Built.charge _).bind fun _ => Exec.built_perform op
  exact hstep.trans (hbuilt.replaceProgram r (p.access r.pc).2)

/-- An operation that comes to a state is a step to it. -/
theorem advances_of_ok {op : Op} (hat : l.at? r.pc = some (.ok op))
    (h : ∀ run, (do Exec.charge (prices.opCost op); Exec.perform prices run op) r =
      .ok (.next s.pc) { s with pc := r.pc }) {p : LazyBytecode} (hp : p.Maps l) :
    ∃ q : LazyBytecode, q.Maps l ∧ Advances prices 1 (r.withProgram p) (s.withProgram q) := by
  obtain ⟨q, hq, hstep⟩ := step_of_at? prices hat hp
  have hnext : ∀ run, Exec.step prices run (r.withProgram p) =
      .ok (.next s.pc) { s.withProgram q with pc := r.pc } := by
    intro run
    rw [hstep, h]
    rfl
  exact ⟨q, hq, .step hnext (.refl _)⟩

/-- Past the last operation the frame ends successfully, if the listing has no error there. -/
theorem finish_of_end (hat : l.at? r.pc = none) {p : LazyBytecode} (hp : p.Maps l) (budget : Nat) :
    (r.withProgram p).finish prices (budget + 1) = .ok ⟨.success, r.gas.remaining, []⟩ r.txn := by
  have haccess : (p.access r.pc).1 = none := (LazyBytecode.access_of_maps hp r.pc).1.trans hat
  have hfetch := Exec.fetch_eq (r.withProgram p)
  rw [show ((r.withProgram p).program.access (r.withProgram p).pc).1 = none from haccess] at hfetch
  have hstep : Exec.step prices (Frame.run prices budget) (r.withProgram p) =
      .ok (.exit .success []) (r.withProgram (p.access r.pc).2) := Exec.bind_of_ok hfetch
  rw [finish_succ, hstep]
  rfl

namespace Performs

theorem refl (r : Activation σ) : Performs prices l 0 r r where
  limit := rfl
  spent := Nat.le_refl _
  txn := rfl
  paid _ p hp := ⟨p, hp, .refl _⟩
  unpaid hsound hover := absurd hsound hover

theorem of_pays {op : Op} (hat : l.at? r.pc = some (.ok op))
    (h : ∀ run, Exec.Pays (Exec.perform prices run op) (r.spending (prices.opCost op)) s) :
    Performs prices l 1 r s := by
  have hpays := fun run => (h run).of_charge
  have hany := hpays (Frame.run prices 0)
  refine ⟨hany.limit, hany.spent, hany.txn, fun hsound p hp => ?_, fun hsound hover p hp budget => ?_⟩
  · exact advances_of_ok hat (fun run => (hpays run).paid hsound) hp
  · obtain ⟨q, -, hstep⟩ := step_of_at? prices hat hp
    obtain ⟨e, u, hx, htxn⟩ := (hpays (Frame.run prices budget)).unpaid hsound hover
    have hnone : u.gas.exhaust.remaining = 0 := Nat.sub_self _
    rw [Nat.add_comm, finish_succ, hstep, hx, ← htxn, ← hnone]
    rfl

theorem trans (h : Performs prices l n r s) (h' : Performs prices l m s u) :
    Performs prices l (n + m) r u where
  limit := h'.limit.trans h.limit
  spent := Nat.le_trans h.spent h'.spent
  txn := h'.txn.trans h.txn
  paid hsound p hp := by
    have hmiddle : s.gas.Sound := Nat.le_trans h'.spent (h'.limit ▸ hsound)
    obtain ⟨q, hq, hfirst⟩ := h.paid hmiddle p hp
    obtain ⟨q', hq', hsecond⟩ := h'.paid hsound q hq
    exact ⟨q', hq', hfirst.trans hsecond⟩
  unpaid hsound hover p hp budget := by
    rw [Nat.add_assoc]
    by_cases hmiddle : s.gas.Sound
    · obtain ⟨q, hq, hfirst⟩ := h.paid hmiddle p hp
      rw [hfirst.finish_eq, h'.unpaid hmiddle hover q hq, h.txn]
    · exact h.unpaid hsound hmiddle p hp _

/-- A word that is pushed where there is room for it. -/
theorem push {w : Word} (hat : l.at? r.pc = some (.ok (.push w)))
    (hroom : r.stack.words.length < Stack.sizeLimit) : Performs prices l 1 r (r.pushing prices w) :=
  of_pays hat fun _ => Exec.pays_push hroom

end Performs
end Activation
end Runs
end MutationGuard
