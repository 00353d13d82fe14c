import MutationGuard.Proofs.Layout
import MutationGuard.Proofs.RoundTrip

/-!
The program that restricts a frame to a declaration, from the start of the frame to its end: the encoding
of the declaration is laid out word by word, and what is decoded from memory is the declaration again.
Main statement: `restriction_installed`.
-/

namespace MutationGuard

variable {σ : Type}

/-- What it costs to restrict a frame to a declaration: the operations, the memory for its encoding, and
decoding it. -/
def Fragment.restrictCost (prices : Pricing) (d : Declaration) : Nat :=
  ((restrict d).map prices.opCost).sum + prices.schedule.memoryCost ((d.encode.length + 31) / 32) +
    prices.schedule.restrictDecodeCost d.encode.length

theorem Fragment.restrictCost_eq (prices : Pricing) (d : Declaration) :
    restrictCost prices d = presentCost prices d.encode + prices.opCost (number 1) +
      prices.opCost .restrict + prices.schedule.restrictDecodeCost d.encode.length := by
  unfold restrictCost presentCost restrict
  simp only [List.map_append, List.sum_append, List.map_cons, List.map_nil, List.sum_cons, List.sum_nil]
  omega

section

variable {prices : Pricing} {f : Frame} {code : Code} {gasLimit : Nat} {t : Txn σ} {d : Declaration}

/-- A frame at the end of the program that restricts it. -/
def Activation.installed (prices : Pricing) (f : Frame) (code : Code) (gasLimit : Nat) (t : Txn σ)
    (d : Declaration) : Activation σ :=
  { start { f with guard := f.guard.enable (.ofDeclaration d) } code gasLimit t with
    pc := (Fragment.restrict d).length
    memory := Fragment.laidOut d.encode
    gas := ⟨gasLimit, Fragment.restrictCost prices d⟩ }

/-- A frame that presents the encoding of a declaration and asks to be restricted. -/
theorem Exec.restrict_of_presenting (prices : Pricing) {r : Activation σ} (hwellFormed : d.WellFormed)
    (hsize : d.encode.length ≤ Memory.sizeLimit)
    (hstack : r.stack.words = [1, BitVec.ofNat 256 d.encode.length, 0])
    (hmemory : r.memory = Fragment.laidOut d.encode)
    (hgas : r.gas.spent + prices.schedule.restrictDecodeCost d.encode.length ≤ r.gas.limit) :
    restrict prices r = .ok ()
      { r.spending (prices.schedule.restrictDecodeCost d.encode.length) with
        stack := {}
        frame := { r.frame with guard := r.frame.guard.enable (.ofDeclaration d) } } := by
  have hlength : (BitVec.ofNat 256 d.encode.length).toNat = d.encode.length :=
    Fragment.toNat_number hsize
  have hmax : Memory.sizeLimit ≤ counterMax := by decide
  have hbytes : d.encode.length < 2 ^ 64 :=
    Nat.lt_of_le_of_lt (Nat.le_trans hsize hmax) (by decide)
  have hnone : r.restrictCost prices d.encode.length r.memory.words =
      prices.schedule.restrictDecodeCost d.encode.length := by
    rw [Activation.restrictCost, Activation.growthCost, Nat.sub_self, Nat.add_zero]
  have haffords : r.AffordsRestriction prices 0 (BitVec.ofNat 256 d.encode.length) 1 [] r.memory.words :=
    { stack := hstack
      offset_le := by decide
      length_le := by
        rw [hlength]
        exact Nat.le_trans hsize hmax
      required := by
        rw [hlength, hmemory]
        exact Fragment.wordsRequired_laidOut hsize
      gas := by
        rw [hlength, hnone]
        exact hgas }
  rw [restrict_of_affords haffords, hlength]
  refine judge_eq_ok_iff.mpr ⟨_, ?_, .inr ⟨rfl, d.encode, d, ?_, ?_, rfl⟩⟩
  · unfold Activation.ranged Activation.withGuard Activation.spending
    rw [hnone, Memory.growTo_words]
  · change (r.memory.growTo r.memory.words).slice 0 _ = _
    rw [Memory.growTo_words, hmemory, Fragment.slice_laidOut]
  · exact Declaration.decode_encode_of_wellFormed hbytes hwellFormed

variable [Source σ]

/-- Code that starts with the program that restricts the frame comes to the end of the program. -/
theorem Activation.advances_installed (rest : Bytes) (hwellFormed : d.WellFormed)
    (hsize : d.encode.length ≤ Memory.sizeLimit) (hgas : Fragment.restrictCost prices d ≤ gasLimit) :
    let code := Op.encodeAll (Fragment.restrict d) ++ rest
    ∃ q : LazyBytecode, q.Maps (.ofCode code) ∧ Advances prices (Fragment.restrict d).length
      (start f code gasLimit t) ((installed prices f code gasLimit t d).withProgram q) := by
  intro code
  let presented := presenting prices f code gasLimit t d.encode
  let asked := presented.pushing prices 1
  have hlength : (Fragment.restrict d).length = (Fragment.storeBytes 0 d.encode).length + 2 + 1 + 1 :=
    List.length_append
  have hhas : (Listing.ofCode code).Has 0
      ((Fragment.storeBytes 0 d.encode ++ [Fragment.number 0, Fragment.number d.encode.length]) ++
        [Fragment.number 1, .restrict]) := by
    rw [List.append_assoc]
    exact Listing.has_ofCode (Fragment.restrict d) rest
  have hpresents : Performs prices (.ofCode code) _ (start f code gasLimit t) presented :=
    .present hhas.left hsize
  have hask : (Listing.ofCode code).Has presented.pc [Fragment.number 1, .restrict] := by
    have hright := hhas.right
    rwa [Nat.zero_add, List.length_append] at hright
  have htwo : 2 < Stack.sizeLimit := by decide
  have hasks : Performs prices (.ofCode code) 1 presented asked := .push hask.head htwo
  rw [Fragment.restrictCost_eq] at hgas
  have hasked : asked.gas.Sound := by
    change Fragment.presentCost prices d.encode + prices.opCost (Fragment.number 1) ≤ gasLimit
    omega
  obtain ⟨q, hq, hadvances⟩ := (hpresents.trans hasks).paid hasked _ (LazyBytecode.maps_ofCode code)
  have hcharge : Exec.charge (prices.opCost .restrict) asked =
      .ok () (asked.spending (prices.opCost .restrict)) :=
    Exec.charge_of_le (by
      change Fragment.presentCost prices d.encode + prices.opCost (Fragment.number 1) + _ ≤ gasLimit
      omega)
  have hrestrict := Exec.restrict_of_presenting prices
    (r := asked.spending (prices.opCost .restrict)) hwellFormed hsize rfl rfl (by
      change Fragment.presentCost prices d.encode + prices.opCost (Fragment.number 1) + _ + _ ≤ gasLimit
      omega)
  have hinstalls : ∀ run, (do Exec.charge (prices.opCost .restrict); Exec.perform prices run .restrict)
      asked = .ok (.next (installed prices f code gasLimit t d).pc)
        { installed prices f code gasLimit t d with pc := asked.pc } := by
    intro run
    unfold installed
    rw [Fragment.restrictCost_eq, hlength]
    exact (Exec.bind_of_ok hcharge).trans (Exec.andNext_of_ok hrestrict)
  obtain ⟨q', hq', hlast⟩ := advances_of_ok hask.tail.head hinstalls hq
  rw [hlength]
  exact ⟨q', hq', hadvances.trans hlast⟩

/-- A frame that starts with the program for a well-formed declaration, and has the gas for it, comes to the
end of the program with nothing on its stack, the transaction as it was, and the restriction that declaring
just this declaration makes of its guard; from there on it runs as it would have. If the program is all of
its code, it ends successfully there. -/
theorem restriction_installed (prices : Pricing) (f : Frame) (d : Declaration) (rest : Bytes)
    (gasLimit : Nat) (t : Txn σ) (hwellFormed : d.WellFormed)
    (hsize : d.encode.length ≤ Memory.sizeLimit) (hgas : Fragment.restrictCost prices d ≤ gasLimit) :
    let program := Fragment.restrict d
    (∃ s, Activation.Advances prices program.length
        (.start f (Op.encodeAll program ++ rest) gasLimit t) s ∧
      s.pc = program.length ∧ s.stack.words = [] ∧ s.txn = t ∧
      s.frame = { f with guard := f.guard.enable (.ofDeclaration d) } ∧
      s.gas = ⟨gasLimit, Fragment.restrictCost prices d⟩ ∧
      (f.guard = .unrestricted →
        s.frame.guard = .declared (.ofDeclaration d) ∧ s.frame.guard.origin = "Local") ∧
      ∀ budget, f.run prices (program.length + budget) (Op.encodeAll program ++ rest) gasLimit t =
        s.finish prices budget) ∧
    ∀ budget, program.length < budget → f.run prices budget (Op.encodeAll program) gasLimit t =
      .ok ⟨.success, gasLimit - Fragment.restrictCost prices d, []⟩ t := by
  intro program
  constructor
  · obtain ⟨q, -, hadvances⟩ := Activation.advances_installed (f := f) (t := t) rest hwellFormed hsize hgas
    refine ⟨_, hadvances, rfl, rfl, rfl, rfl, rfl, fun hguard => ?_, hadvances.finish_eq⟩
    have hdeclared : f.guard.enable (.ofDeclaration d) = .declared (.ofDeclaration d) := by
      rw [hguard]
      rfl
    exact ⟨hdeclared, congrArg FrameGuard.origin hdeclared⟩
  · intro budget hbudget
    obtain ⟨left, rfl⟩ : ∃ left, budget = program.length + (left + 1) :=
      ⟨budget - program.length - 1, by omega⟩
    obtain ⟨q, hq, hadvances⟩ := Activation.advances_installed (f := f) (t := t) [] hwellFormed hsize hgas
    have hlisting : Listing.ofCode (Op.encodeAll program ++ []) = ⟨program, none⟩ := by
      rw [Listing.ofCode_encodeAll_append, Listing.ofCode_of_none rfl, List.append_nil]
    have hend : (Listing.ofCode (Op.encodeAll program ++ [])).at? program.length = none := by
      rw [hlisting]
      exact Listing.at?_of_le (Nat.le_refl _)
    rw [List.append_nil] at hadvances hq hend
    exact (hadvances.finish_eq _).trans (Activation.finish_of_end hend hq left)

/-- A frame without a restriction that declares two slots of storage. -/
theorem restriction_installed_slots :
    let prices := ({} : GasSchedule).pricing
    let f := Sample.frame .unrestricted
    let t := Sample.withContracts []
    let d : Declaration := ⟨[⟨Address.repeated 0x11, [.storage [Key.ofNat 7, Key.ofNat 8]]⟩]⟩
    let program := Fragment.restrict d
    (d.WellFormed ∧ d.encode.length ≤ Memory.sizeLimit ∧ Fragment.restrictCost prices d ≤ 200) ∧
      (∃ s, Activation.Advances prices program.length (.start f (Op.encodeAll program ++ [0xff]) 200 t) s ∧
        s.frame.guard = .declared (.ofDeclaration d)) ∧
      f.run prices 20 (Op.encodeAll program) 200 t =
        .ok ⟨.success, 200 - Fragment.restrictCost prices d, []⟩ t := by
  intro prices f t d program
  have hwellFormed : d.WellFormed := by decide
  have hsize : d.encode.length ≤ Memory.sizeLimit := by decide +kernel
  have hgas : Fragment.restrictCost prices d ≤ 200 := by decide +kernel
  obtain ⟨⟨s, hadvances, -, -, -, -, -, hguard, -⟩, hrun⟩ :=
    restriction_installed prices f d [0xff] 200 t hwellFormed hsize hgas
  exact ⟨⟨hwellFormed, hsize, hgas⟩, ⟨s, hadvances, (hguard rfl).1⟩, hrun 20 (by decide +kernel)⟩

end
end MutationGuard
