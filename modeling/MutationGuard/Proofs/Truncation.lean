import MutationGuard.Proofs.RestrictOperation

/-!
Declarations that are cut off. What a list holds is read up to the first item that cannot be read, so
nothing inside a declaration tells that its end is missing: only its own header does, which gives the length
of all that should follow. The header in turn may end before its length does (`Header.read_take`).
Main statement: `truncated_rejected`.
-/

namespace MutationGuard

namespace Rlp

variable {base : UInt8}

/-- A header that is cut off gives no length. -/
theorem Header.read_take (hbase : IsBase base) {n k : Nat} (hn : n < 2 ^ 64)
    (hk : k < (encodeHeader base n).length) : read ((encodeHeader base n).take k) = .error .tooShort := by
  cases k with
  | zero => rfl
  | succ k =>
    rcases Nat.lt_or_ge 55 n with hlong | hshort
    · have hwidth : (Bytes.minimal n).length ≤ 8 := (Bytes.length_minimal_le_iff n 8).mpr hn
      have hpos := Bytes.length_minimal_pos (Nat.zero_lt_of_lt hlong)
      have hcut : k < (Bytes.minimal n).length := by
        rw [encodeHeader_long base hlong, List.length_cons] at hk
        omega
      rw [encodeHeader_long base hlong, List.take_succ_cons, read_long hbase hpos hwidth]
      cases hdigits : Bytes.minimal n with
      | nil => simp [hdigits] at hcut
      | cons first digits =>
        rw [hdigits] at hcut
        cases k with
        | zero => rfl
        | succ k =>
          have hfirst : first ≠ 0 := by
            rintro rfl
            exact Bytes.minimal_ne_zero_cons n digits hdigits
          have hmissing : (((first :: digits).take (k + 1)).take (first :: digits).length).length <
              (first :: digits).length := by
            rw [List.length_take, List.length_take]
            omega
          rw [List.take_succ_cons] at hmissing ⊢
          rw [ofLongForm, if_neg hfirst, if_pos hmissing]
    · rw [encodeHeader_short base hshort, List.length_singleton] at hk
      omega

theorem Item.read_of_short {bytes : Bytes} {h : Header} (hread : Header.read bytes = .ok h)
    (hshort : bytes.length < h.total) : read bytes = .error .tooShort := by
  have hlength : (bytes.take h.total).length < h.total := by
    rw [List.length_take]
    omega
  simp only [read, hread, bind, Except.bind, if_pos hlength]
  rfl

/-- An item that is cut off is refused, in its header or after it. -/
theorem Item.read_take (hbase : IsBase base) {payload : Bytes} (hsize : payload.length < 2 ^ 64) {k : Nat}
    (hk : k < (encodeHeader base payload.length ++ payload).length) :
    read ((encodeHeader base payload.length ++ payload).take k) = .error .tooShort := by
  rcases Nat.lt_or_ge k (encodeHeader base payload.length).length with hheader | hpayload
  · rw [List.take_append_of_le_length (Nat.le_of_lt hheader), read,
      Header.read_take hbase hsize hheader]
    rfl
  · have hcut : ((encodeHeader base payload.length ++ payload).take k).length <
        Header.total ⟨(encodeHeader base payload.length).length, payload.length⟩ := by
      rw [List.length_take, Header.total, ← List.length_append]
      omega
    rw [List.take_append, List.take_of_length_le hpayload] at hcut ⊢
    exact read_of_short (Header.read_encodeHeader hbase hsize _) hcut

end Rlp

namespace Declaration

/-- A declaration that is cut off anywhere is too short. -/
theorem decode_of_cut {d : Declaration} {p : Bytes} (hsize : d.encode.length < 2 ^ 64)
    (hstart : p <+: d.encode) (hproper : p ≠ d.encode) : decode p = .error .tooShort := by
  have hpayload := Nat.lt_trans (Rlp.length_flatten_lt_encodeList (d.grants.map Grant.encode)) hsize
  have hcut : p.length < d.encode.length :=
    Nat.lt_of_le_of_ne hstart.length_le fun h => hproper (hstart.eq_of_length h)
  rw [List.prefix_iff_eq_take.mp hstart, decode, encode, Rlp.encodeList,
    Rlp.Item.read_take .list hpayload hcut]
  rfl

end Declaration

namespace Exec

variable {σ : Type} {prices : Pricing} {r s : Activation σ}

/-- A declaration that is longer than the range it is declared with is refused. -/
theorem restrict_truncated {offset maxLength : Word} {rest : List Word} {d : Declaration}
    (hsize : d.encode.length < 2 ^ 64) (hstack : r.stack.words = 1 :: maxLength :: offset :: rest)
    (hstored : r.memory.Reads offset.toNat d.encode.length d.encode)
    (hshort : maxLength.toNat < d.encode.length) :
    ∃ e s, restrict prices r = .error e s ∧ s.frame = r.frame := by
  refine exists_error_of_not_ok fun s h => ?_
  obtain ⟨_, _, _, hrestricted⟩ := restricted_of_ok h
  have hoperands := hstack.symm.trans hrestricted.operands
  simp only [List.cons.injEq] at hoperands
  obtain ⟨rfl, rfl, rfl, -⟩ := hoperands
  obtain ⟨hzero, -⟩ | ⟨-, bytes, found, hreads, hdecode, -⟩ := hrestricted.guard
  · exact absurd hzero (by decide)
  · obtain ⟨n, hbytes, -⟩ := hrestricted.memory
    have hstill : s.memory.Reads offset.toNat d.encode.length d.encode := hstored.congr fun i hi => by
      rw [hbytes, Array.getElem?_append_left (hstored.lt_size hi)]
    obtain rfl := (hstill.take (Nat.le_of_lt hshort)).unique hreads
    have hproper : d.encode.take maxLength.toNat ≠ d.encode := fun h => by
      have hlength := hreads.length_eq
      rw [h] at hlength
      omega
    rw [Declaration.decode_of_cut hsize (List.take_prefix _ _) hproper] at hdecode
    cases hdecode

/-- A declaration that is cut off anywhere, whatever it grants, is refused as too short; so is, then, one
that a frame declares with a length less than that of the declaration it has stored, and its guard stays. -/
theorem truncated_rejected (d : Declaration) (hsize : d.encode.length < 2 ^ 64) :
    (∀ p, p <+: d.encode → p ≠ d.encode → Declaration.decode p = .error .tooShort) ∧
    ∀ (prices : Pricing) (r : Activation σ) (offset maxLength : Word) (rest : List Word),
      r.stack.words = 1 :: maxLength :: offset :: rest →
      r.memory.Reads offset.toNat d.encode.length d.encode →
      maxLength.toNat < d.encode.length →
        ∃ e s, restrict prices r = .error e s ∧ s.frame = r.frame :=
  ⟨fun _ hstart hproper => Declaration.decode_of_cut hsize hstart hproper,
    fun _ _ _ _ _ hstack hstored hshort => restrict_truncated hsize hstack hstored hshort⟩

/-- Two slots of storage make a header of two bytes: cut within it, behind it, and declared with a length
one short. -/
theorem truncated_rejected_slots :
    let d : Declaration := ⟨[⟨Address.repeated 0x11, [.storage [Key.ofNat 7, Key.ofNat 8]]⟩]⟩
    let prices := ({} : GasSchedule).pricing
    let r : Activation Table :=
      { Activation.start (Sample.frame .unrestricted) [] 200 (Sample.withContracts []) with
        stack := ⟨[1, BitVec.ofNat 256 (d.encode.length - 1), 0]⟩
        memory := ⟨(d.encode ++ List.replicate (128 - d.encode.length) 0).toArray⟩ }
    d.encode.length < 2 ^ 64 ∧
      Declaration.decode (d.encode.take 1) = .error .tooShort ∧
      Declaration.decode (d.encode.take 40) = .error .tooShort ∧
      ∃ e s, restrict prices r = .error e s ∧ s.frame = r.frame := by
  intro d prices r
  have hlength : d.encode.length = 99 := by decide +kernel
  have hsize : d.encode.length < 2 ^ 64 := by
    rw [hlength]
    decide
  have hproper : ∀ k < 99, d.encode.take k ≠ d.encode := fun k hk h => by
    have hcut := congrArg List.length h
    rw [List.length_take, hlength] at hcut
    omega
  obtain ⟨hcut, hrestrict⟩ := truncated_rejected (σ := Table) d hsize
  refine ⟨hsize, hcut _ (List.take_prefix _ _) (hproper 1 (by decide)),
    hcut _ (List.take_prefix _ _) (hproper 40 (by decide)), hrestrict prices r 0 _ [] rfl ⟨rfl, ?_⟩ ?_⟩
  · intro i hi
    change d.encode[i]? = (d.encode ++ _).toArray[0 + i]?
    rw [Nat.zero_add, List.getElem?_toArray, List.getElem?_append_left hi]
  · rw [hlength]
    decide

end Exec
end MutationGuard
