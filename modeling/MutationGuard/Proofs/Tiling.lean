import MutationGuard.Except.Lemmas
import MutationGuard.Machine.Listing

/-!
What parsing makes of every byte. An operation stands for its encoding, a byte that no operation starts
with for itself, and a push without its whole word for all that is left; in these pieces the bytes are used
up, in order. Bytes that are put together from such pieces are parsed into the results of the pieces, so
there is no other way to take them apart. Main statement: `Op.parse_tiles`.
-/

namespace MutationGuard.Op

/-! ## Opcodes -/

theorem ofOpcode?_eq_some_iff {byte : UInt8} {op : Op} :
    ofOpcode? byte = some op ↔ op.opcode = byte ∧ byte ≠ pushOpcode := by
  constructor
  · intro h
    unfold ofOpcode? at h
    split at h <;> cases h <;> exact ⟨rfl, by decide⟩
  · rintro ⟨rfl, hpush⟩
    cases op with
    | push w => exact absurd rfl hpush
    | _ => rfl

/-- No operation starts with the byte. -/
def Unassigned (byte : UInt8) : Prop := ∀ op : Op, op.opcode ≠ byte

theorem unassigned_iff {byte : UInt8} :
    Unassigned byte ↔ byte ≠ pushOpcode ∧ ofOpcode? byte = none := by
  constructor
  · intro h
    have hpush : byte ≠ pushOpcode := fun hbyte => h (push 0) hbyte.symm
    refine ⟨hpush, Option.eq_none_iff_forall_ne_some.mpr fun op hop => ?_⟩
    exact h op (ofOpcode?_eq_some_iff.mp hop).1
  · rintro ⟨hpush, hnone⟩ op rfl
    have hsome : ofOpcode? op.opcode = some op := ofOpcode?_eq_some_iff.mpr ⟨rfl, hpush⟩
    rw [hnone] at hsome
    cases hsome

theorem parse_of_unassigned {byte : UInt8} (h : Unassigned byte) (rest : Bytes) :
    parse (byte :: rest) = some (.error (.invalidOpcode byte), rest) := by
  obtain ⟨hpush, hnone⟩ := unassigned_iff.mp h
  simp only [parse, if_neg hpush, hnone]

theorem parse_of_cut {word : Bytes} (h : word.length < 32) :
    parse (pushOpcode :: word) = some (.error .missingPushWord, []) := by
  have htake : (word.take 32).length < 32 := by rw [List.length_take]; omega
  simp only [parse, if_true, if_pos htake]

theorem eq_nil_of_parse {bytes : Bytes} (h : parse bytes = none) : bytes = [] := by
  cases bytes with
  | nil => rfl
  | cons byte rest =>
    simp only [parse] at h
    split at h <;> split at h <;> cases h

/-- The two ways in which bytes fail to start with an operation. -/
theorem cases_of_parse_error {bytes rest : Bytes} {e : ParseError}
    (h : parse bytes = some (.error e, rest)) :
    (∃ byte, Unassigned byte ∧ e = .invalidOpcode byte ∧ bytes = byte :: rest) ∨
      ∃ word : Bytes, word.length < 32 ∧ e = .missingPushWord ∧ bytes = pushOpcode :: word ∧
        rest = [] := by
  cases bytes with
  | nil => cases h
  | cons byte tail =>
    simp only [parse] at h
    split at h
    next hpush =>
      split at h
      next hshort =>
        cases h
        rw [List.length_take] at hshort
        exact .inr ⟨tail, by omega, rfl, by rw [hpush], rfl⟩
      · cases h
    next hpush =>
      split at h
      · cases h
      next hnone =>
        cases h
        exact .inl ⟨byte, unassigned_iff.mpr ⟨hpush, hnone⟩, rfl, rfl⟩

theorem parseAll_nil : parseAll [] = [] := by
  rw [parseAll_eq]
  rfl

/-! ## Pieces -/

/-- The results take up the bytes piece by piece, from the first to the last. -/
inductive Tiles : Bytes → List (Except ParseError Op) → Prop
  | done : Tiles [] []
  /-- An operation takes up its encoding. -/
  | operation (op : Op) {rest : Bytes} {results : List (Except ParseError Op)}
      (more : Tiles rest results) : Tiles (op.encode ++ rest) (.ok op :: results)
  /-- A byte that is no opcode takes up itself. -/
  | invalid {byte : UInt8} (h : Unassigned byte) {rest : Bytes}
      {results : List (Except ParseError Op)} (more : Tiles rest results) :
      Tiles (byte :: rest) (.error (.invalidOpcode byte) :: results)
  /-- A push whose word is cut off takes up all that is left. -/
  | cut {word : Bytes} (h : word.length < 32) :
      Tiles (pushOpcode :: word) [.error .missingPushWord]

theorem tiles_parseAll (bytes : Bytes) : Tiles bytes (parseAll bytes) := by
  induction hn : bytes.length using Nat.strongRecOn generalizing bytes with
  | ind n ih =>
    rw [parseAll_eq]
    match hparse : parse bytes with
    | none =>
      obtain rfl := eq_nil_of_parse hparse
      exact .done
    | some (result, rest) =>
      have hmore : Tiles rest (parseAll rest) := ih _ (hn ▸ length_lt_of_parse hparse) rest rfl
      cases result with
      | ok op =>
        rw [eq_append_of_parse hparse]
        exact .operation op hmore
      | error e =>
        rcases cases_of_parse_error hparse with ⟨byte, hbyte, rfl, rfl⟩ | ⟨word, hword, rfl, rfl, rfl⟩
        · exact .invalid hbyte hmore
        · simp only [parseAll_nil]
          exact .cut hword

theorem Tiles.eq_parseAll {bytes : Bytes} {results : List (Except ParseError Op)}
    (h : Tiles bytes results) : results = parseAll bytes := by
  induction h with
  | done => exact parseAll_nil.symm
  | operation op _ ih => rw [parseAll_eq, parse_encode_append, ih]
  | invalid hbyte _ ih => rw [parseAll_eq, parse_of_unassigned hbyte, ih]
  | cut hword =>
    rw [parseAll_eq, parse_of_cut hword]
    simp only [parseAll_nil]

/-- Nothing comes after a push that is cut off. -/
theorem Tiles.eq_last {bytes : Bytes} {results : List (Except ParseError Op)} {i : Nat}
    (h : Tiles bytes results) (hi : results[i]? = some (.error .missingPushWord)) :
    i + 1 = results.length := by
  induction h generalizing i with
  | done => cases hi
  | cut hword =>
    cases i with
    | zero => rfl
    | succ i => cases hi
  | operation _ _ ih | invalid _ _ ih =>
    cases i with
    | zero => cases hi
    | succ i =>
      rw [List.getElem?_cons_succ] at hi
      have hlast := ih hi
      rw [List.length_cons]
      omega

/-- Bytes from which only operations are parsed are their encodings. -/
theorem Tiles.exists_encodeAll {bytes : Bytes} {results : List (Except ParseError Op)}
    (h : Tiles bytes results) (hok : ∀ result ∈ results, result.isOk = true) :
    ∃ ops : List Op, results = ops.map .ok ∧ encodeAll ops = bytes := by
  induction h with
  | done => exact ⟨[], rfl, rfl⟩
  | operation op _ ih =>
    obtain ⟨ops, rfl, rfl⟩ := ih fun result hresult => hok result (List.mem_cons_of_mem _ hresult)
    exact ⟨op :: ops, rfl, encodeAll_cons op ops⟩
  | invalid => cases hok _ List.mem_cons_self
  | cut => cases hok _ List.mem_cons_self

theorem encodeAll_of_parseAll {bytes : Bytes} {ops : List Op} (h : parseAll bytes = ops.map .ok) :
    encodeAll ops = bytes := by
  have hok : ∀ result ∈ parseAll bytes, result.isOk = true := by
    rw [h]
    exact fun _ => isOk_of_mem_map_ok
  obtain ⟨ops', hops', hbytes⟩ := (tiles_parseAll bytes).exists_encodeAll hok
  have hsame : ops = ops' :=
    (List.map_inj_right fun _ _ => Except.ok.inj).mp (h.symm.trans hops')
  rw [hsame, hbytes]

theorem tiles_encodeAll (ops : List Op) : Tiles (encodeAll ops) (ops.map .ok) := by
  induction ops with
  | nil => exact .done
  | cons op ops ih =>
    rw [encodeAll_cons]
    exact .operation op ih

/-- Encoded operations are parsed back as they are. Any bytes are taken up, piece by piece, by what is
parsed from them, and by no other results; a push that is cut off can only be the last. So where nothing
fails, encoding what was parsed gives the bytes back. -/
theorem parse_tiles :
    (∀ ops : List Op, parseAll (encodeAll ops) = ops.map .ok) ∧
    ∀ bytes : Bytes,
      (∀ results, Tiles bytes results ↔ results = parseAll bytes) ∧
      (∀ i, (parseAll bytes)[i]? = some (.error .missingPushWord) →
        i + 1 = (parseAll bytes).length) ∧
      ((∀ result ∈ parseAll bytes, result.isOk = true) →
        ∃ ops : List Op, parseAll bytes = ops.map .ok ∧ encodeAll ops = bytes) := by
  refine ⟨fun ops => (tiles_encodeAll ops).eq_parseAll.symm, fun bytes => ?_⟩
  have htiles : Tiles bytes (parseAll bytes) := tiles_parseAll bytes
  refine ⟨fun results => ⟨Tiles.eq_parseAll, ?_⟩, fun i hi => htiles.eq_last hi,
    htiles.exists_encodeAll⟩
  rintro rfl
  exact htiles

/-- A pop, a byte that is no opcode, and a push with one byte of its word; and two operations without
anything between them. -/
theorem parse_tiles_cut :
    let broken : Bytes := [0x02, 0xFF, 0x01, 0x00]
    let whole : Bytes := [0x02, 0x03]
    let results : List (Except ParseError Op) :=
      [.ok .pop, .error (.invalidOpcode 0xFF), .error .missingPushWord]
    Tiles broken results ∧ parseAll broken = results ∧
      ((parseAll broken)[2]? = some (.error .missingPushWord) ∧ 2 + 1 = (parseAll broken).length) ∧
      (∀ result ∈ parseAll whole, result.isOk = true) ∧
      ∃ ops : List Op, parseAll whole = ops.map .ok ∧ encodeAll ops = whole := by
  intro broken whole results
  obtain ⟨hops, htiles⟩ := parse_tiles
  obtain ⟨hbroken, hlast, -⟩ := htiles broken
  obtain ⟨-, -, hok⟩ := htiles whole
  have hcut : Tiles broken results :=
    .operation .pop (.invalid (unassigned_iff.mpr ⟨by decide, rfl⟩) (.cut (by decide)))
  have hparse : parseAll broken = results := ((hbroken results).mp hcut).symm
  have hwhole : parseAll whole = [Op.pop, .dup].map .ok := hops [.pop, .dup]
  have hall : ∀ result ∈ parseAll whole, result.isOk = true := by
    rw [hwhole]
    exact fun _ => isOk_of_mem_map_ok
  have hthird : (parseAll broken)[2]? = some (.error .missingPushWord) := by
    rw [hparse]
    rfl
  exact ⟨hcut, hparse, ⟨hthird, hlast 2 hthird⟩, hall, hok hall⟩

end MutationGuard.Op
