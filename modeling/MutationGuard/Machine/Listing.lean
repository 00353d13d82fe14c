import Mathlib.Data.List.Induction
import MutationGuard.Machine.Bytecode
import MutationGuard.Word.Lemmas

/-!
Programs as lists of operations. Bytes hold the operations in front of the first error in them, and
that error if there is one: their listing. Packed operations are found again by their index
(`Bytecode.op?_ofOps`), and a program that is mapped as it is read answers, index by index, what the
listing of its bytes says (`LazyBytecode.access_of_maps`), in whatever order it is asked.
-/

namespace MutationGuard

/-! ## Encoded operations -/

namespace Op

theorem encode_of_ofOpcode? {byte : UInt8} {op : Op} (h : ofOpcode? byte = some op) :
    op.encode = [byte] := by
  unfold ofOpcode? at h
  split at h <;> cases h <;> rfl

theorem length_encode_le (op : Op) : op.encode.length ≤ Bytecode.longest := by
  cases op with
  | push w =>
    have hlength : w.toBytes.length = 32 := Bytes.length_ofNat ..
    exact Nat.succ_le_succ (Nat.le_of_eq hlength)
  | _ => exact Nat.succ_le_succ (Nat.zero_le _)

/-- What was encoded is parsed, whatever follows it. -/
theorem parse_encode_append (op : Op) (rest : Bytes) :
    parse (op.encode ++ rest) = some (.ok op, rest) := by
  cases op with
  | push w =>
    have hlength : w.toBytes.length = 32 := Bytes.length_ofNat ..
    have htake : (w.toBytes ++ rest).take 32 = w.toBytes := by
      rw [List.take_append_of_le_length (by omega), List.take_of_length_le (by omega)]
    have hdrop : (w.toBytes ++ rest).drop 32 = rest := by
      rw [List.drop_append_of_le_length (by omega), List.drop_of_length_le (by omega)]
      rfl
    change parse (pushOpcode :: (w.toBytes ++ rest)) = _
    simp only [parse, if_true, htake, hdrop, hlength, Word.ofBytes_toBytes]
    rfl
  | _ => rfl

/-- What is parsed is there as it is encoded. -/
theorem eq_append_of_parse {bytes rest : Bytes} {op : Op} (h : parse bytes = some (.ok op, rest)) :
    bytes = op.encode ++ rest := by
  cases bytes with
  | nil => cases h
  | cons byte tail =>
    simp only [parse] at h
    split at h
    next hpush =>
      split at h
      · cases h
      · cases h
        have hlength : (tail.take 32).length = 32 := by
          have hle := List.length_take_le 32 tail
          omega
        rw [encode, Word.toBytes_ofBytes hlength, hpush, List.cons_append, List.take_append_drop]
    · split at h
      next found =>
        cases h
        rw [encode_of_ofOpcode? found, List.singleton_append]
      · cases h

theorem encodeAll_append (ops more : List Op) :
    encodeAll (ops ++ more) = encodeAll ops ++ encodeAll more :=
  List.flatMap_append

theorem encodeAll_cons (op : Op) (ops : List Op) :
    encodeAll (op :: ops) = op.encode ++ encodeAll ops :=
  List.flatMap_cons

/-- Where the encodings of the first operations end, the encoding of the next one starts. -/
theorem drop_encodeAll (ops : List Op) {i : Nat} (hi : i < ops.length) :
    (encodeAll ops).drop (encodeAll (ops.take i)).length =
      ops[i].encode ++ encodeAll (ops.drop (i + 1)) := by
  have hsplit : encodeAll ops =
      encodeAll (ops.take i) ++ (ops[i].encode ++ encodeAll (ops.drop (i + 1))) := by
    rw [← encodeAll_cons, ← encodeAll_append, List.getElem_cons_drop, List.take_append_drop]
  rw [hsplit, List.drop_left]

end Op

/-! ## Packed operations -/

namespace Bytecode

theorem ofOps_append_singleton (ops : List Op) (op : Op) :
    ofOps (ops ++ [op]) = (ofOps ops).push op := by
  simp [ofOps, List.foldl_append]

/-- The encodings stand back to back. -/
theorem bytes_ofOps (ops : List Op) : (ofOps ops).bytes.toList = Op.encodeAll ops := by
  induction ops using List.reverseRecOn with
  | nil => rfl
  | append_singleton ops op ih =>
    rw [ofOps_append_singleton, push, Op.encodeAll_append, ← ih, Op.encodeAll_cons]
    simp [Op.encodeAll]

@[simp] theorem size_starts_ofOps (ops : List Op) : (ofOps ops).starts.size = ops.length := by
  induction ops using List.reverseRecOn with
  | nil => rfl
  | append_singleton ops op ih => simp [ofOps_append_singleton, push, ih]

/-- Each operation starts where the encodings of those before it end. -/
theorem starts_ofOps (ops : List Op) {i : Nat} (hi : i < ops.length) :
    (ofOps ops).starts[i]? = some (Op.encodeAll (ops.take i)).length := by
  induction ops using List.reverseRecOn with
  | nil => exact absurd hi (Nat.not_lt_zero i)
  | append_singleton ops op ih =>
    rw [ofOps_append_singleton, push]
    rw [List.length_append, List.length_singleton] at hi
    by_cases hlast : i < ops.length
    · have hsize : i < (ofOps ops).starts.size := by rwa [size_starts_ofOps]
      rw [Array.getElem?_push_lt hsize, ← Array.getElem?_eq_getElem hsize, ih hlast,
        List.take_append_of_le_length (by omega)]
    · have hi' : i = (ofOps ops).starts.size := by rw [size_starts_ofOps]; omega
      have hbytes : (ofOps ops).bytes.size = (Op.encodeAll ops).length := by
        rw [← bytes_ofOps, Array.length_toList]
      rw [hi', Array.getElem?_push_size, size_starts_ofOps, List.take_left', hbytes]
      rfl

/-- From where an operation starts on, it is parsed, and the operations after it are left. -/
theorem parse_drop_ofOps {ops : List Op} {i start : Nat} (hi : i < ops.length)
    (hstart : (ofOps ops).starts[i]? = some start) :
    Op.parse ((ofOps ops).bytes.toList.drop start) =
      some (.ok ops[i], Op.encodeAll (ops.drop (i + 1))) := by
  rw [starts_ofOps ops hi] at hstart
  cases hstart
  rw [bytes_ofOps, Op.drop_encodeAll ops hi, Op.parse_encode_append]

/-- An operation is read where its encoding stands, whatever follows: no encoding is longer than what is
looked at. -/
theorem opAt?_eq_some_iff {p : Bytecode} {start : Nat} {op : Op} :
    p.opAt? start = some op ↔ op.encode <+: p.bytes.toList.drop start := by
  have hwindow : (p.bytes.extract start (start + longest)).toList =
      (p.bytes.toList.drop start).take longest := by
    rw [Array.toList_extract, List.extract_eq_take_drop, Nat.add_sub_cancel_left]
  rw [opAt?, hwindow]
  constructor
  · intro h
    split at h
    next found rest hparse =>
      cases h
      have hprefix : op.encode <+: (p.bytes.toList.drop start).take longest :=
        ⟨rest, (Op.eq_append_of_parse hparse).symm⟩
      exact hprefix.trans (List.take_prefix _ _)
    · cases h
  · rintro ⟨rest, hrest⟩
    rw [← hrest, List.take_append, List.take_of_length_le (Op.length_encode_le op),
      Op.parse_encode_append]

/-- An operation is found again by its index. -/
theorem op?_ofOps (ops : List Op) (i : Nat) : (ofOps ops).op? i = ops[i]? := by
  by_cases hi : i < ops.length
  · rw [op?, starts_ofOps ops hi, Option.bind_some, List.getElem?_eq_getElem hi,
      opAt?_eq_some_iff, bytes_ofOps, Op.drop_encodeAll ops hi]
    exact List.prefix_append _ _
  · have hsize : (ofOps ops).starts.size ≤ i := by rw [size_starts_ofOps]; omega
    rw [op?, Array.getElem?_eq_none hsize, List.getElem?_eq_none (by omega), Option.bind_none]

end Bytecode

/-! ## Listings -/

/-- What bytes hold as a program. -/
structure Listing where
  /-- The operations in front of the first error. -/
  ops : List Op
  /-- The first error, if there is one. -/
  error : Option ParseError
  deriving DecidableEq

namespace Listing

/-- The operations in front of the first error among the results, and that error. -/
def ofResults : List (Except ParseError Op) → Listing
  | [] => ⟨[], none⟩
  | .error e :: _ => ⟨[], some e⟩
  | .ok op :: rest => ⟨op :: (ofResults rest).ops, (ofResults rest).error⟩

/-- What the bytes hold. -/
def ofCode (code : Bytes) : Listing := ofResults (Op.parseAll code)

/-- What stands at an index: an operation, or past the last one the error, or nothing. -/
def at? (l : Listing) (i : Nat) : Option (Except ParseError Op) :=
  match l.ops[i]? with
  | some op => some (.ok op)
  | none => l.error.map .error

theorem ofCode_of_none {code : Bytes} (h : Op.parse code = none) : ofCode code = ⟨[], none⟩ := by
  rw [ofCode, Op.parseAll_eq, h]
  rfl

theorem ofCode_of_error {code rest : Bytes} {e : ParseError}
    (h : Op.parse code = some (.error e, rest)) : ofCode code = ⟨[], some e⟩ := by
  rw [ofCode, Op.parseAll_eq, h]
  rfl

theorem ofCode_of_ok {code rest : Bytes} {op : Op} (h : Op.parse code = some (.ok op, rest)) :
    ofCode code = ⟨op :: (ofCode rest).ops, (ofCode rest).error⟩ := by
  rw [ofCode, Op.parseAll_eq, h]
  rfl

theorem ofCode_encode_append (op : Op) (rest : Bytes) :
    ofCode (op.encode ++ rest) = ⟨op :: (ofCode rest).ops, (ofCode rest).error⟩ :=
  ofCode_of_ok (Op.parse_encode_append op rest)

/-- Encoded operations are listed in front of what follows them. -/
theorem ofCode_encodeAll_append (ops : List Op) (rest : Bytes) :
    ofCode (Op.encodeAll ops ++ rest) = ⟨ops ++ (ofCode rest).ops, (ofCode rest).error⟩ := by
  induction ops with
  | nil => rfl
  | cons op ops ih =>
    rw [Op.encodeAll_cons, List.append_assoc, ofCode_encode_append, ih]
    rfl

/-- Bytes start with the encodings of the operations that they list. -/
theorem encodeAll_ops_prefix (code : Bytes) : Op.encodeAll (ofCode code).ops <+: code := by
  induction hn : code.length using Nat.strongRecOn generalizing code with
  | ind n ih =>
    match hparse : Op.parse code with
    | none => rw [ofCode_of_none hparse]; exact List.nil_prefix
    | some (.error e, rest) => rw [ofCode_of_error hparse]; exact List.nil_prefix
    | some (.ok op, rest) =>
      have hshorter := Op.length_lt_of_parse hparse
      rw [ofCode_of_ok hparse, Op.encodeAll_cons, Op.eq_append_of_parse hparse]
      exact (List.prefix_append_right_inj _).mpr (ih _ (hn ▸ hshorter) rest rfl)

theorem at?_of_lt {l : Listing} {i : Nat} (hi : i < l.ops.length) :
    l.at? i = some (.ok l.ops[i]) := by
  rw [at?, List.getElem?_eq_getElem hi]

theorem at?_of_le {l : Listing} {i : Nat} (hi : l.ops.length ≤ i) :
    l.at? i = l.error.map .error := by
  rw [at?, List.getElem?_eq_none hi]

theorem lt_of_at? {l : Listing} {i : Nat} {op : Op} (h : l.at? i = some (.ok op)) :
    i < l.ops.length := by
  by_contra hi
  rw [at?_of_le (by omega)] at h
  cases he : l.error <;> rw [he] at h <;> cases h

end Listing

/-! ## Programs mapped as they are read -/

namespace LazyBytecode

/-- What is mapped already and what the unread bytes hold make up the listing. -/
def Maps (p : LazyBytecode) (l : Listing) : Prop :=
  ∃ seen, p.mapped = .ofOps seen ∧
    l = ⟨seen ++ (Listing.ofCode p.unread).ops, (Listing.ofCode p.unread).error⟩

theorem maps_ofCode (code : Bytes) : (ofCode code).Maps (.ofCode code) := ⟨[], rfl, rfl⟩

theorem fill_of_lt {i : Nat} {mapped : Bytecode} (h : i < mapped.starts.size) (unread : Bytes) :
    fill i mapped unread = (some (.ok ()), ⟨mapped, unread⟩) := by
  rw [fill, if_pos h]

/-- What is not mapped yet is mapped from the next thing in the unread bytes on. -/
theorem fill_of_le {i : Nat} {mapped : Bytecode} (h : mapped.starts.size ≤ i) (unread : Bytes) :
    fill i mapped unread =
      match Op.parse unread with
      | none => (none, ⟨mapped, unread⟩)
      | some (.error e, rest) => (some (.error e), ⟨mapped, rest⟩)
      | some (.ok op, rest) => fill i (mapped.push op) rest := by
  rw [fill, if_neg (Nat.not_lt.mpr h)]
  split <;> simp_all

/-- Mapping up to an index succeeds if there is an operation, and the program still answers to its
listing. Otherwise it comes to the end of the listing, and tells what is there. -/
theorem fill_of_maps {mapped : Bytecode} {unread : Bytes} {l : Listing}
    (h : Maps ⟨mapped, unread⟩ l) (i : Nat) :
    if i < l.ops.length then
      ∃ q, fill i mapped unread = (some (.ok ()), q) ∧ i < q.mapped.starts.size ∧ q.Maps l
    else (fill i mapped unread).1 = l.error.map .error := by
  induction hn : unread.length using Nat.strongRecOn generalizing mapped unread with
  | ind n ih =>
    have hmaps := h
    obtain ⟨seen, rfl, hl⟩ := h
    have hsize : (Bytecode.ofOps seen).starts.size = seen.length := Bytecode.size_starts_ofOps seen
    by_cases hseen : i < seen.length
    · have hi : i < l.ops.length := by
        rw [hl, List.length_append]
        omega
      rw [if_pos hi]
      exact ⟨_, fill_of_lt (hsize ▸ hseen) unread, hsize ▸ hseen, hmaps⟩
    rw [fill_of_le (by omega)]
    match hparse : Op.parse unread with
    | none =>
      simp only [Listing.ofCode_of_none hparse, List.append_nil] at hl
      subst hl
      rw [if_neg hseen]
      rfl
    | some (.error e, rest) =>
      simp only [Listing.ofCode_of_error hparse, List.append_nil] at hl
      subst hl
      rw [if_neg hseen]
      rfl
    | some (.ok op, rest) =>
      have hpushed : Maps ⟨(Bytecode.ofOps seen).push op, rest⟩ l := by
        refine ⟨seen ++ [op], (Bytecode.ofOps_append_singleton seen op).symm, ?_⟩
        rw [hl, Listing.ofCode_of_ok hparse, List.append_assoc]
        rfl
      exact ih _ (hn ▸ Op.length_lt_of_parse hparse) hpushed rfl

/-- A program mapped as it is read answers what its listing says, and where that is an operation,
goes on answering so. -/
theorem access_of_maps {p : LazyBytecode} {l : Listing} (h : p.Maps l) (i : Nat) :
    (p.access i).1 = l.at? i ∧ ((∃ op, l.at? i = some (.ok op)) → (p.access i).2.Maps l) := by
  obtain ⟨mapped, unread⟩ := p
  have hfill := fill_of_maps h i
  by_cases hi : i < l.ops.length
  · rw [if_pos hi] at hfill
    obtain ⟨q, hfound, hsize, hmaps⟩ := hfill
    refine ⟨?_, fun _ => ?_⟩
    · obtain ⟨seen, hseen, hl⟩ := hmaps
      rw [hseen, Bytecode.size_starts_ofOps] at hsize
      have hop : l.ops[i] = seen[i] := by simp only [hl, List.getElem_append_left hsize]
      rw [Listing.at?_of_lt hi, hop]
      simp only [access, hfound, hseen, Bytecode.op?_ofOps, List.getElem?_eq_getElem hsize,
        Option.map_some]
    · simp only [access, hfound]
      exact hmaps
  · rw [if_neg hi] at hfill
    refine ⟨?_, fun ⟨_, hop⟩ => absurd (Listing.lt_of_at? hop) hi⟩
    rw [Listing.at?_of_le (Nat.not_lt.mp hi)]
    unfold access
    dsimp only
    generalize fill i mapped unread = result at hfill
    obtain ⟨found, q⟩ := result
    cases he : l.error with
    | none =>
      rw [he] at hfill
      cases hfill
      rfl
    | some e =>
      rw [he] at hfill
      cases hfill
      rfl

end LazyBytecode
end MutationGuard
