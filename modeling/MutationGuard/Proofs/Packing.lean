import MutationGuard.Machine.Access
import MutationGuard.Proofs.Tiling

/-!
Packed operations and the operations that were packed. Only the bytes and the places where operations start
are kept, and an operation is parsed again each time it is asked for. Main statement: `Bytecode.packs`, by
which every question is answered as the list of operations answers it, and bytes are packed as they are
when they can be parsed to the end.
-/

namespace MutationGuard

namespace Bytecode

/-- The program keeps the operations: as bytes, by the places where they start, and as they are asked for,
one by one, all together and from an index on. -/
structure Packs (p : Bytecode) (ops : List Op) : Prop where
  bytes : p.bytes.toList = Op.encodeAll ops
  starts : p.starts.toList = (List.range ops.length).map fun i => (Op.encodeAll (ops.take i)).length
  parse_drop : ∀ i (hi : i < ops.length) start, p.starts[i]? = some start →
    Op.parse (p.bytes.toList.drop start) = some (.ok ops[i], Op.encodeAll (ops.drop (i + 1)))
  ops_eq : p.ops = ops
  op? : ∀ i, p.op? i = ops[i]?
  access : ∀ i, Program.access i p = (ops[i]?.map .ok, p)
  access_eq : ∀ i, (Program.access i p).1 = (Program.access i ops).1
  from_of_lt : ∀ i, ops.length < i → p.from? i = none
  from_of_le : ∀ i ≤ ops.length, ∃ q, p.from? i = some q ∧ q.ops = ops.drop i

theorem toList_starts_ofOps (ops : List Op) :
    (ofOps ops).starts.toList =
      (List.range ops.length).map fun i => (Op.encodeAll (ops.take i)).length := by
  apply List.ext_getElem?
  intro i
  rw [Array.getElem?_toList]
  by_cases hi : i < ops.length
  · rw [starts_ofOps ops hi, List.getElem?_map, List.getElem?_range hi]
    rfl
  · have hsize : (ofOps ops).starts.size ≤ i := by rw [size_starts_ofOps]; omega
    rw [Array.getElem?_eq_none hsize, List.getElem?_eq_none (by simpa using hi)]

/-- Each place at which an operation starts answers with that operation. -/
theorem map_opAt?_starts (ops : List Op) :
    (ofOps ops).starts.toList.map (ofOps ops).opAt? = ops.map some := by
  apply List.ext_getElem?
  intro i
  have hop : (ofOps ops).starts[i]?.bind (ofOps ops).opAt? = ops[i]? := op?_ofOps ops i
  rw [List.getElem?_map, List.getElem?_map, Array.getElem?_toList]
  by_cases hi : i < ops.length
  · rw [starts_ofOps ops hi, List.getElem?_eq_getElem hi] at hop ⊢
    exact congrArg some hop
  · have hsize : (ofOps ops).starts.size ≤ i := by rw [size_starts_ofOps]; omega
    rw [Array.getElem?_eq_none hsize, List.getElem?_eq_none (Nat.not_lt.mp hi)]
    rfl

/-- From any of the places on, the operations are the ones that start there. -/
theorem filterMap_opAt?_drop (ops : List Op) (i : Nat) :
    ((ofOps ops).starts.toList.drop i).filterMap (ofOps ops).opAt? = ops.drop i := by
  have hdrop : ((ofOps ops).starts.toList.drop i).map (ofOps ops).opAt? = (ops.drop i).map some := by
    rw [List.map_drop, map_opAt?_starts, List.map_drop]
  have hid : ((ofOps ops).starts.toList.drop i).filterMap (ofOps ops).opAt? =
      (((ofOps ops).starts.toList.drop i).map (ofOps ops).opAt?).filterMap id := by
    rw [List.filterMap_map]
    rfl
  rw [hid, hdrop, List.filterMap_map]
  exact List.filterMap_some

theorem packs_ofOps (ops : List Op) : (ofOps ops).Packs ops where
  bytes := bytes_ofOps ops
  starts := toList_starts_ofOps ops
  parse_drop _ hi _ := parse_drop_ofOps hi
  ops_eq := by
    have hall := filterMap_opAt?_drop ops 0
    rwa [List.drop_zero, List.drop_zero] at hall
  op? := op?_ofOps ops
  access i := by
    show (((ofOps ops).op? i).map Except.ok, ofOps ops) = _
    rw [op?_ofOps]
  access_eq i := by
    show ((ofOps ops).op? i).map Except.ok = ops[i]?.map Except.ok
    rw [op?_ofOps]
  from_of_lt i hi := by
    have hsize : ¬ i ≤ (ofOps ops).starts.size := by rw [size_starts_ofOps]; omega
    exact if_neg hsize
  from_of_le i hi := by
    have hsize : i ≤ (ofOps ops).starts.size := by rwa [size_starts_ofOps]
    have hdrop : ((ofOps ops).starts.extract i).toList = (ofOps ops).starts.toList.drop i := by
      rw [Array.toList_extract, List.extract_eq_take_drop]
      exact List.take_of_length_le (by simp)
    refine ⟨_, if_pos hsize, ?_⟩
    show ((ofOps ops).starts.extract i).toList.filterMap (ofOps ops).opAt? = _
    rw [hdrop, filterMap_opAt?_drop]

theorem parse_eq_ok_iff {bytes : Bytes} {p : Bytecode} :
    parse bytes = .ok p ↔ ∃ ops, Op.parseAll bytes = ops.map .ok ∧ ofOps ops = p := by
  rw [parse, map_eq_ok_iff]
  simp only [mapM_id_eq_ok_iff]

theorem parse_eq_error_iff {bytes : Bytes} {e : ParseError} :
    parse bytes = .error e ↔
      ∃ (ops : List Op) (rest : List (Except ParseError Op)),
        Op.parseAll bytes = ops.map .ok ++ .error e :: rest := by
  rw [← mapM_id_eq_error_iff, parse]
  cases (Op.parseAll bytes).mapM id <;> simp [Functor.map, Except.map]

/-- Whatever is asked of packed operations is answered as the list of operations answers it. Bytes are
packed when no error is parsed from them, and then they are kept as they are, with the operations parsed
from them; otherwise the first error parsed is what is wrong with them. -/
theorem packs :
    (∀ ops : List Op, (ofOps ops).Packs ops) ∧
    ∀ bytes : Bytes,
      ((∃ p, parse bytes = .ok p) ↔ ∀ result ∈ Op.parseAll bytes, result.isOk = true) ∧
      (∀ p, parse bytes = .ok p →
        ∃ ops : List Op, Op.parseAll bytes = ops.map .ok ∧ p.bytes.toList = bytes ∧ p.Packs ops) ∧
      ∀ e, parse bytes = .error e ↔
        ∃ (ops : List Op) (rest : List (Except ParseError Op)),
          Op.parseAll bytes = ops.map .ok ++ .error e :: rest := by
  refine ⟨packs_ofOps, fun bytes => ⟨⟨?_, fun h => ?_⟩, fun p h => ?_, fun e => parse_eq_error_iff⟩⟩
  · rintro ⟨p, hp⟩
    obtain ⟨ops, hops, -⟩ := parse_eq_ok_iff.mp hp
    rw [hops]
    exact fun _ => isOk_of_mem_map_ok
  · obtain ⟨ops, hops, -⟩ := (Op.tiles_parseAll bytes).exists_encodeAll h
    exact ⟨ofOps ops, parse_eq_ok_iff.mpr ⟨ops, hops, rfl⟩⟩
  · obtain ⟨ops, hops, rfl⟩ := parse_eq_ok_iff.mp h
    have hpacks : (ofOps ops).Packs ops := packs_ofOps ops
    refine ⟨ops, hops, ?_, hpacks⟩
    rw [hpacks.bytes, Op.encodeAll_of_parseAll hops]

/-- A push takes up thirty-three bytes. There is an empty program behind the last operation and none behind
that, and bytes that end in no opcode are not packed. -/
theorem packs_push :
    let ops : List Op := [.push 1, .pop, .halt]
    let p := ofOps ops
    p.starts.toList = [0, 33, 34] ∧
      (3 ≤ ops.length ∧ ∃ q, p.from? 3 = some q ∧ q.ops = []) ∧
      (ops.length < 4 ∧ p.from? 4 = none) ∧
      (∃ q, parse (Op.encodeAll ops) = .ok q ∧ q.bytes.toList = Op.encodeAll ops) ∧
      parse [0x00, 0xEE] = .error (.invalidOpcode 0xEE) := by
  intro ops p
  obtain ⟨hops, hbytes⟩ := packs
  have hp : p.Packs ops := hops ops
  obtain ⟨hparse, hpacked, -⟩ := hbytes (Op.encodeAll ops)
  have hall : ∀ result ∈ Op.parseAll (Op.encodeAll ops), result.isOk = true := by
    rw [← (Op.tiles_encodeAll ops).eq_parseAll]
    exact fun _ => isOk_of_mem_map_ok
  obtain ⟨q, hq⟩ := hparse.mpr hall
  obtain ⟨-, -, hsame, -⟩ := hpacked q hq
  have hbad : Op.Tiles [0x00, 0xEE] [.ok .halt, .error (.invalidOpcode 0xEE)] :=
    .operation .halt (.invalid (Op.unassigned_iff.mpr ⟨by decide, rfl⟩) .done)
  refine ⟨hp.starts, ⟨by decide, hp.from_of_le 3 (by decide)⟩, ⟨by decide, hp.from_of_lt 4 (by decide)⟩,
    ⟨q, hq, hsame⟩, ?_⟩
  exact ((hbytes [0x00, 0xEE]).2.2 _).mpr ⟨[.halt], [], hbad.eq_parseAll.symm⟩

end Bytecode
end MutationGuard
