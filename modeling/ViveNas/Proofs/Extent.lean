/-
What an extent's entry in data_cf holds, resolved.

`Holds e data` says that an entry is one the write path can leave, a
whole extent or nothing under a list of deltas, and that `data` is what
a full merge makes of it. Every kind of write the file system does to an
extent has a rule for it, and so has every read; nothing else here or
later looks inside an entry.
-/
import ViveNas.Proofs.Store

namespace ViveNas

open LittleEndian Overlay ViveDataMergeOperator

-- ======================================================== the file's bytes

/-- Data byte `p` of an extent; zero when the extent is absent. -/
def extentByte (db : Store) (ino idx p : Nat) : UInt8 :=
  match db.getData (vnExtentKey idx ino) with
  | .ok (some v) => (dataOf v).getD p 0
  | _ => 0

/-- Byte `x` of the file. -/
def content (db : Store) (ino x : Nat) : UInt8 :=
  extentByte db ino (x / vivefsExtentSize) (x % vivefsExtentSize)

/-- Every extent of the file is absent or a header and a whole extent of
data. -/
def ExtentsWhole (db : Store) (ino : Nat) : Prop :=
  ∀ idx, ∃ r, db.getData (vnExtentKey idx ino) = .ok r
    ∧ ∀ v ∈ r, v.length = pfsExtentHeadSize + vivefsExtentSize

-- ============================================================== entries

/-- The entry is a base or nothing under deltas, and resolves to
`data`. -/
def Holds (e : Option (Entry Bytes)) (data : Bytes) : Prop :=
  ∃ (base : Option FullExtent) (ops : List Delta),
    e.bind Entry.base = base.map FullExtent.bytes
      ∧ (e.map Entry.operands).getD [] = ops.map Delta.bytes
      ∧ data = mergedData base ops

/-- No entry is an extent of zeros. -/
theorem holds_none : Holds none (List.replicate vivefsExtentSize 0) :=
  ⟨none, [], rfl, rfl, rfl⟩

/-- A whole extent, put. -/
theorem holds_put (b : FullExtent) :
    Holds (some (.value b.bytes [])) (dataOf b.bytes) :=
  ⟨some b, [], rfl, rfl, rfl⟩

/-- A delta, merged. -/
theorem Holds.push {e : Option (Entry Bytes)} {data : Bytes}
    (h : Holds e data) (d : Delta) :
    Holds (some (Entry.push e d.bytes)) (d.patch.apply data) := by
  obtain ⟨base, ops, hbase, hops, rfl⟩ := h
  refine ⟨base, ops ++ [d], ?_, ?_, ?_⟩
  · rw [Option.bind_some, Entry.base_push, hbase]
  · rw [Option.map_some, Option.getD_some, Entry.operands_push, hops,
      List.map_append]
    rfl
  · rw [mergedData, mergedData, List.map_append, applyAll, applyAll,
      List.foldl_append]
    rfl

theorem Holds.length {e : Option (Entry Bytes)} {data : Bytes}
    (h : Holds e data) : data.length = vivefsExtentSize := by
  obtain ⟨base, ops, -, -, rfl⟩ := h
  exact mergedData_length base ops

/-- A read of an entry: nothing for no entry, and otherwise a header and
the data. -/
theorem Holds.resolve {e : Entry Bytes} {data : Bytes}
    (h : Holds (some e) data) :
    ∃ v, e.resolve (fun b ops => fullMergeV2 b ops []) = .ok v
      ∧ v.length = pfsExtentHeadSize + vivefsExtentSize
      ∧ dataOf v = data := by
  obtain ⟨base, ops, hbase, hops, rfl⟩ := h
  rw [Option.bind_some] at hbase
  rw [Option.map_some, Option.getD_some] at hops
  by_cases hpending : e.operands = []
  · -- a base alone is read as it is stored
    rcases e with ⟨b, _ | ⟨o, os⟩⟩ | ⟨f, r⟩
    · cases base with
      | none => cases hbase
      | some fe =>
          rw [Option.map_some] at hbase
          obtain rfl : b = fe.bytes := Option.some.inj hbase
          obtain rfl : ops = [] := List.map_eq_nil_iff.mp hops.symm
          exact ⟨fe.bytes, rfl, fe.size_eq, rfl⟩
    · cases hpending
    · cases hpending
  · rw [Entry.resolve_of_operands hpending, hbase, hops, fullMergeV2_spec]
    refine ⟨_, rfl, ?_, List.drop_left' List.length_replicate⟩
    rw [List.length_append, List.length_replicate]
    exact congrArg _ (mergedData_length base ops)

-- =============================================================== reading

variable {db : Store} {ino idx : Nat} {data : Bytes}

/-- What `Get` delivers for an extent. -/
theorem Holds.getData {key : Bytes} (h : Holds db.dataCf[key]? data) :
    ∃ r, db.getData key = .ok r
      ∧ (∀ v ∈ r, v.length = pfsExtentHeadSize + vivefsExtentSize)
      ∧ ((r.map dataOf).getD (List.replicate vivefsExtentSize 0)) = data := by
  rw [Store.getData]
  cases hentry : db.dataCf[key]? with
  | none =>
      rw [hentry] at h
      obtain ⟨base, ops, hbase, hops, rfl⟩ := h
      obtain rfl : base = none := Option.map_eq_none_iff.mp hbase.symm
      obtain rfl : ops = [] := List.map_eq_nil_iff.mp hops.symm
      refine ⟨none, rfl, fun v hv => ?_, rfl⟩
      cases hv
  | some e =>
      rw [hentry] at h
      obtain ⟨v, hv, hlen, hdata⟩ := h.resolve
      refine ⟨some v, ?_, fun u hu => ?_, hdata⟩
      · show Except.map some _ = _
        rw [hv]
        rfl
      · rw [← Option.some.inj hu, hlen]

/-- The extent's bytes, read one by one. -/
theorem Holds.extentByte
    (h : Holds db.dataCf[vnExtentKey idx ino]? data) (p : Nat) :
    extentByte db ino idx p = data.getD p 0 := by
  obtain ⟨r, hr, -, rfl⟩ := h.getData
  rw [ViveNas.extentByte, hr]
  cases r with
  | some v => rfl
  | none =>
      show 0 = (List.replicate vivefsExtentSize (0 : UInt8)).getD p 0
      rw [List.getD_eq_getElem?_getD, List.getElem?_replicate]
      split <;> rfl

end ViveNas
