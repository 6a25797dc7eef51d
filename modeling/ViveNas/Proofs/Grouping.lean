/-
Partial merges and what they do to the bytes a full merge resolves.

RocksDB may replace any run of adjacent operands by their left-folded
`PartialMerge`, and later fold the results again, so an operand list it
hands to `FullMergeV2` is a list of trees of partial merges over the
operands that were written (`OperandTree`; a single run is the left
comb `OperandTree.ofRun`).

# Where the grouping shows

`_merge` resizes its result to the span of both operands and copies each
to its place. Bytes of the span that neither operand covers stay zero,
and the result carries no trace of them: the next merge takes them for
data. `gapByte` marks exactly those positions, and the bytes agree with
the ungrouped merge if and only if each of them was zero before
(`regrouping_agrees_iff`).
-/
import ViveNas.Proofs.Merge

namespace ViveNas

open LittleEndian Overlay ViveDataMergeOperator

-- ============================================================ operands

/-- An operand as RocksDB may present it: one that was written, or the
partial merge of two such, older on the left. -/
inductive OperandTree where
  | operand (d : Delta)
  | merged (l r : OperandTree)

namespace OperandTree

/-- The value the partial merges produce, when all of them return. -/
def value : OperandTree → Except Fault Bytes
  | operand d => .ok d.bytes
  | merged l r => do
      let a ← l.value
      let b ← r.value
      partialMerge a b []

/-- The deltas that were written, oldest first. -/
def operands : OperandTree → List Delta
  | operand d => [d]
  | merged l r => l.operands ++ r.operands

/-- A run of adjacent operands, left-folded. -/
def ofRun (d : Delta) (ds : List Delta) : OperandTree :=
  ds.foldl (fun t x => merged t (operand x)) (operand d)

/-- The same grouping over the deltas' patches. -/
def toTree : OperandTree → JoinTree UInt8
  | operand d => .leaf d.patch
  | merged l r => .node l.toTree r.toTree

theorem toTree_leaves (t : OperandTree) :
    t.toTree.leaves = t.operands.map Delta.patch := by
  induction t with
  | operand d => rfl
  | merged l r ihl ihr =>
      rw [toTree, JoinTree.leaves, ihl, ihr, operands, List.map_append]

/-- The left comb is the left fold of `PartialMerge`. -/
theorem value_ofRun (d : Delta) (ds : List Delta) :
    (ofRun d ds).value
      = ds.foldlM (fun acc x => partialMerge acc x.bytes []) d.bytes := by
  suffices key : ∀ (ds : List Delta) (t : OperandTree),
      (ds.foldl (fun t x => merged t (operand x)) t).value
        = t.value >>= fun v =>
            ds.foldlM (fun acc x => partialMerge acc x.bytes []) v from
    key ds (operand d)
  intro ds
  induction ds with
  | nil =>
      intro t
      cases hv : t.value with
      | error e => exact hv
      | ok v => exact hv
  | cons x ds ih =>
      intro t
      rw [List.foldl_cons, ih]
      cases hv : t.value with
      | error e => rw [value, hv]; rfl
      | ok v => rw [value, hv]; rfl

/-- Partial merges that return make a delta: the join of the patches. -/
theorem value_spec {t : OperandTree} {v : Bytes} (h : t.value = .ok v) :
    ∃ d : Delta, d.bytes = v ∧ d.patch = t.toTree.patch 0 := by
  induction t generalizing v with
  | operand d =>
      rw [value, Except.ok.injEq] at h
      exact ⟨d, h, rfl⟩
  | merged l r ihl ihr =>
      rw [value] at h
      cases hl : l.value with
      | error e => rw [hl] at h; cases h
      | ok a =>
          cases hr : r.value with
          | error e => rw [hl, hr] at h; cases h
          | ok b =>
              obtain ⟨da, rfl, hda⟩ := ihl hl
              obtain ⟨db, rfl, hdb⟩ := ihr hr
              rw [hl, ok_bind, hr, ok_bind, partialMerge_spec] at h
              split at h
              case isTrue => cases h
              case isFalse =>
                injection h with hv
                refine ⟨joinDelta da db, hv, ?_⟩
                rw [joinDelta_patch, hda, hdb]
                rfl

end OperandTree

-- =========================================================== the groups

/-- The deltas under a list of groups, in the order they were written. -/
def writtenDeltas (groups : List OperandTree) : List Delta :=
  groups.flatMap OperandTree.operands

/-- The last group whose span (from its least offset to its greatest
end) contains the byte has no delta that wrote it, at the merge that
spans it: the group claims the byte and fills it with zero. -/
def gapByte (groups : List OperandTree) (i : Nat) : Bool :=
  forestHole (groups.map OperandTree.toTree) i

/-- The byte as the last write left it: the last delta covering it, else
the base's byte, else zero. -/
def lastWritten (existing : Option FullExtent) (ops : List Delta)
    (i : Nat) : Option UInt8 :=
  (latest (ops.map Delta.patch) i).or (baseData existing)[i]?

/-- Both merges return, with the same extent of data bytes. -/
def SameData (a b : Except Fault Bytes) : Prop :=
  ∃ x y, a = .ok x ∧ b = .ok y ∧ dataOf x = dataOf y
    ∧ (dataOf x).length = vivefsExtentSize

theorem writtenDeltas_patches (groups : List OperandTree) :
    (writtenDeltas groups).map Delta.patch
      = forestLeaves (groups.map OperandTree.toTree) := by
  induction groups with
  | nil => rfl
  | cons t groups ih =>
      have hcons : writtenDeltas (t :: groups)
          = t.operands ++ writtenDeltas groups := List.flatMap_cons
      have hleaves : forestLeaves ((t :: groups).map OperandTree.toTree)
          = t.toTree.leaves
            ++ forestLeaves (groups.map OperandTree.toTree) :=
        List.flatMap_cons
      rw [hcons, List.map_append, ih, hleaves, t.toTree_leaves]

/-- The operands a grouping presents are deltas again: each the join of
its group's patches. -/
theorem groups_values {groups : List OperandTree} {values : List Bytes}
    (h : groups.mapM OperandTree.value = .ok values) :
    ∃ ds : List Delta, ds.map Delta.bytes = values
      ∧ ds.map Delta.patch
        = (groups.map OperandTree.toTree).map (JoinTree.patch 0) := by
  induction groups generalizing values with
  | nil =>
      rw [List.mapM_nil, pure_eq_ok, Except.ok.injEq] at h
      exact ⟨[], h, rfl⟩
  | cons t groups ih =>
      rw [List.mapM_cons] at h
      cases ht : t.value with
      | error e => rw [ht] at h; cases h
      | ok v =>
          cases hrest : groups.mapM OperandTree.value with
          | error e => rw [ht, hrest] at h; cases h
          | ok vs =>
              rw [ht, hrest, ok_bind, ok_bind, pure_eq_ok,
                Except.ok.injEq] at h
              obtain ⟨d, hd, hpatch⟩ := OperandTree.value_spec ht
              obtain ⟨ds, hds, hpatches⟩ := ih hrest
              refine ⟨d :: ds, ?_, ?_⟩
              · rw [List.map_cons, hd, hds, h]
              · rw [List.map_cons, hpatch, hpatches]
                rfl

theorem dataOf_zeroHead (data : Bytes) :
    dataOf (List.replicate pfsExtentHeadSize 0 ++ data) = data :=
  List.drop_left' List.length_replicate

/-- Two full merges over deltas agree exactly when their overlays do. -/
theorem sameData_iff (existing : Option FullExtent) (ops ops' : List Delta) :
    SameData
        (fullMergeV2 (existing.map FullExtent.bytes)
          (ops.map Delta.bytes) [])
        (fullMergeV2 (existing.map FullExtent.bytes)
          (ops'.map Delta.bytes) [])
      ↔ mergedData existing ops = mergedData existing ops' := by
  rw [fullMergeV2_spec, fullMergeV2_spec]
  constructor
  · rintro ⟨x, y, hx, hy, hdata, -⟩
    injection hx with hx
    injection hy with hy
    rw [← hx, ← hy, dataOf_zeroHead, dataOf_zeroHead] at hdata
    exact hdata
  · intro hdata
    refine ⟨_, _, rfl, rfl, ?_, ?_⟩
    · rw [dataOf_zeroHead, dataOf_zeroHead]
      exact hdata
    · rw [dataOf_zeroHead]
      exact mergedData_length existing ops

/-- Whatever the base, the deltas and the grouping, a full merge of the
grouped operands leaves the data bytes of the ungrouped merge if and
only if every byte the grouping fills without a write was zero as last
written. -/
theorem regrouping_agrees_iff (existing : Option FullExtent)
    (groups : List OperandTree) (values : List Bytes)
    (h : groups.mapM OperandTree.value = .ok values) :
    SameData
        (fullMergeV2 (existing.map FullExtent.bytes) values [])
        (fullMergeV2 (existing.map FullExtent.bytes)
          ((writtenDeltas groups).map Delta.bytes) [])
      ↔ ∀ i < vivefsExtentSize, gapByte groups i = true →
          lastWritten existing (writtenDeltas groups) i = some 0 := by
  obtain ⟨ds, rfl, hpatches⟩ := groups_values h
  have hfit := deltas_fit existing (writtenDeltas groups)
  rw [writtenDeltas_patches] at hfit
  rw [sameData_iff, mergedData, mergedData, hpatches,
    writtenDeltas_patches, applyAll_join_iff hfit, baseData_length]
  simp only [lastWritten, writtenDeltas_patches, gapByte]

-- ======================================================= a gap that shows

theorem oneByte_inside {o : Nat} (b : UInt8) (h : o < 65535) :
    o + [b].length ≤ vivefsExtentSize := by
  rw [vivefsExtentSize, List.length_singleton]
  omega

theorem oneByte_offset {o : Nat} (h : o < 65535) : o < 65536 := by omega

/-- One data byte at offset `o`. -/
def oneByteDelta (o : Nat) (b : UInt8) (h : o < 65535) : Delta :=
  Delta.make o [b] (oneByte_inside b h) (oneByte_offset h)

/-- An extent whose every data byte is one. -/
def onesExtent : FullExtent where
  bytes := List.replicate (pfsExtentHeadSize + vivefsExtentSize) 1
  size_eq := List.length_replicate

/-- The grouping of the example: one run of two one-byte deltas, at
offsets 0 and 2, with byte 1 between them. -/
def gappedRun : OperandTree :=
  OperandTree.ofRun (oneByteDelta 0 7 (by decide))
    [oneByteDelta 2 7 (by decide)]

theorem gappedRun_value :
    [gappedRun].mapM OperandTree.value
      = .ok [(joinDelta (oneByteDelta 0 7 (by decide))
          (oneByteDelta 2 7 (by decide))).bytes] := by
  have hvalue : gappedRun.value
      = .ok (joinDelta (oneByteDelta 0 7 (by decide))
          (oneByteDelta 2 7 (by decide))).bytes := by
    rw [gappedRun, OperandTree.value_ofRun, List.foldlM_cons,
      partialMerge_spec, if_neg (by decide)]
    rfl
  rw [List.mapM_cons, hvalue]
  rfl

/-- Grouping satisfies the agreement's hypothesis at a run that does
leave a gap over zeros. -/
theorem regrouping_agrees_iff_gappedRun :
    SameData
        (fullMergeV2 none
          [(joinDelta (oneByteDelta 0 7 (by decide))
            (oneByteDelta 2 7 (by decide))).bytes] [])
        (fullMergeV2 none
          ((writtenDeltas [gappedRun]).map Delta.bytes) [])
      ↔ ∀ i < vivefsExtentSize, gapByte [gappedRun] i = true →
          lastWritten none (writtenDeltas [gappedRun]) i = some 0 :=
  regrouping_agrees_iff none [gappedRun] _ gappedRun_value

/-- Over a base of ones, merging the deltas at 0 and 2 first turns byte
1, which neither of them wrote, into zero. -/
theorem regrouping_changes_byte :
    ∃ v, partialMerge (oneByteDelta 0 7 (by decide)).bytes
          (oneByteDelta 2 7 (by decide)).bytes [] = .ok v
      ∧ ¬ SameData
          (fullMergeV2 (some onesExtent.bytes) [v] [])
          (fullMergeV2 (some onesExtent.bytes)
            [(oneByteDelta 0 7 (by decide)).bytes,
              (oneByteDelta 2 7 (by decide)).bytes] []) := by
  refine ⟨_, by rw [partialMerge_spec, if_neg]; decide, ?_⟩
  intro hsame
  have heq := (sameData_iff (some onesExtent)
    [joinDelta (oneByteDelta 0 7 (by decide)) (oneByteDelta 2 7 (by decide))]
    [oneByteDelta 0 7 (by decide), oneByteDelta 2 7 (by decide)]).mp hsame
  have hbyte := congrArg (fun data => data[1]?) heq
  have hbase : (baseData (some onesExtent))[1]? = some 1 := by
    rw [baseData, dataOf, onesExtent, List.drop_replicate,
      List.getElem?_replicate_of_lt]
    simp [vivefsExtentSize]
  simp only [mergedData_getElem?, hbase] at hbyte
  revert hbyte
  decide

end ViveNas
