/-
What the merge operator computes, in the terms of Lib/Overlay.lean: a
full merge is the operands' patches laid over the base's data, and a
partial merge is the zero-filled join of two patches.

Everything later in the development reads the operator through these two
specs (`fullMergeV2_spec`, `partialMerge_spec`); no other file unfolds
it.

# The two functions

`FullMergeV2` copies the base and lays each operand over it; its spec is
an induction over the operands with the buffer so far as the accumulator
(`overlayOperands_spec`). `PartialMerge` sizes a buffer for both of its
operands first, and the spec has to show that the copies stay inside it
(`union_fits`).
-/
import ViveNas.Merge

namespace ViveNas

open LittleEndian Overlay ViveDataMergeOperator

-- ======================================================= value layouts

@[simp] theorem vnExtentHead_length (o : Nat) :
    (vnExtentHead o).length = pfsExtentHeadSize := by
  simp [vnExtentHead, pfsExtentHeadSize]

/-- `head->merge_off = off` in a zeroed header. -/
theorem overwrite_zeroHead (o : Nat) :
    overwrite (List.replicate pfsExtentHeadSize 0) 2 (leBytes 2 o)
      = vnExtentHead o := by
  simp only [overwrite, leBytes_length, vnExtentHead, pfsExtentHeadSize]
  rfl

/-- The field read back after it was stored: the low 16 bits. -/
theorem mergeOff_overwrite {hd : Bytes} (hhd : hd.length = pfsExtentHeadSize)
    (o : Nat) (data : Bytes) :
    mergeOff (overwrite hd 2 (leBytes 2 o) ++ data) = o % 65536 := by
  have htwo : (hd.take 2).length = 2 := by
    rw [List.length_take, hhd]
    rfl
  have htake : ((overwrite hd 2 (leBytes 2 o) ++ data).drop 2).take 2
      = leBytes 2 o := by
    rw [overwrite, List.append_assoc, List.append_assoc,
      List.drop_left' htwo]
    exact List.take_left' (leBytes_length 2 o)
  rw [mergeOff, htake, leNat_leBytes]
  norm_num

/-- The field has 16 bits. -/
theorem mergeOff_vnExtentHead (o : Nat) (data : Bytes) :
    mergeOff (vnExtentHead o ++ data) = o % 65536 := by
  rw [← overwrite_zeroHead]
  exact mergeOff_overwrite List.length_replicate o data

@[simp] theorem dataOf_vnExtentHead (o : Nat) (data : Bytes) :
    dataOf (vnExtentHead o ++ data) = data :=
  List.drop_left' (vnExtentHead_length o)

theorem dataOf_length (v : Bytes) :
    (dataOf v).length = v.length - pfsExtentHeadSize := List.length_drop

theorem mergeOff_lt (v : Bytes) : mergeOff v < 65536 := by
  have hlt := leNat_lt ((v.drop 2).take 2)
  have hlen : ((v.drop 2).take 2).length ≤ 2 := by
    rw [List.length_take]
    omega
  calc mergeOff v < 256 ^ ((v.drop 2).take 2).length := hlt
    _ ≤ 256 ^ 2 := Nat.pow_le_pow_right (by decide) hlen

namespace Delta

variable (d : Delta)

theorem length_lt : d.bytes.length < 2 ^ 64 := by
  have h1 := d.head_le
  have h2 := d.fits
  simp only [pfsExtentHeadSize, vivefsExtentSize] at h1 h2
  omega

/-- The header of an operand can be read: it is inside the slice. -/
theorem load_mergeOff : loadLe d.bytes 2 2 = .ok (mergeOff d.bytes) := by
  have h := d.head_le
  simp only [pfsExtentHeadSize] at h
  exact loadLe_ok (by omega)

theorem patch_hi : d.patch.hi
    = mergeOff d.bytes + (d.bytes.length - pfsExtentHeadSize) := by
  rw [← dataOf_length]
  rfl

/-- A delta ends inside the extent. -/
theorem patch_hi_le : d.patch.hi ≤ vivefsExtentSize := by
  rw [patch_hi]
  exact d.fits

/-- The delta a header offset and in-range data make. -/
def make (o : Nat) (data : Bytes) (h : o + data.length ≤ vivefsExtentSize)
    (ho : o < 65536) : Delta where
  bytes := vnExtentHead o ++ data
  head_le := by simp
  fits := by
    rw [mergeOff_vnExtentHead, Nat.mod_eq_of_lt ho, List.length_append,
      vnExtentHead_length, Nat.add_sub_cancel_left]
    exact h

theorem make_patch {o : Nat} {data : Bytes}
    {h : o + data.length ≤ vivefsExtentSize} {ho : o < 65536} :
    (make o data h ho).patch = ⟨o, data⟩ := by
  simp [patch, make, mergeOff_vnExtentHead, Nat.mod_eq_of_lt ho]

end Delta

-- ======================================================== FullMergeV2

/-- A value's data copied to offset `k` of a buffer's data. -/
theorem memcpy_past_head {v hd data : Bytes} {k : Nat}
    (hv : pfsExtentHeadSize ≤ v.length) (hlt : v.length < 2 ^ 64)
    (hhd : hd.length = pfsExtentHeadSize)
    (hfit : k + (dataOf v).length ≤ data.length) :
    memcpy (hd ++ data) (pfsExtentHeadSize + k) v pfsExtentHeadSize
        (sub64 v.length pfsExtentHeadSize)
      = .ok (hd ++ overwrite data k (dataOf v)) := by
  rw [dataOf_length] at hfit
  rw [sub64_of_le hv hlt, memcpy_rest hv (by
      rw [List.length_append, hhd]
      omega), ← hhd, overwrite_append_right, hhd]
  rfl

/-- The operand loop lays the operands' patches over the data. -/
theorem overlayOperands_spec (ops : List Delta) {hd data : Bytes}
    (hhd : hd.length = pfsExtentHeadSize)
    (hdata : data.length = vivefsExtentSize) :
    overlayOperands (ops.map Delta.bytes) (hd ++ data)
      = .ok (hd ++ applyAll data (ops.map Delta.patch)) := by
  induction ops generalizing data with
  | nil => rfl
  | cons d ops ih =>
      have hne : ¬ d.bytes.length = 0 := by
        have h := d.head_le
        simp only [pfsExtentHeadSize] at h
        omega
      have hlen : (d.patch.apply data).length = vivefsExtentSize := by
        rw [Patch.apply_length (by rw [hdata]; exact d.patch_hi_le), hdata]
      rw [List.map_cons, overlayOperands, if_neg hne, d.load_mergeOff,
        ok_bind, memcpy_past_head d.head_le d.length_lt hhd (by
          rw [dataOf_length, hdata]
          exact d.fits), ok_bind]
      exact ih hlen

theorem baseData_length (existing : Option FullExtent) :
    (baseData existing).length = vivefsExtentSize := by
  cases existing with
  | none => exact List.length_replicate
  | some b => rw [baseData, dataOf_length, b.size_eq, Nat.add_sub_cancel_left]

theorem FullExtent.length_lt (b : FullExtent) : b.bytes.length < 2 ^ 64 := by
  rw [b.size_eq, pfsExtentHeadSize, vivefsExtentSize]
  decide

/-- A full merge into a given string: the header of the resized string,
and the operands' patches over the base's data, or over the string's. -/
theorem fullMergeV2_into (existing : Option FullExtent) (ops : List Delta)
    {newValue hd data : Bytes} (hhd : hd.length = pfsExtentHeadSize)
    (hbuf : resize newValue (vivefsExtentSize + pfsExtentHeadSize)
      = hd ++ data) :
    fullMergeV2 (existing.map FullExtent.bytes) (ops.map Delta.bytes)
        newValue
      = .ok (hd ++ applyAll
          ((existing.map fun b => dataOf b.bytes).getD data)
          (ops.map Delta.patch)) := by
  have hdata : data.length = vivefsExtentSize := by
    have hlen := congrArg List.length hbuf
    rw [resize_length, List.length_append, hhd] at hlen
    omega
  rw [fullMergeV2, hbuf]
  cases existing with
  | none =>
      rw [Option.map_none, copyExisting, ok_bind]
      exact overlayOperands_spec ops hhd hdata
  | some b =>
      have hbase : (dataOf b.bytes).length = vivefsExtentSize :=
        baseData_length (some b)
      have hcopy := memcpy_past_head
        (show pfsExtentHeadSize ≤ b.bytes.length by
          rw [b.size_eq]
          exact Nat.le_add_right _ _) b.length_lt hhd
        (show 0 + (dataOf b.bytes).length ≤ data.length by omega)
      rw [Nat.add_zero, overwrite_all (by omega)] at hcopy
      rw [Option.map_some, copyExisting, hcopy, ok_bind]
      exact overlayOperands_spec ops hhd hbase

/-- A full merge: a zero header, and the operands' patches over the
base's data. -/
theorem fullMergeV2_spec (existing : Option FullExtent) (ops : List Delta) :
    fullMergeV2 (existing.map FullExtent.bytes) (ops.map Delta.bytes) []
      = .ok (List.replicate pfsExtentHeadSize 0
          ++ applyAll (baseData existing) (ops.map Delta.patch)) := by
  rw [fullMergeV2_into existing ops List.length_replicate (by
    rw [resize_nil, Nat.add_comm, List.replicate_add])]
  cases existing <;> rfl

/-- The bytes a full merge leaves in the extent. -/
def mergedData (existing : Option FullExtent) (ops : List Delta) : Bytes :=
  applyAll (baseData existing) (ops.map Delta.patch)

/-- So the copies of a full merge stay inside a whole extent's data. -/
theorem patches_fit {data : Bytes} (hdata : data.length = vivefsExtentSize)
    (ops : List Delta) :
    ∀ p ∈ ops.map Delta.patch, p.hi ≤ data.length := by
  intro p hp
  obtain ⟨d, -, rfl⟩ := List.mem_map.mp hp
  rw [hdata]
  exact d.patch_hi_le

theorem deltas_fit (existing : Option FullExtent) (ops : List Delta) :
    ∀ p ∈ ops.map Delta.patch, p.hi ≤ (baseData existing).length :=
  patches_fit (baseData_length existing) ops

theorem mergedData_length (existing : Option FullExtent)
    (ops : List Delta) :
    (mergedData existing ops).length = vivefsExtentSize := by
  rw [mergedData, applyAll_length (deltas_fit existing ops), baseData_length]

/-- Byte by byte: the latest operand that has it, or the base. -/
theorem mergedData_getElem? (existing : Option FullExtent)
    (ops : List Delta) (i : Nat) :
    (mergedData existing ops)[i]?
      = (latest (ops.map Delta.patch) i).or (baseData existing)[i]? :=
  applyAll_getElem? (deltas_fit existing ops) i

-- ======================================================= PartialMerge

/-- The delta a partial merge produces. -/
def joinDelta (l r : Delta) : Delta :=
  Delta.make (min (mergeOff l.bytes) (mergeOff r.bytes))
    (join 0 l.patch r.patch).data
    (by
      have hhi : (join 0 l.patch r.patch).hi ≤ vivefsExtentSize := by
        rw [join_hi]
        exact Nat.max_le.mpr ⟨l.patch_hi_le, r.patch_hi_le⟩
      exact hhi)
    (Nat.lt_of_le_of_lt (Nat.min_le_left _ _) (mergeOff_lt _))

theorem joinDelta_patch (l r : Delta) :
    (joinDelta l r).patch = join 0 l.patch r.patch :=
  Delta.make_patch

/-- `merge_off + size - 16` does not wrap. -/
theorem delta_end (d : Delta) :
    sub64 (mergeOff d.bytes + d.bytes.length) pfsExtentHeadSize
      = d.patch.hi := by
  have h1 := d.head_le
  have h2 := d.fits
  rw [d.patch_hi, sub64_of_le (by omega)]
  · omega
  · simp only [pfsExtentHeadSize, vivefsExtentSize] at h1 h2 ⊢
    omega

/-- Storing the union's field touches the header alone. -/
theorem store_header {hd : Bytes} (hhd : hd.length = pfsExtentHeadSize)
    (o : Nat) (data : Bytes) :
    storeLe (hd ++ data) 2 2 o = .ok (overwrite hd 2 (leBytes 2 o) ++ data) := by
  have hlen := leBytes_length 2 o
  rw [pfsExtentHeadSize] at hhd
  rw [storeLe_ok (by rw [List.length_append]; omega),
    overwrite_append_left (by omega)]

/-- Where the union of two deltas begins is not past where it ends. -/
theorem union_begin_le (l r : Delta) :
    min (mergeOff l.bytes) (mergeOff r.bytes)
      ≤ max l.patch.hi r.patch.hi := by
  have hl : mergeOff l.bytes ≤ l.patch.hi := Nat.le_add_right _ _
  omega

/-- Both deltas' data fit the part of the buffer behind the header. -/
theorem union_fits (l r : Delta) {data : Bytes}
    (hdata : data.length = max l.patch.hi r.patch.hi
      - min (mergeOff l.bytes) (mergeOff r.bytes)) :
    mergeOff l.bytes - min (mergeOff l.bytes) (mergeOff r.bytes)
        + (dataOf l.bytes).length ≤ data.length
      ∧ mergeOff r.bytes - min (mergeOff l.bytes) (mergeOff r.bytes)
        + (dataOf r.bytes).length ≤ data.length := by
  rw [hdata]
  exact ⟨join_fits_left (l := l.patch) (r := r.patch),
    join_fits_right (l := l.patch) (r := r.patch)⟩

/-- `Merge` of two deltas. The string it was given is resized to the
header and the union of both ranges; both deltas' data are copied in, and
the header takes the lesser offset. -/
theorem associate_merge_spec (l r : Delta) {newValue hd data : Bytes}
    (hhd : hd.length = pfsExtentHeadSize)
    (hbuf : resize newValue (pfsExtentHeadSize + (max l.patch.hi r.patch.hi
      - min (mergeOff l.bytes) (mergeOff r.bytes))) = hd ++ data) :
    UseAssociateMerge.merge (some l.bytes) r.bytes newValue
      = .ok (overwrite hd 2
          (leBytes 2 (min (mergeOff l.bytes) (mergeOff r.bytes)))
        ++ overwrite (overwrite data
            (mergeOff l.bytes - min (mergeOff l.bytes) (mergeOff r.bytes))
            (dataOf l.bytes))
          (mergeOff r.bytes - min (mergeOff l.bytes) (mergeOff r.bytes))
          (dataOf r.bytes)) := by
  have hlhi := l.patch_hi_le
  have hrhi := r.patch_hi_le
  have hlo := union_begin_le l r
  have hsize : u64 (sub64 (max l.patch.hi r.patch.hi)
        (min (mergeOff l.bytes) (mergeOff r.bytes)) + pfsExtentHeadSize)
      = pfsExtentHeadSize + (max l.patch.hi r.patch.hi
          - min (mergeOff l.bytes) (mergeOff r.bytes)) := by
    simp only [vivefsExtentSize] at hlhi hrhi
    rw [sub64_of_le hlo (by omega), Nat.add_comm, u64_of_lt]
    simp only [pfsExtentHeadSize]
    omega
  have hdata : data.length = max l.patch.hi r.patch.hi
      - min (mergeOff l.bytes) (mergeOff r.bytes) := by
    have hlen := congrArg List.length hbuf
    rw [resize_length, List.length_append, hhd] at hlen
    omega
  obtain ⟨hfitl, hfitr⟩ := union_fits l r hdata
  rw [← overwrite_length hfitl] at hfitr
  rw [UseAssociateMerge.merge, l.load_mergeOff, ok_bind, r.load_mergeOff,
    ok_bind]
  dsimp only
  rw [delta_end, delta_end, hsize, hbuf,
    memcpy_past_head l.head_le l.length_lt hhd hfitl, ok_bind,
    memcpy_past_head r.head_le r.length_lt hhd hfitr, ok_bind,
    store_header hhd]

/-- The result is a delta again: from the lesser offset to the greater
end. The `(int16_t)` cast keeps the offset. -/
theorem associate_merge_delta (l r : Delta) (newValue : Bytes) :
    ∃ d : Delta, UseAssociateMerge.merge (some l.bytes) r.bytes newValue
        = .ok d.bytes
      ∧ mergeOff d.bytes = min (mergeOff l.bytes) (mergeOff r.bytes)
      ∧ d.patch.hi = max l.patch.hi r.patch.hi := by
  set o := min (mergeOff l.bytes) (mergeOff r.bytes) with ho
  set hi := max l.patch.hi r.patch.hi with hhi
  have hlo : o ≤ hi := union_begin_le l r
  have hle : hi ≤ vivefsExtentSize :=
    Nat.max_le.mpr ⟨l.patch_hi_le, r.patch_hi_le⟩
  have hoff : o < 65536 :=
    Nat.lt_of_le_of_lt (Nat.min_le_left _ _) (mergeOff_lt l.bytes)
  -- the resized string, split behind the header
  obtain ⟨hd, data, hbuf, hhd, hdata⟩ := resize_split newValue
    (Nat.le_add_right pfsExtentHeadSize (hi - o))
  rw [Nat.add_sub_cancel_left] at hdata
  obtain ⟨hfitl, hfitr⟩ := union_fits l r hdata
  rw [← overwrite_length hfitl] at hfitr
  have hmerge := associate_merge_spec l r hhd hbuf
  rw [← ho] at hmerge hfitl hfitr
  generalize hv : overwrite hd 2 (leBytes 2 o) ++ _ = v at hmerge
  have hfield : mergeOff v = o := by
    rw [← hv, mergeOff_overwrite hhd, Nat.mod_eq_of_lt hoff]
  have hlen : v.length = pfsExtentHeadSize + (hi - o) := by
    rw [← hv, List.length_append, overwrite_length hfitr,
      overwrite_length hfitl, hdata, overwrite_length, hhd]
    rw [leBytes_length, hhd, pfsExtentHeadSize]
    omega
  have hend : mergeOff v + (v.length - pfsExtentHeadSize) = hi := by omega
  refine ⟨⟨v, by omega, by omega⟩, hmerge, hfield, ?_⟩
  rw [Delta.patch_hi]
  exact hend

/-- Into an empty string: the zero-filled join. -/
theorem associate_merge_join (l r : Delta) :
    UseAssociateMerge.merge (some l.bytes) r.bytes []
      = .ok (joinDelta l r).bytes := by
  rw [associate_merge_spec l r List.length_replicate
    (by rw [resize_nil, List.replicate_add]), overwrite_zeroHead]
  rfl

/-- `_merge` of two deltas is `Merge`, unless one of them starts at the
offset that reads as a full bitmap: there the assertion fails. -/
theorem partialMerge_eq_associate (l r : Delta) (newValue : Bytes) :
    partialMerge l.bytes r.bytes newValue
      = if mergeOff l.bytes = pfsFullExtentBmp
            ∨ mergeOff r.bytes = pfsFullExtentBmp
        then .error .assertFailed
        else UseAssociateMerge.merge (some l.bytes) r.bytes newValue := by
  rw [partialMerge, merge, UseAssociateMerge.merge, l.load_mergeOff, ok_bind,
    r.load_mergeOff, ok_bind, ok_bind, ok_bind]
  split
  case isTrue => rw [throw_eq_error, error_bind]
  case isFalse => rfl

/-- A partial merge of two deltas is their zero-filled join, unless the
assertion fails. -/
theorem partialMerge_spec (l r : Delta) :
    partialMerge l.bytes r.bytes []
      = if mergeOff l.bytes = pfsFullExtentBmp
            ∨ mergeOff r.bytes = pfsFullExtentBmp
        then .error .assertFailed else .ok (joinDelta l r).bytes := by
  rw [partialMerge_eq_associate, associate_merge_join]

-- ====================================================== the two builds

/-- A delta merged into a whole extent with a zero header. -/
theorem associate_merge_base {data : Bytes}
    (hdata : data.length = vivefsExtentSize) (d : Delta) :
    UseAssociateMerge.merge (some (List.replicate pfsExtentHeadSize 0 ++ data))
        d.bytes []
      = .ok (List.replicate pfsExtentHeadSize 0 ++ d.patch.apply data) := by
  let base : Delta := Delta.make 0 data (by omega) (by decide)
  have hpatch : base.patch = ⟨0, data⟩ := Delta.make_patch
  have hoff : mergeOff base.bytes = 0 := congrArg Patch.off hpatch
  have hbytes : base.bytes = List.replicate pfsExtentHeadSize 0 ++ data := by
    show vnExtentHead 0 ++ data = _
    rw [show vnExtentHead 0 = List.replicate pfsExtentHeadSize 0 by decide]
  have hof : dataOf base.bytes = data := congrArg Patch.data hpatch
  have hhi : max base.patch.hi d.patch.hi = vivefsExtentSize := by
    have hd := d.patch_hi_le
    rw [hpatch]
    show max (0 + data.length) d.patch.hi = vivefsExtentSize
    omega
  have hsplit : ∀ n, resize [] (pfsExtentHeadSize + n)
      = List.replicate pfsExtentHeadSize 0 ++ List.replicate n 0 :=
    fun n => by rw [resize_nil, List.replicate_add]
  have hspec := associate_merge_spec base d List.length_replicate (hsplit _)
  rw [hoff, hof, hhi, Nat.zero_min, Nat.sub_zero, Nat.sub_zero,
    overwrite_zeroHead, overwrite_all (by
      rw [List.length_replicate, hdata])] at hspec
  rw [← hbytes, hspec]
  rfl

/-- Both builds agree on a base and deltas, header included. -/
theorem builds_agree (data : Bytes) (hdata : data.length = vivefsExtentSize)
    (ops : List Delta) :
    ∃ v, UseAssociateMerge.foldMerge
          (List.replicate pfsExtentHeadSize 0 ++ data) (ops.map Delta.bytes)
        = .ok v
      ∧ fullMergeV2 (some (List.replicate pfsExtentHeadSize 0 ++ data))
          (ops.map Delta.bytes) [] = .ok v := by
  let base : FullExtent :=
    ⟨List.replicate pfsExtentHeadSize 0 ++ data, by
      rw [List.length_append, List.length_replicate, hdata]⟩
  have hbase : baseData (some base) = data :=
    List.drop_left' List.length_replicate
  refine ⟨_, ?_, fullMergeV2_spec (some base) ops⟩
  rw [hbase]
  -- the fold keeps a zero header and the whole range at every step
  clear hbase base
  induction ops generalizing data with
  | nil => rfl
  | cons d ops ih =>
      have hlen : (d.patch.apply data).length = vivefsExtentSize := by
        rw [Patch.apply_length (by rw [hdata]; exact d.patch_hi_le), hdata]
      rw [List.map_cons, UseAssociateMerge.foldMerge, List.foldlM_cons,
        associate_merge_base hdata d, ok_bind]
      exact ih (d.patch.apply data) hlen

/-- One byte at the last offset of an extent of ones. -/
theorem builds_agree_lastByte :
    ∃ v, UseAssociateMerge.foldMerge (List.replicate pfsExtentHeadSize 0
          ++ List.replicate vivefsExtentSize 1) [vnExtentHead 65535 ++ [7]]
        = .ok v
      ∧ fullMergeV2 (some (List.replicate pfsExtentHeadSize 0
          ++ List.replicate vivefsExtentSize 1)) [vnExtentHead 65535 ++ [7]] []
        = .ok v :=
  builds_agree (List.replicate vivefsExtentSize 1) List.length_replicate
    [Delta.make 65535 [7] (by rw [vivefsExtentSize]; decide) (by decide)]

end ViveNas
