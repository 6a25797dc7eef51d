/-
The merge operator of the data column (vn_data_merge.cpp) and the header
every extent value starts with (vn_vivenas_internal.h).

A value in data_cf is a 16-byte `vn_extent_head` followed by data. The
two bytes at offset 2 are a union: `merge_off` of a delta, `data_bmp` of
a base. Reading either reads the same bytes, which is why the assertion
of `merge` constrains a write offset.

`ViveDataMergeOperator` is the operator of the default build, `merge` its
`_merge`; `UseAssociateMerge` is the operator of the build with that
switch on. The branch under `#if 0` is not modelled.
-/
import ViveNas.Machine

namespace ViveNas

open LittleEndian Overlay

-- ========================================================== the header

/-- `VIVEFS_EXTENT_SIZE`, 64 KiB. Irreducible: nothing should ever compute
an extent-sized list by unfolding. -/
@[irreducible] def vivefsExtentSize : Nat := 65536

/-- `PFS_EXTENT_HEAD_SIZE`, the size of `vn_extent_head`. -/
def pfsExtentHeadSize : Nat := 16

/-- `PFS_FULL_EXTENT_BMP`. -/
def pfsFullExtentBmp : Nat := 0xffff

/-- A `vn_extent_head` zeroed except for its `merge_off`/`data_bmp`
union: flags, pad0, the union, pad1. -/
def vnExtentHead (mergeOff : Nat) : Bytes :=
  [0, 0] ++ leBytes 2 mergeOff ++ List.replicate 12 0

/-- The `merge_off` field of a value's header; `data_bmp` is the same
two bytes. -/
def mergeOff (value : Bytes) : Nat := leNat ((value.drop 2).take 2)

-- ===================================================== the operations

namespace ViveDataMergeOperator

/-- `_merge`: the union of the two ranges, right over left, in a freshly
resized buffer. -/
def merge (existing : Option Bytes) (value newValue : Bytes) :
    Except Fault Bytes :=
  match existing with
  | none => memcpy (resize newValue value.length) 0 value 0 value.length
  | some left => do
      let leftOff ← loadLe left 2 2
      let rightOff ← loadLe value 2 2
      if leftOff = pfsFullExtentBmp ∨ rightOff = pfsFullExtentBmp then
        throw .assertFailed
      let extBegin := min leftOff rightOff
      let extEnd := max (sub64 (leftOff + left.length) pfsExtentHeadSize)
        (sub64 (rightOff + value.length) pfsExtentHeadSize)
      let buf := resize newValue
        (u64 (sub64 extEnd extBegin + pfsExtentHeadSize))
      let buf ← memcpy buf (pfsExtentHeadSize + (leftOff - extBegin))
        left pfsExtentHeadSize (sub64 left.length pfsExtentHeadSize)
      let buf ← memcpy buf (pfsExtentHeadSize + (rightOff - extBegin))
        value pfsExtentHeadSize (sub64 value.length pfsExtentHeadSize)
      -- the (int16_t) cast keeps the low 16 bits, as the field does
      storeLe buf 2 2 extBegin

/-- `PartialMerge`: two operands into one. -/
def partialMerge (leftOperand rightOperand newValue : Bytes) :
    Except Fault Bytes :=
  merge (some leftOperand) rightOperand newValue

/-- The operand loop of `FullMergeV2`: each operand is copied to its own
offset of the extent buffer; an empty one is skipped. -/
def overlayOperands : List Bytes → Bytes → Except Fault Bytes
  | [], buf => .ok buf
  | value :: rest, buf =>
      if value.length = 0 then overlayOperands rest buf
      else do
        let off ← loadLe value 2 2
        let buf ← memcpy buf (pfsExtentHeadSize + off) value
          pfsExtentHeadSize (sub64 value.length pfsExtentHeadSize)
        overlayOperands rest buf

/-- The base step of `FullMergeV2`: the existing value's data, if any. -/
def copyExisting (existing : Option Bytes) (buf : Bytes) :
    Except Fault Bytes :=
  match existing with
  | none => .ok buf
  | some e =>
      memcpy buf pfsExtentHeadSize e pfsExtentHeadSize
        (sub64 e.length pfsExtentHeadSize)

/-- `FullMergeV2`: the existing value, then every operand, over an
extent-sized buffer. -/
def fullMergeV2 (existing : Option Bytes) (operands : List Bytes)
    (newValue : Bytes) : Except Fault Bytes := do
  let buf := resize newValue (vivefsExtentSize + pfsExtentHeadSize)
  let buf ← copyExisting existing buf
  overlayOperands operands buf

end ViveDataMergeOperator

namespace UseAssociateMerge

/-- `Merge`: what `_merge` does, but for its assertion. -/
def merge (existing : Option Bytes) (value newValue : Bytes) :
    Except Fault Bytes :=
  match existing with
  | none => memcpy (resize newValue value.length) 0 value 0 value.length
  | some left => do
      let leftOff ← loadLe left 2 2
      let rightOff ← loadLe value 2 2
      let extBegin := min leftOff rightOff
      let extEnd := max (sub64 (leftOff + left.length) pfsExtentHeadSize)
        (sub64 (rightOff + value.length) pfsExtentHeadSize)
      let buf := resize newValue
        (u64 (sub64 extEnd extBegin + pfsExtentHeadSize))
      let buf ← memcpy buf (pfsExtentHeadSize + (leftOff - extBegin))
        left pfsExtentHeadSize (sub64 left.length pfsExtentHeadSize)
      let buf ← memcpy buf (pfsExtentHeadSize + (rightOff - extBegin))
        value pfsExtentHeadSize (sub64 value.length pfsExtentHeadSize)
      storeLe buf 2 2 extBegin

/-- The operands merged into a base one by one, each into a fresh
string, as RocksDB's associative operators are. -/
def foldMerge (base : Bytes) (operands : List Bytes) : Except Fault Bytes :=
  operands.foldlM (fun existing value => merge (some existing) value []) base

end UseAssociateMerge

-- ==================================================== values, by kind

/-- A delta: a header and data that ends inside the extent. This is what
the write path hands to `Merge`. -/
structure Delta where
  bytes : Bytes
  head_le : pfsExtentHeadSize ≤ bytes.length
  fits : mergeOff bytes + (bytes.length - pfsExtentHeadSize)
    ≤ vivefsExtentSize

/-- A base: a header and a whole extent of data. This is what the write
path hands to `Put`, and what `FullMergeV2` produces. -/
structure FullExtent where
  bytes : Bytes
  size_eq : bytes.length = pfsExtentHeadSize + vivefsExtentSize

/-- The data bytes of a value. -/
def dataOf (value : Bytes) : Bytes := value.drop pfsExtentHeadSize

/-- A delta as a patch of the extent's data. -/
def Delta.patch (d : Delta) : Patch UInt8 :=
  ⟨mergeOff d.bytes, dataOf d.bytes⟩

/-- The data a merge starts from: the base's, or zeros. -/
def baseData : Option FullExtent → Bytes
  | none => List.replicate vivefsExtentSize 0
  | some b => dataOf b.bytes

end ViveNas
