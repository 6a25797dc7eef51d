/-
`ViveInode` (vn_vivenas.h) and its 256-byte record.

The record is the struct itself, field after field in declaration order,
little-endian and without padding. `_reserve[23]`, which no modelled
function reads, is kept as its 184 raw bytes. `ref_cnt` is part of the
record although it only means something in memory: it is written out as
it stands and reset to one on the way in.
-/
import ViveNas.Machine

namespace ViveNas

open LittleEndian

/-- `ViveInode`, in the order of its members. -/
structure ViveInode where
  iNo : UInt64
  iSize : UInt64
  iAtime : UInt64
  iCtime : UInt64
  iMtime : UInt64
  iDtime : UInt64
  iMode : UInt16
  iUid : UInt16
  iGid : UInt16
  iLinksCount : UInt16
  iFlags : UInt32
  iExtentSize : UInt32
  reserve : Vector UInt8 184
  reserve1 : UInt32
  refCnt : UInt32
  deriving DecidableEq

/-- `VIVEFS_INODE_SIZE`. -/
def vivefsInodeSize : Nat := 256

-- ========================================================== the record

/-- The struct's bytes. -/
def ViveInode.toBytes (n : ViveInode) : Bytes :=
  leBytes 8 n.iNo.toNat ++ (leBytes 8 n.iSize.toNat ++
  (leBytes 8 n.iAtime.toNat ++ (leBytes 8 n.iCtime.toNat ++
  (leBytes 8 n.iMtime.toNat ++ (leBytes 8 n.iDtime.toNat ++
  (leBytes 2 n.iMode.toNat ++ (leBytes 2 n.iUid.toNat ++
  (leBytes 2 n.iGid.toNat ++ (leBytes 2 n.iLinksCount.toNat ++
  (leBytes 4 n.iFlags.toNat ++ (leBytes 4 n.iExtentSize.toNat ++
  (n.reserve.toList ++
  (leBytes 4 n.reserve1.toNat ++ leBytes 4 n.refCnt.toNat)))))))))))))

/-- The next `w`-byte field of a struct, and what follows it. -/
def readLe (w : Nat) (b : Bytes) : Nat × Bytes :=
  (leNat (b.take w), b.drop w)

/-- The struct that bytes spell, read field after field. -/
def ViveInode.ofBytes (b : Bytes) : ViveInode :=
  let (iNo, b) := readLe 8 b
  let (iSize, b) := readLe 8 b
  let (iAtime, b) := readLe 8 b
  let (iCtime, b) := readLe 8 b
  let (iMtime, b) := readLe 8 b
  let (iDtime, b) := readLe 8 b
  let (iMode, b) := readLe 2 b
  let (iUid, b) := readLe 2 b
  let (iGid, b) := readLe 2 b
  let (iLinksCount, b) := readLe 2 b
  let (iFlags, b) := readLe 4 b
  let (iExtentSize, b) := readLe 4 b
  let reserve := Vector.ofFn fun i : Fin 184 => b.getD i.val 0
  let b := b.drop 184
  let (reserve1, b) := readLe 4 b
  let (refCnt, _) := readLe 4 b
  { iNo := UInt64.ofNat iNo
    iSize := UInt64.ofNat iSize
    iAtime := UInt64.ofNat iAtime
    iCtime := UInt64.ofNat iCtime
    iMtime := UInt64.ofNat iMtime
    iDtime := UInt64.ofNat iDtime
    iMode := UInt16.ofNat iMode
    iUid := UInt16.ofNat iUid
    iGid := UInt16.ofNat iGid
    iLinksCount := UInt16.ofNat iLinksCount
    iFlags := UInt32.ofNat iFlags
    iExtentSize := UInt32.ofNat iExtentSize
    reserve := reserve
    reserve1 := UInt32.ofNat reserve1
    refCnt := UInt32.ofNat refCnt }

/-- `deserialize_inode`: a copy of the record with a fresh reference
count. A shorter value would be read past its end. -/
def deserializeInode (buf : Bytes) : Except Fault ViveInode :=
  if vivefsInodeSize ≤ buf.length then
    .ok { ViveInode.ofBytes buf with refCnt := 1 }
  else .error .outOfBounds

/-- `vn_alloc_inode`: a zeroed inode holding one reference. -/
def vnAllocInode : ViveInode where
  iNo := 0
  iSize := 0
  iAtime := 0
  iCtime := 0
  iMtime := 0
  iDtime := 0
  iMode := 0
  iUid := 0
  iGid := 0
  iLinksCount := 0
  iFlags := 0
  iExtentSize := 0
  reserve := Vector.replicate 184 0
  reserve1 := 0
  refCnt := 1

-- ====================================================== the round trip

@[simp] theorem ViveInode.toBytes_length (n : ViveInode) :
    n.toBytes.length = vivefsInodeSize := by
  simp [toBytes, vivefsInodeSize]

/-- A field that was written is read back, and the rest of the record is
left for the next one. -/
theorem readLe_leBytes {w n : Nat} (h : n < 256 ^ w) (rest : Bytes) :
    readLe w (leBytes w n ++ rest) = (n, rest) := by
  have hlen := leBytes_length w n
  rw [readLe, List.take_left' hlen, List.drop_left' hlen,
    leNat_leBytes_of_lt h]

theorem readLe64 (x : UInt64) (rest : Bytes) :
    readLe 8 (leBytes 8 x.toNat ++ rest) = (x.toNat, rest) :=
  readLe_leBytes x.toNat_lt rest

theorem readLe16 (x : UInt16) (rest : Bytes) :
    readLe 2 (leBytes 2 x.toNat ++ rest) = (x.toNat, rest) :=
  readLe_leBytes x.toNat_lt rest

theorem readLe32 (x : UInt32) (rest : Bytes) :
    readLe 4 (leBytes 4 x.toNat ++ rest) = (x.toNat, rest) :=
  readLe_leBytes x.toNat_lt rest

/-- A record read back is the struct it was written from. -/
theorem ViveInode.ofBytes_toBytes (n : ViveInode) :
    ofBytes n.toBytes = n := by
  have hlast : readLe 4 (leBytes 4 n.refCnt.toNat) = (n.refCnt.toNat, []) := by
    have h := readLe32 n.refCnt []
    rwa [List.append_nil] at h
  have hres : n.reserve.toList.length = 184 := Vector.length_toList
  have hvec : ∀ tl : Bytes,
      (Vector.ofFn fun i : Fin 184 => (n.reserve.toList ++ tl).getD i.val 0)
        = n.reserve := by
    intro tl
    apply Vector.ext
    intro i hi
    rw [Vector.getElem_ofFn, List.getD_eq_getElem?_getD,
      List.getElem?_append_left (by omega)]
    simp [hi]
  unfold ofBytes toBytes
  simp only [readLe64, readLe16, readLe32, hvec, List.drop_left' hres, hlast,
    UInt64.ofNat_toNat, UInt32.ofNat_toNat, UInt16.ofNat_toNat]

/-- A record determines its inode. -/
theorem ViveInode.toBytes_inj {m n : ViveInode}
    (h : m.toBytes = n.toBytes) : m = n := by
  rw [← ofBytes_toBytes m, h, ofBytes_toBytes]

/-- A record deserialised: the struct with its reference count reset. -/
theorem deserializeInode_toBytes (n : ViveInode) :
    deserializeInode n.toBytes = .ok { n with refCnt := 1 } := by
  rw [deserializeInode, if_pos (by rw [n.toBytes_length]),
    ViveInode.ofBytes_toBytes]

/-- The first field of a record is its number. -/
theorem ViveInode.leNat_take_toBytes (n : ViveInode) :
    leNat (n.toBytes.take 8) = n.iNo.toNat := by
  rw [toBytes, List.take_left' (leBytes_length 8 _)]
  exact leNat_leBytes_of_lt n.iNo.toNat_lt

end ViveNas
