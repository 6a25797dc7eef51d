/-
The file half of vn_file.cpp: opening, writing, reading, syncing and
closing.

# Handles

A `ViveFile` holds its inode by value. Two handles from two `vn_open_file`
calls own two inodes, and nothing ties them to each other but the store;
handles that share one in-memory inode are modelled by passing the same
inode to both (Proofs/Refinement.lean).

# The segment loop

`vn_write`, `vn_writev`, `vn_read` and `vn_readv` walk the extents a range
touches with one shared shape: the range of indices comes from `startExt` and
`endExt`, the piece of each extent from `segmentStart` and `segmentLen`,
all in the source's `int64_t`/`size_t` mix. The loops take the number of
turns left as their recursion argument.

# Memory

The `malloc` of the segment buffer that `vn_write` and `vn_writev` start
with is taken to succeed. Where it fails the source returns before its
first store call, `vn_write` with -ENOMEM and `vn_writev` with -1.
-/
import ViveNas.Dir

namespace ViveNas

open LittleEndian

-- =============================================================== flags

def oCreat : UInt32 := 0o100
def oTrunc : UInt32 := 0o1000
def oNoatime : UInt32 := 0o1000000

/-- `flags & bit`. -/
def hasFlag (flags bit : UInt32) : Bool := flags &&& bit != 0

-- ============================================================= handles

structure ViveFile where
  inode : ViveInode
  iNo : UInt64
  noatime : Bool
  dirty : Bool
  deriving DecidableEq

/-- The handle `vn_open_file_by_inode` returns: a reference to the inode
and the noatime flag. -/
def newFile (inode : ViveInode) (flags : UInt32) : ViveFile where
  inode := { inode with refCnt := inode.refCnt + 1 }
  iNo := inode.iNo
  noatime := hasFlag flags oNoatime
  dirty := false

/-- `vn_open_file_by_inode`: the handle, or `none` for NULL, and the
caller's inode after the call. -/
def vnOpenFileByInode (inode : ViveInode) (flags : UInt32) :
    Fs (Option ViveFile × ViveInode) :=
  if hasFlag flags oTrunc then do
    Fs.beginTransaction .metaOpt
    match ← Fs.getForUpdate .metaCf (inodeKey inode.iNo.toNat) with
    | .ok _ =>
      let extCnt ← Fs.lift (extentCount inode)
      deleteExtents .dataCf inode.iNo.toNat extCnt 0
      let inode := { inode with iSize := 0 }
      match ← vnPersistInodeTx inode with
      | .failed =>
        Fs.rollback
        return (none, inode)
      | .ok =>
        match ← Fs.commit with
        | .failed =>
          Fs.rollback
          return (none, inode)
        | .ok =>
          let file := newFile inode flags
          return (some file, file.inode)
    | _ =>
      Fs.rollback
      return (none, inode)
  else
    let file := newFile inode flags
    return (some file, file.inode)

/-- `vn_open_file` from the inode number on: fetch the record, open it,
and drop the reference the fetch held. -/
def openByNumber (ino : Nat) (flags : UInt32) : Fs (Option ViveFile) := do
  match ← Fs.get .metaCf (inodeKey ino) with
  | .notFound => return none
  | status =>
    let inode ← Fs.lift (deserializeInode status.slice)
    let (file, inode) ← vnOpenFileByInode inode flags
    return file.map fun f =>
      { f with inode := { inode with refCnt := inode.refCnt - 1 } }

/-- `vn_open_file`. -/
def vnOpenFile (parent : Int) (name : FileName) (flags : UInt32)
    (mode : UInt16) : Fs (Option ViveFile) := do
  match ← Fs.get .metaCf (fileKey parent name) with
  | .notFound =>
    if hasFlag flags oCreat then
      let (ino, _) ← vnCreateFile parent name mode 0 0
      if ino < 0 then return none else openByNumber ino.toNat flags
    else return none
  | status =>
    let ino ← Fs.lift (loadInt64 status.slice)
    openByNumber ino flags

-- ==================================================== the segment loop

/-- `offset / i_extent_size`. -/
def startExt (extentSize offset : Nat) : Nat := offset / extentSize

/-- `(offset + len + i_extent_size - 1) / i_extent_size`, as `int64_t`. -/
def endExt (extentSize offset len : Nat) : Int :=
  asInt64 (u64 (offset + len + extentSize - 1) / extentSize)

/-- The number of turns of `for (index = start_ext; index < end_ext; ..)`. -/
def extentTurns (extentSize offset len : Nat) : Nat :=
  (endExt extentSize offset len - startExt extentSize offset).toNat

/-- `start_off`: where the next byte falls inside its extent. -/
def segmentStart (extentSize offset bufOffset : Nat) : Nat :=
  (offset + bufOffset) % extentSize

/-- `segment_len`: the rest of the data or of the extent. -/
def segmentLen (extentSize offset len bufOffset : Nat) : Nat :=
  min (sub64 len bufOffset)
    (sub64 extentSize (segmentStart extentSize offset bufOffset))

/-- One segment into the transaction: a whole extent is put, a piece of
one is merged at its offset. A failure is only logged. -/
def writeSegment (iNo extentSize index startOff : Nat) (data : Bytes) :
    Fs Unit := do
  if data.length ≠ extentSize then
    let _ ← Fs.merge (vnExtentKey index iNo)
      (vnExtentHead startOff ++ data)
  else
    let _ ← Fs.put .dataCf (vnExtentKey index iNo)
      (vnExtentHead startOff ++ data)

/-- `memcpy` out of the caller's buffer into the segment buffer. -/
def readBuf (inBuf : Bytes) (off n : Nat) : Except Fault Bytes :=
  if off + n ≤ inBuf.length then .ok ((inBuf.drop off).take n)
  else .error .outOfBounds

/-- The extent loop of `vn_write`. -/
def writeSegments (iNo extentSize offset : Nat) (inBuf : Bytes) :
    Nat → Nat → Nat → Fs Unit
  | 0, _, _ => pure ()
  | turns + 1, index, bufOffset => do
      let startOff := segmentStart extentSize offset bufOffset
      let len := segmentLen extentSize offset inBuf.length bufOffset
      let data ← Fs.lift (readBuf inBuf bufOffset len)
      writeSegment iNo extentSize index startOff data
      writeSegments iNo extentSize offset inBuf turns (index + 1)
        (bufOffset + len)

/-- What `vn_write` and `vn_writev` do after their loops: time stamps,
the size, the record if the file grew, and the commit. -/
def finishWrite (file : ViveFile) (offset len : Nat) :
    Fs (Int × ViveFile) := do
  let now ← Fs.time
  let file := { file with
    inode := { file.inode with iMtime := now }, dirty := true }
  if file.inode.iSize.toNat < u64 (offset + len) then
    let file := { file with
      inode := { file.inode with iSize := UInt64.ofNat (offset + len) } }
    match ← vnPersistInodeTx file.inode with
    | .failed =>
      Fs.rollback
      return (-eio, file)
    | .ok =>
      let file := { file with dirty := false }
      match ← Fs.commit with
      | .failed =>
        Fs.rollback
        return (-eio, file)
      | .ok => return (len, file)
  else
    match ← Fs.commit with
    | .failed =>
      Fs.rollback
      return (-eio, file)
    | .ok => return (len, file)

/-- `vn_write`. -/
def vnWrite (file : ViveFile) (inBuf : Bytes) (offset : Nat) :
    Fs (Int × ViveFile) := do
  let extentSize := file.inode.iExtentSize.toNat
  if extentSize = 0 then Prog.raise .divByZero
  else
    Fs.beginTransaction .dataOpt
    writeSegments file.iNo.toNat extentSize offset inBuf
      (extentTurns extentSize offset inBuf.length)
      (startExt extentSize offset) 0
    finishWrite file offset inBuf.length

-- ======================================================= scattered writes

/-- The cursor of `vn_writev` into its iovec list. -/
structure IovCursor where
  iovIdx : Nat
  inIovOff : Nat

/-- The inner copy loop of `vn_writev`, for at most `fuel` turns: what it
appends to the segment buffer and where the cursor ends. -/
def gatherIov (iov : List Bytes) :
    Nat → IovCursor → Nat → Except Fault (Bytes × IovCursor)
  | _, cur, 0 => .ok ([], cur)
  | 0, _, _ + 1 => .error .diverged
  | fuel + 1, cur, remain@(_ + 1) =>
      match iov[cur.iovIdx]? with
      | none => .error .outOfBounds
      | some base => do
          let toCopy := min (sub64 base.length cur.inIovOff) remain
          let chunk ← readBuf base cur.inIovOff toCopy
          let off := cur.inIovOff + toCopy
          let cur := if off = base.length then ⟨cur.iovIdx + 1, 0⟩
            else ⟨cur.iovIdx, off⟩
          let (rest, cur) ← gatherIov iov fuel cur (remain - toCopy)
          return (chunk ++ rest, cur)

/-- `len += in_iov[i].iov_len` over the list. -/
def iovLen (iov : List Bytes) : Nat := u64 (iov.map List.length).sum

/-- Turns that are enough for one inner loop: each copies a byte or moves
to the next entry. -/
def gatherFuel (iov : List Bytes) (remain : Nat) : Nat :=
  iov.length + remain

/-- The extent loop of `vn_writev`. -/
def writevSegments (iNo extentSize offset : Nat) (iov : List Bytes) :
    Nat → Nat → Nat → IovCursor → Fs Unit
  | 0, _, _, _ => pure ()
  | turns + 1, index, bufOffset, cur => do
      let startOff := segmentStart extentSize offset bufOffset
      let len := segmentLen extentSize offset (iovLen iov) bufOffset
      if len = 0 then Prog.raise .assertFailed
      else
        let (data, cur) ← Fs.lift (gatherIov iov (gatherFuel iov len) cur len)
        writeSegment iNo extentSize index startOff data
        writevSegments iNo extentSize offset iov turns (index + 1)
          (bufOffset + len) cur

/-- `vn_writev`. -/
def vnWritev (file : ViveFile) (iov : List Bytes) (offset : Nat) :
    Fs (Int × ViveFile) := do
  let extentSize := file.inode.iExtentSize.toNat
  if extentSize = 0 then Prog.raise .divByZero
  else
    Fs.beginTransaction .dataOpt
    writevSegments file.iNo.toNat extentSize offset iov
      (extentTurns extentSize offset (iovLen iov))
      (startExt extentSize offset) 0 ⟨0, 0⟩
    finishWrite file offset (iovLen iov)

-- =============================================================== reading

/-- The extent loop of `vn_read` over the clipped length `len`; the
caller's buffer is threaded through. -/
def readSegments (iNo extentSize offset len : Nat) :
    Nat → Nat → Nat → Bytes → Fs Bytes
  | 0, _, _, outBuf => pure outBuf
  | turns + 1, index, bufOffset, outBuf => do
      let n := segmentLen extentSize offset len bufOffset
      let status ← Fs.get .dataCf (vnExtentKey index iNo)
      let segmentData := status.slice
      let outBuf ← Fs.lift
        (if 0 < segmentData.length then
          memcpy outBuf bufOffset segmentData pfsExtentHeadSize n
        else memset0 outBuf bufOffset n)
      readSegments iNo extentSize offset len turns (index + 1)
        (bufOffset + n) outBuf

/-- The access-time update at the end of a read. -/
def touchAtime (file : ViveFile) : Fs ViveFile :=
  if file.noatime then pure file
  else do
    let now ← Fs.time
    return { file with
      inode := { file.inode with iAtime := now }, dirty := true }

/-- `vn_read` into a buffer of `len` bytes: the count returned, the
buffer and the handle after the call. -/
def vnRead (file : ViveFile) (outBuf : Bytes) (offset : Nat) :
    Fs (Nat × Bytes × ViveFile) := do
  let extentSize := file.inode.iExtentSize.toNat
  if extentSize = 0 then Prog.raise .divByZero
  else
    -- end_ext is taken from the length before it is clipped
    let turns := extentTurns extentSize offset outBuf.length
    let len :=
      if file.inode.iSize.toNat < u64 (offset + outBuf.length) then
        sub64 file.inode.iSize.toNat offset
      else outBuf.length
    let outBuf ← readSegments file.iNo.toNat extentSize offset len turns
      (startExt extentSize offset) 0 outBuf
    let file ← touchAtime file
    return (len, outBuf, file)

-- ======================================================= scattered reads

/-- The inner copy loops of `vn_readv`, for at most `fuel` turns. The two
differ in how they fill a piece of an entry: `fill base inIovOff off n`
copies from `off` of the segment's data, or clears. -/
def scatterIov (fill : Bytes → Nat → Nat → Nat → Except Fault Bytes) :
    Nat → List Bytes → IovCursor → Nat → Nat →
      Except Fault (List Bytes × IovCursor)
  | _, iov, cur, _, 0 => .ok (iov, cur)
  | 0, _, _, _, _ + 1 => .error .diverged
  | fuel + 1, iov, cur, off, remain@(_ + 1) =>
      match iov[cur.iovIdx]? with
      | none => .error .outOfBounds
      | some base => do
          let toCopy := min (sub64 base.length cur.inIovOff) remain
          let filled ← fill base cur.inIovOff off toCopy
          let inOff := cur.inIovOff + toCopy
          let next := if inOff = base.length then ⟨cur.iovIdx + 1, 0⟩
            else ⟨cur.iovIdx, inOff⟩
          scatterIov fill fuel (iov.set cur.iovIdx filled) next (off + toCopy)
            (remain - toCopy)

/-- `memcpy` from the segment's data. -/
def fillData (segmentData base : Bytes) (inIovOff off n : Nat) :
    Except Fault Bytes :=
  memcpy base inIovOff segmentData (pfsExtentHeadSize + off) n

/-- `memset` to zero. -/
def fillZero (base : Bytes) (inIovOff _off n : Nat) : Except Fault Bytes :=
  memset0 base inIovOff n

/-- The extent loop of `vn_readv` over the clipped length `len`; the
caller's buffers and the cursor into them are threaded through. -/
def readvSegments (iNo extentSize offset len : Nat) :
    Nat → Nat → Nat → List Bytes → IovCursor → Fs (List Bytes)
  | 0, _, _, iov, _ => pure iov
  | turns + 1, index, bufOffset, iov, cur => do
      let n := segmentLen extentSize offset len bufOffset
      let status ← Fs.get .dataCf (vnExtentKey index iNo)
      let segmentData := status.slice
      let (iov, cur) ← Fs.lift
        (if 0 < segmentData.length then
          scatterIov (fillData segmentData) (gatherFuel iov n) iov cur 0 n
        else scatterIov fillZero (gatherFuel iov n) iov cur 0 n)
      readvSegments iNo extentSize offset len turns (index + 1)
        (bufOffset + n) iov cur

/-- `vn_readv` into the buffers of an iovec list: the count returned, the
buffers and the handle after the call. -/
def vnReadv (file : ViveFile) (iov : List Bytes) (offset : Nat) :
    Fs (Nat × List Bytes × ViveFile) := do
  let extentSize := file.inode.iExtentSize.toNat
  if extentSize = 0 then Prog.raise .divByZero
  else
    let turns := extentTurns extentSize offset (iovLen iov)
    let len :=
      if file.inode.iSize.toNat < u64 (offset + iovLen iov) then
        sub64 file.inode.iSize.toNat offset
      else iovLen iov
    let iov ← readvSegments file.iNo.toNat extentSize offset len turns
      (startExt extentSize offset) 0 iov ⟨0, 0⟩
    let file ← touchAtime file
    return (len, iov, file)

-- ============================================================== syncing

/-- `vn_fsync`. It returns -EIO on every path, as the source does. -/
def vnFsync (file : ViveFile) : Fs (Int × ViveFile) := do
  Fs.beginTransaction .dataOpt
  if file.dirty then
    match ← vnPersistInodeTx file.inode with
    | .failed =>
      Fs.rollback
      return (-eio, file)
    | .ok => syncCommit { file with dirty := false }
  else syncCommit file
where
  syncCommit (file : ViveFile) : Fs (Int × ViveFile) := do
    match ← Fs.commit with
    | .failed =>
      Fs.rollback
      return (-eio, file)
    | .ok =>
      let _ ← Fs.flushWAL
      Fs.rollback
      return (-eio, file)

/-- `vn_close_file`: a sync whose result is ignored; the handle is gone
afterwards. -/
def vnCloseFile (file : ViveFile) : Fs Int := do
  let _ ← vnFsync file
  return 0

/-- `vn_persist_inode`. -/
def vnPersistInode (inode : ViveInode) : Fs Int := do
  Fs.beginTransaction .dataOpt
  match ← vnPersistInodeTx inode with
  | .failed =>
    Fs.rollback
    return -eio
  | .ok =>
    match ← Fs.commit with
    | .failed =>
      Fs.rollback
      return -eio
    | .ok =>
      Fs.rollback
      return 0

end ViveNas
