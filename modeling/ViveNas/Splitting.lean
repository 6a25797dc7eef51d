/-
The extent loop's own arithmetic, with nothing taken modulo anything.

`vn_write`, `vn_writev`, `vn_read` and `vn_readv` split a range over
extents with the same few lines, in which an `off_t`, a `size_t` and the
`__le32` extent size meet. File.lean has them as the machine runs them,
wrapping where it wraps. Here every conversion and every operation is
checked against the type it is made in, so that a walk which comes to an
end is one in which nothing wrapped.

# Segments

`segments` is the list of pieces the loops of File.lean visit, and
`runSegments` is a loop over such a list: the four loops differ in what
they do with a piece, not in the pieces.
-/
import ViveNas.File

namespace ViveNas

-- ====================================================== checked values

/-- A value that has to be an `int64_t`. -/
def int64 (x : Int) : Except Fault Int :=
  if -2 ^ 63 ≤ x ∧ x < 2 ^ 63 then .ok x else .error .overflow

/-- A value that has to be a `size_t`. -/
def sizeT (x : Int) : Except Fault Int :=
  if 0 ≤ x ∧ x < 2 ^ 64 then .ok x else .error .overflow

-- ==================================================== the loop, checked

/-- `start_ext` and `end_ext`. The first is a quotient of `int64_t`s; in
the second `len` makes every operand a `size_t`. -/
def mixedBounds (extentSize offset len : Int) : Except Fault (Int × Int) := do
  let startExt ← int64 (offset.tdiv extentSize)
  let last ← sizeT offset
  let last ← sizeT (last + len)
  let last ← sizeT (last + extentSize)
  let last ← sizeT (last - 1)
  let endExt ← int64 (last.tdiv extentSize)
  return (startExt, endExt)

/-- One turn: `start_off`, `segment_len`, and `buf_offset` after it. -/
def mixedTurn (extentSize offset len bufOffset : Int) :
    Except Fault (Int × Int × Int) := do
  let pos ← int64 (offset + bufOffset)
  let startOff ← int64 (pos.tmod extentSize)
  let done ← sizeT bufOffset
  let left ← sizeT (len - done)
  let before ← sizeT startOff
  let room ← sizeT (extentSize - before)
  let segmentLen := min left room
  let next ← sizeT (done + segmentLen)
  let next ← int64 next
  return (startOff, segmentLen, next)

/-- The loop from `index` on, for at most `fuel` tests of its condition:
`(index, start_off, segment_len)` of each turn. -/
def mixedLoop (extentSize offset len endExt : Int) :
    Nat → Int → Int → Except Fault (List (Int × Int × Int))
  | 0, _, _ => .error .diverged
  | fuel + 1, index, bufOffset =>
      if index < endExt then do
        let (startOff, segmentLen, next) ←
          mixedTurn extentSize offset len bufOffset
        let nextIndex ← int64 (index + 1)
        let rest ← mixedLoop extentSize offset len endExt fuel nextIndex next
        return (index, startOff, segmentLen) :: rest
      else .ok []

/-- The whole walk over `len` bytes at `offset`. -/
def mixedSegments (extentSize offset len : Int) :
    Except Fault (List (Int × Int × Int)) := do
  let (startExt, endExt) ← mixedBounds extentSize offset len
  mixedLoop extentSize offset len endExt ((endExt - startExt).toNat + 1)
    startExt 0

-- ========================================= the pieces of the four loops

/-- A piece of an extent. -/
structure Segment where
  index : Nat
  startOff : Nat
  len : Nat
  deriving DecidableEq

def Segment.ints (g : Segment) : Int × Int × Int :=
  (g.index, g.startOff, g.len)

/-- The pieces of the turns that are left. -/
def segmentsFrom (extentSize offset len : Nat) :
    Nat → Nat → Nat → List Segment
  | 0, _, _ => []
  | turns + 1, index, bufOffset =>
      let n := segmentLen extentSize offset len bufOffset
      ⟨index, segmentStart extentSize offset bufOffset, n⟩
        :: segmentsFrom extentSize offset len turns (index + 1)
          (bufOffset + n)

/-- The pieces a loop over `len` bytes at `offset` visits. -/
def segments (extentSize offset len : Nat) : List Segment :=
  segmentsFrom extentSize offset len (extentTurns extentSize offset len)
    (startExt extentSize offset) 0

/-- A loop over pieces: `body` gets the piece and the number of bytes
before it, `finish` what the last turn left. -/
def runSegments {σ β : Type} (body : Segment → Nat → σ → Fs σ)
    (finish : σ → β) : List Segment → Nat → σ → Fs β
  | [], _, s => pure (finish s)
  | g :: segs, bufOffset, s => do
      let s ← body g bufOffset s
      runSegments body finish segs (bufOffset + g.len) s

/-- A turn of `vn_write`. -/
def writeTurn (iNo extentSize : Nat) (inBuf : Bytes) (g : Segment)
    (bufOffset : Nat) (_ : Unit) : Fs Unit := do
  let data ← Fs.lift (readBuf inBuf bufOffset g.len)
  writeSegment iNo extentSize g.index g.startOff data

/-- A turn of `vn_writev`. -/
def writevTurn (iNo extentSize : Nat) (iov : List Bytes) (g : Segment)
    (_ : Nat) (cur : IovCursor) : Fs IovCursor :=
  if g.len = 0 then Prog.raise .assertFailed
  else do
    let (data, cur) ← Fs.lift (gatherIov iov (gatherFuel iov g.len) cur g.len)
    writeSegment iNo extentSize g.index g.startOff data
    return cur

/-- A turn of `vn_read`. -/
def readTurn (iNo : Nat) (g : Segment) (bufOffset : Nat) (outBuf : Bytes) :
    Fs Bytes := do
  let status ← Fs.get .dataCf (vnExtentKey g.index iNo)
  let segmentData := status.slice
  Fs.lift
    (if 0 < segmentData.length then
      memcpy outBuf bufOffset segmentData pfsExtentHeadSize g.len
    else memset0 outBuf bufOffset g.len)

/-- A turn of `vn_readv`. -/
def readvTurn (iNo : Nat) (g : Segment) (_ : Nat)
    (s : List Bytes × IovCursor) : Fs (List Bytes × IovCursor) := do
  let status ← Fs.get .dataCf (vnExtentKey g.index iNo)
  let segmentData := status.slice
  Fs.lift
    (if 0 < segmentData.length then
      scatterIov (fillData segmentData) (gatherFuel s.1 g.len) s.1 s.2 0 g.len
    else scatterIov fillZero (gatherFuel s.1 g.len) s.1 s.2 0 g.len)

end ViveNas
