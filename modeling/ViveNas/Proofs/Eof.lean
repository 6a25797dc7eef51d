/-
Reads at and past the end of file.

`vn_read` and `vn_readv` clip their length to `i_size - offset`, an
unsigned subtraction. Up to the end of file that is what is left to read:
the count returned, and all that is stored in the caller's buffer. Past
the end it wraps, and the wrapped length is both returned and used: each
piece then runs to the end of its extent, whatever the caller's buffer
can hold (`vnRead_overruns`).
-/
import ViveNas.Proofs.Scatter

namespace ViveNas

open Overlay Paging

variable {w w' : World} {file file' : ViveFile} {offset : Nat}

-- ============================================================ the property

/-- The bytes left to read. -/
def ViveFile.left (file : ViveFile) (offset len : Nat) : Nat :=
  min len (file.inode.iSize.toNat - offset)

/-- `vn_read` returns the bytes left, and stores nothing past them; a
store outside the buffer would be a fault. -/
def ReadsWithin (w : World) (file : ViveFile) (outBuf : Bytes)
    (offset : Nat) : Prop :=
  ∃ out file' w', (vnRead file outBuf offset).exec w
      = .ok ((file.left offset outBuf.length, out, file'), w')
    ∧ out.length = outBuf.length
    ∧ out.drop (file.left offset outBuf.length)
      = outBuf.drop (file.left offset outBuf.length)

/-- The same of `vn_readv` and its buffers. -/
def ReadvWithin (w : World) (file : ViveFile) (iov : List Bytes)
    (offset : Nat) : Prop :=
  ∃ iov' file' w', (vnReadv file iov offset).exec w
      = .ok ((file.left offset iov.flatten.length, iov', file'), w')
    ∧ iov'.map List.length = iov.map List.length
    ∧ iov'.flatten.drop (file.left offset iov.flatten.length)
      = iov.flatten.drop (file.left offset iov.flatten.length)

-- ============================================================ the wrapping

/-- Past the end of file the clipped length is not a length. -/
theorem clipped_wraps {n : Nat} {size : UInt64} (hoff : size.toNat < offset)
    (hrange : offset + n < 2 ^ 63) :
    (if size.toNat < u64 (offset + n) then sub64 size.toNat offset else n)
      = 2 ^ 64 - (offset - size.toNat) := by
  rw [u64_of_lt (by omega), if_pos (by omega), sub64, u64_of_lt (by omega)]
  omega

/-- The count `vn_read` returns, if it returns. -/
theorem vnRead_count {outBuf out : Bytes} {n : Nat}
    (hx : (vnRead file outBuf offset).exec w = .ok ((n, out, file'), w')) :
    n = if file.inode.iSize.toNat < u64 (offset + outBuf.length) then
      sub64 file.inode.iSize.toNat offset else outBuf.length := by
  rw [vnRead] at hx
  dsimp only at hx
  split at hx
  · cases hx
  · obtain ⟨out₁, w₁, -, hrest⟩ := exec_bind_inv hx
    obtain ⟨file₁, w₂, -, hret⟩ := exec_bind_inv hrest
    cases hret
    rfl

/-- The count `vn_readv` returns, if it returns. -/
theorem vnReadv_count {iov iov' : List Bytes} {n : Nat}
    (hx : (vnReadv file iov offset).exec w = .ok ((n, iov', file'), w')) :
    n = if file.inode.iSize.toNat < u64 (offset + iovLen iov) then
      sub64 file.inode.iSize.toNat offset else iovLen iov := by
  rw [vnReadv] at hx
  dsimp only at hx
  split at hx
  · cases hx
  · obtain ⟨iov₁, w₁, -, hrest⟩ := exec_bind_inv hx
    obtain ⟨file₁, w₂, -, hret⟩ := exec_bind_inv hrest
    cases hret
    rfl

/-- A read past the end of file that is shorter than the rest of its
first extent stores past the caller's buffer. -/
theorem vnRead_overruns {outBuf : Bytes}
    (hsize : file.inode.iExtentSize.toNat = vivefsExtentSize)
    (hwhole : ExtentsWhole w.db file.iNo.toNat)
    (hoff : file.inode.iSize.toNat < offset) (hpos : 0 < outBuf.length)
    (hshort : outBuf.length
      < vivefsExtentSize - offset % vivefsExtentSize)
    (hrange : offset + outBuf.length < 2 ^ 63) :
    (vnRead file outBuf offset).exec w = .error .outOfBounds := by
  have hE := extentSize_pos
  have hmod := Nat.mod_lt offset hE
  -- the loop makes a turn, since the range is not empty
  obtain ⟨turns, hturns⟩ := extentTurns_pos hE extentSize_le hrange hpos
  have hsegment : segmentLen vivefsExtentSize offset
      (2 ^ 64 - (offset - file.inode.iSize.toNat)) 0
      = vivefsExtentSize - offset % vivefsExtentSize := by
    have hle := extentSize_le
    rw [segmentLen, segmentStart, Nat.add_zero,
      sub64_of_le (Nat.zero_le _) (by omega),
      sub64_of_le (by omega) (by omega)]
    omega
  obtain ⟨status, hget, hslice⟩ := get_extent hwhole
    (startExt vivefsExtentSize offset)
  have hcopy : (if 0 < status.slice.length then
        memcpy outBuf 0 status.slice pfsExtentHeadSize
          (vivefsExtentSize - offset % vivefsExtentSize)
      else memset0 outBuf 0
        (vivefsExtentSize - offset % vivefsExtentSize))
      = .error .outOfBounds := by
    split
    · rw [memcpy, if_neg (by omega)]
    · rw [memset0, if_neg (by omega)]
  rw [vnRead, hsize, if_neg (by omega)]
  dsimp only
  rw [clipped_wraps hoff hrange, hturns, readSegments]
  dsimp only
  rw [hsegment]
  refine exec_bind_error ?_
  rw [exec_bind_ok hget]
  exact exec_bind_error (exec_lift_error hcopy)

-- ================================================================ the law

/-- Both calls keep to the end of file and to the caller's buffer exactly
when they start no later than the end of file. -/
theorem reads_within_iff (w : World) (file : ViveFile) (outBuf : Bytes)
    (iov : List Bytes) (offset : Nat)
    (hE : 0 < file.inode.iExtentSize.toNat)
    (hE' : file.inode.iExtentSize.toNat ≤ vivefsExtentSize)
    (hwhole : ExtentsWhole w.db file.iNo.toNat)
    (hread : offset + outBuf.length < 2 ^ 63)
    (hreadv : offset + iov.flatten.length < 2 ^ 63) :
    (ReadsWithin w file outBuf offset ↔ offset ≤ file.inode.iSize.toNat)
      ∧ (ReadvWithin w file iov offset
        ↔ offset ≤ file.inode.iSize.toNat) := by
  refine ⟨⟨?_, fun hoff => ?_⟩, ⟨?_, fun hoff => ?_⟩⟩
  · rintro ⟨out, file', w', hexec, -⟩
    by_contra hpast
    have hcount := vnRead_count hexec
    rw [clipped_wraps (by omega) hread, ViveFile.left] at hcount
    omega
  · have hone : outBuf.length = [outBuf].flatten.length := by simp
    obtain ⟨copied, iov', file', w', hcopied, hexec, -⟩ :=
      exec_read_readv w file outBuf [outBuf] offset hE hE' hwhole hoff hone
        (by omega) rfl
    rw [← hone] at hcopied hexec
    obtain ⟨-, hdrop⟩ := overwrite_zero outBuf copied
    rw [hcopied] at hdrop
    refine ⟨_, file', w', hexec, ?_, hdrop⟩
    exact overwrite_length (by omega)
  · rintro ⟨iov', file', w', hexec, -⟩
    by_contra hpast
    have hcount := vnReadv_count hexec
    rw [iovLen_eq (by omega), clipped_wraps (by omega) hreadv,
      ViveFile.left] at hcount
    omega
  · obtain ⟨copied, iov', file', w', hcopied, -, hexec, hshape, hflat⟩ :=
      exec_read_readv w file iov.flatten iov offset hE hE' hwhole hoff rfl
        hreadv rfl
    obtain ⟨-, hdrop⟩ := overwrite_zero iov.flatten copied
    rw [hcopied] at hdrop
    exact ⟨iov', file', w', hexec, hshape, by rw [hflat]; exact hdrop⟩

/-- Three bytes asked for at byte 1 of a file of two. -/
theorem reads_within_iff_shortFile :
    ReadsWithin shortWorld shortFile [0, 0, 0] 1
      ∧ ReadvWithin shortWorld shortFile [[0], [0, 0]] 1 := by
  have hlaw := reads_within_iff shortWorld shortFile [0, 0, 0] [[0], [0, 0]] 1
    (by rw [shortFile_extentSize]; exact extentSize_pos)
    (Nat.le_of_eq shortFile_extentSize) (shortWorld_whole _) (by decide)
    (by decide)
  exact ⟨hlaw.1.mpr (by decide), hlaw.2.mpr (by decide)⟩

/-- One byte asked for at byte 65537 of a file of two: the call does not
return 0, it stores past the one byte it was given. -/
theorem read_past_eof_overruns :
    (vnRead shortFile [0] 65537).exec shortWorld = .error .outOfBounds
      ∧ ¬ ReadsWithin shortWorld shortFile [0] 65537 := by
  have hover : (vnRead shortFile [0] 65537).exec shortWorld
      = .error .outOfBounds := by
    refine vnRead_overruns shortFile_extentSize (shortWorld_whole _)
      (by decide) (by decide) ?_ (by decide)
    rw [extentSize_eq]
    decide
  refine ⟨hover, ?_⟩
  rintro ⟨out, file', w', hexec, -⟩
  rw [hover] at hexec
  cases hexec

end ViveNas
