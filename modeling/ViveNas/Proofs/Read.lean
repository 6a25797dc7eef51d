/-
`vn_read` against the file's bytes.

`content` is what the file holds: data byte `x mod 65536` of extent
`x / 65536`, zero where the extent is absent. `vn_read` copies each
piece from the start of its extent's data; the offset of the piece
inside the extent, which it computes, is not added to the source
address. On every extent but the first the piece does start at the
extent's start, so what goes wrong is confined to the first extent of a
read at an unaligned offset (`exec_vnRead`, `vnRead_returns_content_iff`).
-/
import ViveNas.Proofs.CallSpec
import ViveNas.Proofs.Extent

namespace ViveNas

open Overlay Paging ViveDataMergeOperator

-- ============================================================ one segment

/-- The byte `vn_read` delivers for position `k` of a read: counted from
the start of its extent, not from the piece's place in it. -/
def deliveredByte (db : Store) (ino offset len k : Nat) : UInt8 :=
  extentByte db ino ((offset + k) / vivefsExtentSize)
    (k - cut vivefsExtentSize offset len ((offset + k) / vivefsExtentSize))

variable {w : World} {ino offset len : Nat}

/-- One turn of the read loop: the piece lands in the buffer. -/
theorem readPiece_spec (hcalm : Calm w) (hwhole : ExtentsWhole w.db ino)
    {i at' n : Nat} {out : Bytes} (hn : n ≤ vivefsExtentSize)
    (hfit : at' + n ≤ out.length) :
    ∃ status piece, (Fs.get .dataCf (vnExtentKey i ino)).exec w
        = .ok (status, w)
      ∧ (if 0 < status.slice.length then
          memcpy out at' status.slice pfsExtentHeadSize n
        else memset0 out at' n) = .ok (overwrite out at' piece)
      ∧ piece.length = n
      ∧ ∀ p < n, piece[p]? = some (extentByte w.db ino i p) := by
  obtain ⟨r, hr, hlen⟩ := hwhole i
  cases r with
  | none =>
      refine ⟨_, List.replicate n 0, exec_getData hcalm hr, ?_,
        List.length_replicate, ?_⟩
      · show (if 0 < ([] : Bytes).length then _ else _) = _
        rw [if_neg (by simp), memset0, if_pos hfit]
      · intro p hp
        rw [List.getElem?_replicate_of_lt hp, extentByte, hr]
  | some v =>
      have hv := hlen v rfl
      have hdata : (dataOf v).length = vivefsExtentSize := by
        rw [dataOf_length, hv, Nat.add_sub_cancel_left]
      refine ⟨_, (dataOf v).take n, exec_getData hcalm hr, ?_, ?_, ?_⟩
      · show (if 0 < v.length then memcpy out at' v pfsExtentHeadSize n
          else _) = _
        rw [if_pos (by rw [hv, pfsExtentHeadSize]; omega),
          memcpy_ok (by omega) hfit]
        rfl
      · rw [List.length_take, hdata]
        omega
      · intro p hp
        rw [List.getElem?_take_of_lt hp, extentByte, hr]
        show (dataOf v)[p]? = some ((dataOf v).getD p 0)
        rw [List.getD_eq_getElem?_getD,
          List.getElem?_eq_getElem (by omega)]
        rfl

-- ============================================================== the loop

/-- The read loop from extent `i` on: the positions of the extents it
visits are filled with the delivered bytes, the rest of the buffer is
left alone. -/
theorem exec_readSegments (hcalm : Calm w) (hwhole : ExtentsWhole w.db ino)
    (hlen : len < 2 ^ 64) (turns : Nat) {i : Nat}
    (hi : offset / vivefsExtentSize ≤ i) {out : Bytes}
    (hfit : len ≤ out.length) :
    ∃ out', (readSegments ino vivefsExtentSize offset len turns i
        (cut vivefsExtentSize offset len i) out).exec w = .ok (out', w)
      ∧ out'.length = out.length
      ∧ ∀ k, out'[k]? =
          if cut vivefsExtentSize offset len i ≤ k
              ∧ k < cut vivefsExtentSize offset len (i + turns)
          then some (deliveredByte w.db ino offset len k) else out[k]? := by
  induction turns generalizing i out with
  | zero =>
      refine ⟨out, rfl, rfl, fun k => ?_⟩
      rw [Nat.add_zero, if_neg (by omega)]
  | succ turns ih =>
      have hE := extentSize_pos
      have hstep := cut_add_segmentLen hE extentSize_le hlen hi
      have hle := cut_le_len vivefsExtentSize offset len (i + 1)
      have hn : segmentLen vivefsExtentSize offset len
          (cut vivefsExtentSize offset len i) ≤ vivefsExtentSize := by
        rw [segmentLen_cut hE extentSize_le hlen hi, ← cut_step hE hi]
        omega
      obtain ⟨status, piece, hget, hcopy, hplen, hpiece⟩ :=
        readPiece_spec (i := i) hcalm hwhole hn
          (show cut vivefsExtentSize offset len i + _ ≤ out.length by omega)
      have hin : cut vivefsExtentSize offset len i + piece.length
          ≤ out.length := by omega
      have hsame := overwrite_length hin
      obtain ⟨out', hrun, hout, hbytes⟩ := ih (i := i + 1) (by omega)
        (show len ≤ (overwrite out (cut vivefsExtentSize offset len i)
          piece).length by omega)
      refine ⟨out', ?_, by omega, fun k => ?_⟩
      · rw [readSegments]
        dsimp only
        rw [exec_bind_ok hget, exec_bind_ok (exec_lift_ok hcopy), hstep]
        exact hrun
      · have hmono := cut_le_cut vivefsExtentSize offset len
          (show i + 1 ≤ i + (turns + 1) by omega)
        rw [hbytes k, overwrite_getElem? hin,
          show i + 1 + turns = i + (turns + 1) by omega]
        by_cases hrest : cut vivefsExtentSize offset len (i + 1) ≤ k
        · -- a later extent's byte, or none of the read's
          rw [if_neg (by omega :
            ¬ (cut vivefsExtentSize offset len i ≤ k
              ∧ k < cut vivefsExtentSize offset len i + piece.length))]
          by_cases hk : k < cut vivefsExtentSize offset len
              (i + (turns + 1))
          · rw [if_pos ⟨hrest, hk⟩, if_pos (by omega)]
          · rw [if_neg (by omega), if_neg (by omega)]
        · rw [if_neg (by omega)]
          by_cases hk : cut vivefsExtentSize offset len i ≤ k
          · have hpage := ((cut_page_iff hE hi).mp
              ⟨hk, show k < cut vivefsExtentSize offset len (i + 1) by
                omega⟩).2
            rw [if_pos (by omega), if_pos (by omega),
              hpiece _ (by omega), deliveredByte, hpage]
          · rw [if_neg (by omega), if_neg (by omega)]

-- =============================================================== vn_read

/-- The length a read is clipped to. -/
theorem clipped_eq {n : Nat} {size : UInt64} (hoff : offset ≤ size.toNat)
    (hrange : offset + n < 2 ^ 63) :
    (if size.toNat < u64 (offset + n) then sub64 size.toNat offset else n)
      = min n (size.toNat - offset) := by
  have hmax := size.toNat_lt
  rw [u64_of_lt (by omega)]
  split
  · rw [sub64_of_le hoff hmax]
    omega
  · omega

/-- `vn_read` returns the clipped length, with the delivered bytes in the
buffer and the store as it was. -/
theorem exec_vnRead (hcalm : Calm w) (file : ViveFile) (outBuf : Bytes)
    (hsize : file.inode.iExtentSize.toNat = vivefsExtentSize)
    (hwhole : ExtentsWhole w.db file.iNo.toNat)
    (hoff : offset ≤ file.inode.iSize.toNat)
    (hrange : offset + outBuf.length < 2 ^ 63)
    (hlen : len = min outBuf.length (file.inode.iSize.toNat - offset)) :
    ∃ out file', (vnRead file outBuf offset).exec w
        = .ok ((len, out, file'), w)
      ∧ out.length = outBuf.length
      ∧ ∀ k < len, out[k]?
          = some (deliveredByte w.db file.iNo.toNat offset len k) := by
  have hE := extentSize_pos
  have hclip := (clipped_eq hoff hrange).trans hlen.symm
  obtain ⟨out, hrun, hout, hbytes⟩ := exec_readSegments hcalm hwhole
    (show len < 2 ^ 64 by omega)
    (extentTurns vivefsExtentSize offset outBuf.length)
    (Nat.le_refl (offset / vivefsExtentSize))
    (show len ≤ outBuf.length by omega)
  refine ⟨out, touched file w.clock, ?_, hout, fun k hk => ?_⟩
  · rw [vnRead, hsize]
    dsimp only
    rw [cut_first] at hrun
    rw [if_neg (by omega), hclip, startExt, exec_bind_ok hrun,
      exec_bind_ok (exec_touchAtime file)]
    rfl
  · -- the loop's turns come from the length before the clip
    have hcover := range_le_turns hE extentSize_le hrange
    rw [hbytes k, cut_first, if_pos]
    rw [cut_last (by rw [startExt] at hcover; omega)]
    omega

/-- The call returns the clipped length and the file's bytes. -/
def ReadsContent (w : World) (file : ViveFile) (outBuf : Bytes)
    (offset : Nat) : Prop :=
  ∃ n out file', (vnRead file outBuf offset).exec w = .ok ((n, out, file'), w)
    ∧ n = min outBuf.length (file.inode.iSize.toNat - offset)
    ∧ ∀ k < n, out[k]? = some (content w.db file.iNo.toNat (offset + k))

/-- Past the first extent the delivered byte is the file's. -/
theorem deliveredByte_later {db : Store} {k : Nat} (hk : k < len)
    (hlater : (offset + k) / vivefsExtentSize ≠ offset / vivefsExtentSize) :
    deliveredByte db ino offset len k = content db ino (offset + k) := by
  have hE := extentSize_pos
  have hi : offset / vivefsExtentSize ≤ (offset + k) / vivefsExtentSize :=
    Nat.div_le_div_right (Nat.le_add_right offset k)
  obtain ⟨hlo, hhi⟩ : cut vivefsExtentSize offset len _ ≤ k
      ∧ k < cut vivefsExtentSize offset len _ :=
    (cut_page_iff hE hi).mpr ⟨hk, rfl⟩
  have hplace := cut_offset hE hi hlo hhi
  have hnext : ¬ (offset + k) / vivefsExtentSize * vivefsExtentSize
      ≤ offset := by
    rw [← Nat.le_div_iff_mul_le hE]
    omega
  have hle := cut_le_len vivefsExtentSize offset len
    ((offset + k) / vivefsExtentSize + 1)
  rw [cut_mod (by omega), if_neg hnext, Nat.zero_add] at hplace
  rw [deliveredByte, content, hplace]

/-- On the first extent it is the byte as far from the extent's start as
the wanted one is from the read's. -/
theorem deliveredByte_first {db : Store} {k : Nat}
    (hfirst : (offset + k) / vivefsExtentSize = offset / vivefsExtentSize) :
    deliveredByte db ino offset len k
      = content db ino (offset - offset % vivefsExtentSize + k) := by
  have hE := extentSize_pos
  have hdm := Nat.div_add_mod offset vivefsExtentSize
  have hdm' := Nat.div_add_mod (offset + k) vivefsExtentSize
  have hlt := Nat.mod_lt (offset + k) hE
  rw [hfirst] at hdm'
  have hk : k < vivefsExtentSize := by omega
  have hbase : offset - offset % vivefsExtentSize + k
      = k + vivefsExtentSize * (offset / vivefsExtentSize) := by omega
  rw [deliveredByte, hfirst, cut_first, content, hbase,
    Nat.add_mul_div_left _ _ hE, Nat.add_mul_mod_self_left,
    Nat.div_eq_of_lt hk, Nat.mod_eq_of_lt hk, Nat.zero_add, Nat.sub_zero]

/-- Whatever the extents, the size, the offset and the length, `vn_read`
returns the file's bytes if and only if, over the part of the read that
lies in its first extent, the file holds the same bytes from the
extent's start as from the offset. -/
theorem vnRead_returns_content_iff (hcalm : Calm w) (file : ViveFile)
    (outBuf : Bytes) (offset : Nat)
    (hsize : file.inode.iExtentSize.toNat = vivefsExtentSize)
    (hwhole : ExtentsWhole w.db file.iNo.toNat)
    (hoff : offset ≤ file.inode.iSize.toNat)
    (hrange : offset + outBuf.length < 2 ^ 63) :
    ReadsContent w file outBuf offset
      ↔ ∀ k < min outBuf.length (file.inode.iSize.toNat - offset),
          (offset + k) / vivefsExtentSize = offset / vivefsExtentSize →
          content w.db file.iNo.toNat
              (offset - offset % vivefsExtentSize + k)
            = content w.db file.iNo.toNat (offset + k) := by
  obtain ⟨out, file', hrun, hout, hbytes⟩ :=
    exec_vnRead hcalm file outBuf hsize hwhole hoff hrange rfl
  constructor
  · rintro ⟨n, out₁, file₁, hrun₁, hn, hcontent⟩ k hk hfirst
    rw [hrun] at hrun₁
    injection hrun₁ with hpair
    injection hpair with hres
    injection hres with hlen hrest
    injection hrest with hsame
    subst hsame
    have hread := hbytes k hk
    rw [hcontent k (by omega), Option.some.injEq] at hread
    rw [← deliveredByte_first hfirst, hread]
  · intro hcond
    refine ⟨_, out, file', hrun, rfl, fun k hk => ?_⟩
    rw [hbytes k hk]
    by_cases hfirst :
        (offset + k) / vivefsExtentSize = offset / vivefsExtentSize
    · rw [deliveredByte_first hfirst, hcond k hk hfirst]
    · rw [deliveredByte_later hk hfirst]

-- ==================================================== an unaligned read

/-- What a two-byte write at the start of file 12 leaves in data_cf. -/
def shortDelta : Delta :=
  Delta.make 0 [1, 2] (by simp [vivefsExtentSize]) (by decide)

/-- A world whose only extent is that one. -/
def shortWorld : World where
  db := Store.empty.applyOp (.merge (vnExtentKey 0 12) shortDelta.bytes)
  durable := Store.empty
  tx := none
  inodeSeed := 13
  clock := 0
  script := []

/-- A handle on the file. -/
def shortFile : ViveFile :=
  newFile { newInode 12 0 0 0 0 with iSize := 2 } 0

theorem shortFile_extentSize :
    shortFile.inode.iExtentSize.toNat = vivefsExtentSize := by
  simp [shortFile, newFile, newInode, vivefsExtentSize]

theorem shortWorld_holds : Holds
    shortWorld.db.dataCf[vnExtentKey 0 12]?
    (shortDelta.patch.apply (List.replicate vivefsExtentSize 0)) := by
  rw [shortWorld, Store.applyOp_data, WriteOp.onData, if_pos rfl]
  exact holds_none.push shortDelta

theorem shortWorld_held (ino idx : Nat) :
    ∃ held, Holds shortWorld.db.dataCf[vnExtentKey idx ino]? held := by
  by_cases hkey : vnExtentKey 0 12 = vnExtentKey idx ino
  · rw [← hkey]
    exact ⟨_, shortWorld_holds⟩
  · rw [shortWorld, Store.applyOp_data, WriteOp.onData, if_neg hkey]
    exact ⟨_, holds_none⟩

theorem shortWorld_whole (ino : Nat) : ExtentsWhole shortWorld.db ino := by
  intro idx
  obtain ⟨held, hheld⟩ := shortWorld_held ino idx
  obtain ⟨r, hr, hlen, -⟩ := hheld.getData
  exact ⟨r, hr, hlen⟩

/-- The file's bytes: the two written ones, then zeros. -/
theorem shortWorld_content {x : Nat} (hx : x < vivefsExtentSize) :
    content shortWorld.db 12 x = ([1, 2] : Bytes).getD x 0 := by
  have hfit : shortDelta.patch.hi
      ≤ (List.replicate vivefsExtentSize (0 : UInt8)).length := by
    rw [List.length_replicate]
    exact shortDelta.patch_hi_le
  rw [content, Nat.div_eq_of_lt hx, Nat.mod_eq_of_lt hx,
    shortWorld_holds.extentByte, List.getD_eq_getElem?_getD,
    Patch.apply_getElem? hfit, List.getElem?_replicate_of_lt hx,
    shortDelta, Delta.make_patch]
  rcases x with _ | _ | x <;> rfl

/-- An aligned read of both bytes returns them. -/
theorem vnRead_returns_content_iff_aligned :
    ReadsContent shortWorld shortFile [0, 0] 0 := by
  refine (vnRead_returns_content_iff (w := shortWorld) rfl shortFile [0, 0] 0
    shortFile_extentSize (shortWorld_whole _) (Nat.zero_le _)
    (by decide)).mpr ?_
  intro k _ _
  rw [Nat.zero_mod, Nat.zero_sub]

/-- A read of the second byte alone returns the first. -/
theorem shortFile_read :
    ∃ file', (vnRead shortFile [0] 1).exec shortWorld
      = .ok ((1, [1], file'), shortWorld) := by
  have hone : 1 < vivefsExtentSize := by
    rw [vivefsExtentSize]
    decide
  have hino : shortFile.iNo.toNat = 12 := by decide
  obtain ⟨out, file', hrun, hlen, hbytes⟩ :=
    exec_vnRead (w := shortWorld) rfl shortFile [0]
      shortFile_extentSize (shortWorld_whole _)
      (show 1 ≤ shortFile.inode.iSize.toNat by decide) (by decide)
      (show 1 = min 1 _ by decide)
  have hbyte := hbytes 0 Nat.one_pos
  rw [hino, deliveredByte_first rfl, Nat.mod_eq_of_lt hone,
    shortWorld_content extentSize_pos] at hbyte
  obtain ⟨b, rfl⟩ := List.length_eq_one_iff.mp hlen
  rw [List.getElem?_cons_zero, Option.some.injEq] at hbyte
  subst hbyte
  exact ⟨file', hrun⟩

/-- The extents are whole and the offset is inside the file, but byte 1,
which holds 2, is read as 1. -/
theorem vnRead_unaligned_wrong :
    ExtentsWhole shortWorld.db shortFile.iNo.toNat
      ∧ 1 ≤ shortFile.inode.iSize.toNat
      ∧ content shortWorld.db shortFile.iNo.toNat 1 = 2
      ∧ ¬ ReadsContent shortWorld shortFile [0] 1 := by
  have hone : 1 < vivefsExtentSize := by
    rw [vivefsExtentSize]
    decide
  have hino : shortFile.iNo.toNat = 12 := by decide
  have hcontent : content shortWorld.db shortFile.iNo.toNat 1 = 2 := by
    rw [hino, shortWorld_content hone]
    rfl
  refine ⟨shortWorld_whole _, by decide, hcontent, ?_⟩
  rintro ⟨n, out, file₁, hrun₁, hn, hread⟩
  obtain ⟨file', hrun⟩ := shortFile_read
  rw [hrun] at hrun₁
  injection hrun₁ with hpair
  injection hpair with hres
  injection hres with hcount hrest
  injection hrest with hsame
  have hbyte := hread 0 (by omega)
  rw [← hsame, Nat.add_zero, hcontent] at hbyte
  revert hbyte
  decide

end ViveNas
