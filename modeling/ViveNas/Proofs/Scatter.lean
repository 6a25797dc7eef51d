/-
Scattered calls against plain ones.

`vn_writev` is `vn_write` on the concatenation of its buffers, call for
call (Proofs/WriteSpec.lean). `vn_readv` makes the same store calls as
`vn_read`, and what its copy loops put in the buffers is, seen in their
concatenation, one overwrite per extent (`scatterIov_spec`): the same
one `vn_read` makes in its buffer.

# The two loops

They are walked in step, whatever the store replies
(`readvSegments_in_step`).
-/
import ViveNas.Proofs.Read
import ViveNas.Proofs.Outcomes

namespace ViveNas

open Overlay Paging

variable {w : World} {ino E offset len : Nat}

-- =========================================================== the iovec walk

/-- The lists of buffers have the same lengths. -/
def SameShape (iov iov' : List Bytes) : Prop :=
  iov'.map List.length = iov.map List.length

theorem SameShape.length_flatten {iov iov' : List Bytes}
    (h : SameShape iov iov') : iov'.flatten.length = iov.flatten.length := by
  rw [List.length_flatten, List.length_flatten, h]

theorem SameShape.length {iov iov' : List Bytes} (h : SameShape iov iov') :
    iov'.length = iov.length := by
  have := congrArg List.length h
  rwa [List.length_map, List.length_map] at this

/-- A cursor stands at the same place of either list. -/
theorem SameShape.pos {iov iov' : List Bytes} (h : SameShape iov iov')
    (cur : IovCursor) : cur.pos iov' = cur.pos iov := by
  rw [IovCursor.pos, IovCursor.pos, List.length_flatten, List.length_flatten,
    List.map_take, List.map_take, h]

theorem SameShape.valid {iov iov' : List Bytes} (h : SameShape iov iov')
    {cur : IovCursor} (hvalid : cur.Valid iov) : cur.Valid iov' := by
  intro base' hbase'
  have hlen : (iov.map List.length)[cur.iovIdx]? = some base'.length := by
    rw [← h, List.getElem?_map, hbase']
    rfl
  rw [List.getElem?_map] at hlen
  obtain ⟨base, hbase, heq⟩ := Option.map_eq_some_iff.mp hlen
  rw [← heq]
  exact hvalid base hbase

theorem SameShape.symm {iov iov' : List Bytes} (h : SameShape iov iov') :
    SameShape iov' iov := Eq.symm h

theorem SameShape.trans {iov iov' iov'' : List Bytes}
    (h : SameShape iov iov') (h' : SameShape iov' iov'') :
    SameShape iov iov'' := Eq.trans h' h

/-- Writing into the entry under the cursor writes into the
concatenation. -/
theorem flatten_set {iov : List Bytes} {cur : IovCursor} {base chunk : Bytes}
    (hbase : iov[cur.iovIdx]? = some base)
    (hfit : cur.inIovOff + chunk.length ≤ base.length) :
    SameShape iov (iov.set cur.iovIdx (overwrite base cur.inIovOff chunk))
      ∧ (iov.set cur.iovIdx (overwrite base cur.inIovOff chunk)).flatten
        = overwrite iov.flatten (cur.pos iov) chunk := by
  obtain ⟨hlt, hget⟩ := List.getElem?_eq_some_iff.mp hbase
  constructor
  · rw [SameShape, List.map_set, overwrite_length hfit]
    apply List.ext_getElem?
    intro j
    by_cases hj : cur.iovIdx = j
    · subst hj
      rw [List.getElem?_set_self (by rw [List.length_map]; exact hlt),
        List.getElem?_map, hbase]
      rfl
    · rw [List.getElem?_set_ne hj]
  · rw [flatten_around hbase, IovCursor.pos, overwrite_append_right,
      overwrite_append_left hfit, List.set_eq_take_append_cons_drop,
      if_pos hlt, List.flatten_append, List.flatten_cons]

/-- A copy loop puts the next `n` bytes of its source into the
concatenation, in at most one turn per entry left and one per byte. -/
theorem scatterIov_spec {fill : Bytes → Nat → Nat → Nat → Except Fault Bytes}
    (src : Bytes)
    (hfill : ∀ base o off c, o + c ≤ base.length → off + c ≤ src.length →
      fill base o off c = .ok (overwrite base o ((src.drop off).take c)))
    {iov : List Bytes} (hsize : iov.flatten.length < 2 ^ 64) (fuel : Nat)
    {cur : IovCursor} {off n : Nat} (hvalid : cur.Valid iov)
    (hrest : cur.pos iov + n ≤ iov.flatten.length)
    (hsrc : off + n ≤ src.length)
    (hfuel : (iov.length - cur.iovIdx) + n ≤ fuel) :
    ∃ iov' cur', scatterIov fill fuel iov cur off n = .ok (iov', cur')
      ∧ SameShape iov iov'
      ∧ iov'.flatten
        = overwrite iov.flatten (cur.pos iov) ((src.drop off).take n)
      ∧ cur'.pos iov = cur.pos iov + n ∧ cur'.Valid iov := by
  induction fuel generalizing iov cur off n with
  | zero =>
      obtain rfl : n = 0 := by omega
      refine ⟨iov, cur, rfl, rfl, ?_, rfl, hvalid⟩
      simp [overwrite]
  | succ fuel ih =>
      cases n with
      | zero =>
          refine ⟨iov, cur, rfl, rfl, ?_, rfl, hvalid⟩
          simp [overwrite]
      | succ n =>
          obtain ⟨base, hbase, hin, hoff, hmem⟩ := hvalid.entry
            (show cur.pos iov < iov.flatten.length by omega)
          rw [scatterIov, hbase]
          dsimp only
          rw [sub64_of_le hoff (by omega)]
          generalize hc : min (base.length - cur.inIovOff) (n + 1) = c
          have hchunk : ((src.drop off).take c).length = c := by
            rw [List.length_take, List.length_drop]
            omega
          obtain ⟨hshape, hflat⟩ := flatten_set hbase
            (show cur.inIovOff + ((src.drop off).take c).length
              ≤ base.length by omega)
          have hstep := IovCursor.pos_advance hbase c
          have hnext : (cur.advance base c).Valid iov :=
            IovCursor.valid_advance hbase (by omega)
          obtain ⟨iov', cur', hrun, hshape', hflat', hpos, hvalid'⟩ := ih
            (n := n + 1 - c)
            (by rw [hshape.length_flatten]; exact hsize)
            (hshape.valid hnext)
            (by rw [hshape.pos, hshape.length_flatten]; omega)
            (show off + c + (n + 1 - c) ≤ src.length by omega)
            (by
              rw [hshape.length, IovCursor.advance]
              split
              case isTrue => dsimp only; omega
              case isFalse => dsimp only; omega)
          have hrest' : ((src.drop off).take c)
              ++ ((src.drop (off + c)).take (n + 1 - c))
                = (src.drop off).take (n + 1) := by
            rw [← List.drop_drop, ← List.take_add,
              Nat.add_sub_cancel' (by omega)]
          refine ⟨iov', cur', ?_, hshape.trans hshape', ?_, ?_,
            hshape.symm.valid hvalid'⟩
          · rw [hfill base _ off c (by omega) (by omega), ok_bind]
            rw [IovCursor.advance] at hrun
            exact hrun
          · have hjoin := overwrite_adjacent
              (show cur.pos iov + ((src.drop off).take c).length
                ≤ iov.flatten.length by omega)
              ((src.drop (off + c)).take (n + 1 - c))
            rw [hrest', hchunk] at hjoin
            rw [hflat', hshape.pos, hstep, hflat, hjoin]
          · rw [← hshape.pos cur', hpos, hshape.pos, hstep]
            omega

-- ========================================================= both loops

/-- An extent's read, whatever its outcome: no value or a whole one. -/
theorem get_extent (hwhole : ExtentsWhole w.db ino) (i : Nat) :
    ∃ status, (Fs.get .dataCf (vnExtentKey i ino)).exec w
        = .ok (status, w.advance)
      ∧ (status.slice.length = 0
        ∨ status.slice.length = pfsExtentHeadSize + vivefsExtentSize) := by
  obtain ⟨r, hr, hlen⟩ := hwhole i
  have hget : (Fs.get .dataCf (vnExtentKey i ino)).exec w
      = w.replyGet w.db .dataCf (vnExtentKey i ino) := exec_perform _
  rw [hget, World.replyGet]
  split
  case isFalse => exact ⟨.failed, rfl, Or.inl rfl⟩
  case isTrue =>
    rw [show w.db.get .dataCf (vnExtentKey i ino) = .ok r from hr]
    cases r with
    | none => exact ⟨.notFound, rfl, Or.inl rfl⟩
    | some v => exact ⟨.ok v, rfl, Or.inr (hlen v rfl)⟩

/-- The data a turn of either loop copies from: the value's, or zeros. -/
def segmentSource (slice : Bytes) : Bytes :=
  if 0 < slice.length then dataOf slice
  else List.replicate vivefsExtentSize 0

section Source

variable {slice : Bytes} (hslice : slice.length = 0
  ∨ slice.length = pfsExtentHeadSize + vivefsExtentSize)
include hslice

theorem segmentSource_length :
    (segmentSource slice).length = vivefsExtentSize := by
  rw [segmentSource]
  split
  · rw [dataOf_length]
    omega
  · exact List.length_replicate

/-- What `vn_read` does with a segment. -/
theorem copy_segment {out : Bytes} {b n : Nat} (hn : n ≤ vivefsExtentSize)
    (hfit : b + n ≤ out.length) :
    (if 0 < slice.length then memcpy out b slice pfsExtentHeadSize n
      else memset0 out b n)
      = .ok (overwrite out b ((segmentSource slice).take n)) := by
  rw [segmentSource]
  split
  case isTrue hpos =>
    rw [memcpy_ok (by omega) hfit]
    rfl
  case isFalse =>
    rw [memset0, if_pos hfit, List.take_replicate, Nat.min_eq_left hn]

/-- What `vn_readv` does with it. -/
theorem scatter_segment {iov : List Bytes}
    (hsize : iov.flatten.length < 2 ^ 64) {cur : IovCursor} {n : Nat}
    (hvalid : cur.Valid iov) (hn : n ≤ vivefsExtentSize)
    (hrest : cur.pos iov + n ≤ iov.flatten.length) :
    ∃ iov' cur', (if 0 < slice.length then
          scatterIov (fillData slice) (gatherFuel iov n) iov cur 0 n
        else scatterIov fillZero (gatherFuel iov n) iov cur 0 n)
        = .ok (iov', cur')
      ∧ SameShape iov iov'
      ∧ iov'.flatten = overwrite iov.flatten (cur.pos iov)
        ((segmentSource slice).take n)
      ∧ cur'.pos iov = cur.pos iov + n ∧ cur'.Valid iov := by
  have hlen := segmentSource_length hslice
  have hfuel : (iov.length - cur.iovIdx) + n ≤ gatherFuel iov n := by
    rw [gatherFuel]
    omega
  by_cases hpos : 0 < slice.length
  · rw [if_pos hpos]
    refine scatterIov_spec (segmentSource slice) ?_ hsize _ hvalid hrest
      (by omega) hfuel
    intro base o off c hfit hsrc
    rw [fillData, memcpy_ok (by omega) hfit, segmentSource, if_pos hpos,
      dataOf, List.drop_drop]
  · rw [if_neg hpos]
    refine scatterIov_spec (segmentSource slice) ?_ hsize _ hvalid hrest
      (by omega) hfuel
    intro base o off c hfit hsrc
    rw [fillZero, memset0, if_pos hfit, segmentSource, if_neg hpos,
      List.drop_replicate, List.take_replicate, Nat.min_eq_left (by omega)]

end Source

/-- The loops of `vn_read` and `vn_readv` from extent `i` on make the same
calls and the same overwrite. -/
theorem readvSegments_in_step (hE : 0 < E) (hE' : E ≤ vivefsExtentSize)
    (hwhole : ExtentsWhole w.db ino) (hlen : len < 2 ^ 64) (turns : Nat)
    {i : Nat} (hi : offset / E ≤ i) {out : Bytes} {iov : List Bytes}
    {cur : IovCursor} (hsize : iov.flatten.length < 2 ^ 64)
    (hsame : out.length = iov.flatten.length) (hfit : len ≤ out.length)
    (hvalid : cur.Valid iov) (hcur : cur.pos iov = cut E offset len i) :
    ∃ copied iov' w',
      (readSegments ino E offset len turns i (cut E offset len i) out).exec w
          = .ok (overwrite out (cut E offset len i) copied, w')
        ∧ (readvSegments ino E offset len turns i (cut E offset len i) iov
            cur).exec w = .ok (iov', w')
        ∧ SameShape iov iov'
        ∧ iov'.flatten = overwrite iov.flatten (cut E offset len i) copied
        ∧ copied.length
          = cut E offset len (i + turns) - cut E offset len i := by
  have hE32 : E ≤ 2 ^ 32 := Nat.le_trans hE' extentSize_le
  induction turns generalizing i out iov cur w with
  | zero =>
      refine ⟨[], iov, w, ?_, rfl, rfl, ?_, ?_⟩
      · rw [show overwrite out (cut E offset len i) [] = out by
          simp [overwrite]]
        rfl
      · simp [overwrite]
      · rw [Nat.add_zero, Nat.sub_self]
        rfl
  | succ turns ih =>
      have hstep := cut_add_segmentLen hE hE32 hlen hi
      have hle := cut_le_len E offset len (i + 1)
      have hn : segmentLen E offset len (cut E offset len i)
          ≤ vivefsExtentSize := by
        rw [segmentLen_cut hE hE32 hlen hi, ← cut_step hE hi]
        omega
      obtain ⟨status, hget, hslice⟩ := get_extent hwhole i
      have hcopy := copy_segment hslice hn
        (show cut E offset len i + _ ≤ out.length by omega)
      obtain ⟨iov₁, cur₁, hscatter, hshape₁, hflat₁, hpos₁, hvalid₁⟩ :=
        scatter_segment hslice hsize hvalid hn (by omega)
      have hchunk : ((segmentSource status.slice).take
            (segmentLen E offset len (cut E offset len i))).length
          = segmentLen E offset len (cut E offset len i) := by
        rw [List.length_take, segmentSource_length hslice,
          Nat.min_eq_left hn]
      generalize (segmentSource status.slice).take
        (segmentLen E offset len (cut E offset len i)) = chunk
        at hcopy hflat₁ hchunk
      have hlen₁ := overwrite_length
        (show cut E offset len i + chunk.length ≤ out.length by omega)
      have hsize₁ : iov₁.flatten.length < 2 ^ 64 := by
        rw [hshape₁.length_flatten]
        exact hsize
      have hsame₁ : (overwrite out (cut E offset len i) chunk).length
          = iov₁.flatten.length := by
        rw [hlen₁, hshape₁.length_flatten, hsame]
      have hfit₁ : len
          ≤ (overwrite out (cut E offset len i) chunk).length := by
        rw [hlen₁]
        exact hfit
      have hcur₁ : cur₁.pos iov₁ = cut E offset len (i + 1) := by
        rw [hshape₁.pos, hpos₁, hcur, hstep]
      obtain ⟨copied, iov', w', hread, hreadv, hshape', hflat', hcopied⟩ :=
        ih (w := w.advance) (i := i + 1) hwhole (by omega) hsize₁ hsame₁
          hfit₁ (hshape₁.valid hvalid₁) hcur₁
      -- this turn's bytes and the later ones' lie side by side
      have hjoin : ∀ dst : Bytes, dst.length = out.length →
          overwrite (overwrite dst (cut E offset len i) chunk)
              (cut E offset len (i + 1)) copied
            = overwrite dst (cut E offset len i) (chunk ++ copied) := by
        intro dst hdst
        rw [← overwrite_adjacent (by omega), hchunk, hstep]
      refine ⟨chunk ++ copied, iov', w', ?_, ?_, hshape₁.trans hshape', ?_, ?_⟩
      · rw [readSegments]
        dsimp only
        rw [exec_bind_ok hget, exec_bind_ok (exec_lift_ok hcopy), hstep,
          hread, hjoin out rfl]
      · rw [readvSegments]
        dsimp only
        rw [exec_bind_ok hget, exec_bind_ok (exec_lift_ok hscatter)]
        dsimp only
        rw [hstep, hreadv]
      · rw [hflat', hflat₁, hcur, hjoin _ hsame.symm]
      · have hmono := cut_le_cut E offset len
          (show i + 1 ≤ i + (turns + 1) by omega)
        rw [List.length_append, hchunk, hcopied,
          show i + 1 + turns = i + (turns + 1) by omega]
        omega

-- ============================================================== vn_writev

/-- `vn_writev` is the program `vn_write` is on the concatenation of its
buffers, so it makes the same calls with the same arguments whatever the
store replies. Its copy loop dies neither of an index past the list nor
of running out of turns: it returns in every world. -/
theorem writev_writes_as_write (file : ViveFile) (iov : List Bytes)
    (offset : Nat) (hpos : 0 < iov.flatten.length)
    (hend : offset + iov.flatten.length < 2 ^ 63) :
    vnWritev file iov offset = vnWrite file iov.flatten offset
      ∧ (0 < file.inode.iExtentSize.toNat → ∀ w : World,
        ∃ r file' w', (vnWritev file iov offset).exec w
          = .ok ((r, file'), w')) := by
  have hsame : vnWritev file iov offset = vnWrite file iov.flatten offset :=
    vnWritev_eq file hpos (by omega)
  refine ⟨hsame, fun hE w => ?_⟩
  rw [hsame]
  exact exec_vnWrite_returns file hE (by omega)

/-- Three buffers, the middle one empty. -/
theorem writev_writes_as_write_shortFile :
    vnWritev shortFile [[1], [], [2, 3]] 0
      = vnWrite shortFile [[1], [], [2, 3]].flatten 0 :=
  (writev_writes_as_write shortFile [[1], [], [2, 3]] 0 (by decide)
    (by decide)).1

-- =============================================================== vn_readv

/-- What one overwrite from the start leaves of a buffer. -/
theorem overwrite_zero (dst src : Bytes) :
    (overwrite dst 0 src).take src.length = src
      ∧ (overwrite dst 0 src).drop src.length = dst.drop src.length := by
  simp [overwrite]

/-- Both calls on one range: the count is what is left before the end of
file, and both make the same overwrite at the front of their buffers. -/
theorem exec_read_readv (w : World) (file : ViveFile) (outBuf : Bytes)
    (iov : List Bytes) (offset : Nat)
    (hE : 0 < file.inode.iExtentSize.toNat)
    (hE' : file.inode.iExtentSize.toNat ≤ vivefsExtentSize)
    (hwhole : ExtentsWhole w.db file.iNo.toNat)
    (hoff : offset ≤ file.inode.iSize.toNat)
    (hbuf : outBuf.length = iov.flatten.length)
    (hend : offset + iov.flatten.length < 2 ^ 63) {n : Nat}
    (hn : min iov.flatten.length (file.inode.iSize.toNat - offset) = n) :
    ∃ copied iov' file' w', copied.length = n
      ∧ (vnRead file outBuf offset).exec w
        = .ok ((n, overwrite outBuf 0 copied, file'), w')
      ∧ (vnReadv file iov offset).exec w = .ok ((n, iov', file'), w')
      ∧ SameShape iov iov'
      ∧ iov'.flatten = overwrite iov.flatten 0 copied := by
  have hE32 : file.inode.iExtentSize.toNat ≤ 2 ^ 32 :=
    Nat.le_trans hE' extentSize_le
  have hclip := clipped_eq hoff hend
  have hclip' := clipped_eq (n := outBuf.length) hoff (by omega)
  rw [hn] at hclip
  rw [hbuf, hn] at hclip'
  obtain ⟨copied, iov', w', hread, hreadv, hshape, hflat, hcopied⟩ :=
    readvSegments_in_step hE hE' hwhole (show n < 2 ^ 64 by omega)
      (extentTurns file.inode.iExtentSize.toNat offset iov.flatten.length)
      (Nat.le_refl (offset / file.inode.iExtentSize.toNat))
      (show iov.flatten.length < 2 ^ 64 by omega) hbuf (by omega)
      (show IovCursor.Valid iov ⟨0, 0⟩ from fun _ _ => Nat.zero_le _)
      (by rw [cut_first]; rfl)
  have hcover := range_le_turns hE hE32 hend
  rw [startExt] at hcover
  rw [cut_first, cut_last (by omega), Nat.sub_zero] at hcopied
  rw [cut_first] at hread hreadv hflat
  refine ⟨copied, iov', touched file w'.clock, w', hcopied, ?_, ?_, hshape,
    hflat⟩
  · rw [vnRead, if_neg (by omega)]
    dsimp only
    rw [hbuf, hclip', startExt, exec_bind_ok hread,
      exec_bind_ok (exec_touchAtime file)]
    rfl
  · rw [vnReadv, if_neg (by omega), iovLen_eq (by omega)]
    dsimp only
    rw [hclip, startExt, exec_bind_ok hreadv,
      exec_bind_ok (exec_touchAtime file)]
    rfl

/-- `vn_readv` reads what `vn_read` reads, whatever the store replies: the
same count and handle, the same bytes up to the count, and nothing past
it. -/
theorem readv_reads_as_read (w : World) (file : ViveFile) (outBuf : Bytes)
    (iov : List Bytes) (offset : Nat)
    (hE : 0 < file.inode.iExtentSize.toNat)
    (hE' : file.inode.iExtentSize.toNat ≤ vivefsExtentSize)
    (hwhole : ExtentsWhole w.db file.iNo.toNat)
    (hoff : offset ≤ file.inode.iSize.toNat)
    (hbuf : outBuf.length = iov.flatten.length)
    (hend : offset + iov.flatten.length < 2 ^ 63) :
    ∃ n out iov' file' w',
      (vnRead file outBuf offset).exec w = .ok ((n, out, file'), w')
        ∧ (vnReadv file iov offset).exec w = .ok ((n, iov', file'), w')
        ∧ iov'.map List.length = iov.map List.length
        ∧ iov'.flatten.take n = out.take n
        ∧ iov'.flatten.drop n = iov.flatten.drop n
        ∧ out.drop n = outBuf.drop n := by
  obtain ⟨copied, iov', file', w', hcopied, hread, hreadv, hshape, hflat⟩ :=
    exec_read_readv w file outBuf iov offset hE hE' hwhole hoff hbuf hend rfl
  obtain ⟨htake, hdrop⟩ := overwrite_zero iov.flatten copied
  obtain ⟨htake', hdrop'⟩ := overwrite_zero outBuf copied
  rw [hcopied] at htake hdrop htake' hdrop'
  exact ⟨_, _, iov', file', w', hread, hreadv, hshape,
    by rw [hflat, htake, htake'], by rw [hflat, hdrop], hdrop'⟩

/-- Both bytes of the short file, into buffers of one byte, none and
two. -/
theorem readv_reads_as_read_shortFile :
    ∃ n out iov' file' w',
      (vnRead shortFile [0, 0, 0] 0).exec shortWorld
          = .ok ((n, out, file'), w')
        ∧ (vnReadv shortFile [[0], [], [0, 0]] 0).exec shortWorld
          = .ok ((n, iov', file'), w')
        ∧ iov'.map List.length = [1, 0, 2]
        ∧ iov'.flatten.take n = out.take n
        ∧ iov'.flatten.drop n = [0, 0, 0].drop n
        ∧ out.drop n = [0, 0, 0].drop n :=
  readv_reads_as_read shortWorld shortFile [0, 0, 0] [[0], [], [0, 0]] 0
    (by rw [shortFile_extentSize]; exact extentSize_pos)
    (Nat.le_of_eq shortFile_extentSize)
    (shortWorld_whole _) (Nat.zero_le _) rfl (by decide)

end ViveNas
