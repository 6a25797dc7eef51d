/-
What a write commits: one store operation per extent it reaches, and the
inode's record when the file grew.

`writeOps` is that list of operations in closed form: extent `j` gets
its piece of the data (Lib/FlatFile.lean), put if it is a whole extent
and merged otherwise.

# Scattered data

`vn_write` and `vn_writev` commit the same list for the same bytes; for
the latter the copy loop is shown to deliver exactly the next bytes of
the concatenated buffers (`gatherIov_spec`), in the turns it is given.
-/
import ViveNas.Proofs.Exec
import ViveNas.Proofs.Segments
import ViveNas.Lib.FlatFile

namespace ViveNas

open LittleEndian Overlay Paging FlatFile

-- ====================================================== what is committed

/-- The operation for one extent. -/
def segmentOp (ino E offset : Nat) (data : Bytes) (j : Nat) : WriteOp :=
  let p := piece E offset data j
  if p.data.length ≠ E then
    .merge (vnExtentKey j ino) (vnExtentHead p.off ++ p.data)
  else .put .dataCf (vnExtentKey j ino) (vnExtentHead p.off ++ p.data)

/-- The operations for every extent a write reaches. -/
def writeOps (ino E offset : Nat) (data : Bytes) : List WriteOp :=
  (List.range' (startExt E offset) (extentTurns E offset data.length)).map
    (segmentOp ino E offset data)

/-- The handle after a write that ends at `endOff`: the inode's times and
size, and whether a record is still owed. -/
def wroteFile (file : ViveFile) (now : UInt64) (endOff : Nat) : ViveFile :=
  if file.inode.iSize.toNat < endOff then
    { file with
      inode := { file.inode with
        iMtime := now, iSize := UInt64.ofNat endOff }
      dirty := false }
  else
    { file with inode := { file.inode with iMtime := now }, dirty := true }

/-- The record's operation, when the file grew. -/
def growOps (file : ViveFile) (now : UInt64) (endOff : Nat) :
    List WriteOp :=
  if file.inode.iSize.toNat < endOff then
    [.put .metaCf (inodeKey file.inode.iNo.toNat)
      (wroteFile file now endOff).inode.toBytes]
  else []

section WroteFile

variable (file : ViveFile) (now : UInt64) {endOff : Nat}

theorem wroteFile_iNo (endOff : Nat) :
    (wroteFile file now endOff).inode.iNo = file.inode.iNo := by
  rw [wroteFile]
  split <;> rfl

theorem wroteFile_iExtentSize (endOff : Nat) :
    (wroteFile file now endOff).inode.iExtentSize
      = file.inode.iExtentSize := by
  rw [wroteFile]
  split <;> rfl

theorem wroteFile_iLinksCount (endOff : Nat) :
    (wroteFile file now endOff).inode.iLinksCount
      = file.inode.iLinksCount := by
  rw [wroteFile]
  split <;> rfl

theorem wroteFile_iSize (hend : endOff < 2 ^ 64) :
    (wroteFile file now endOff).inode.iSize.toNat
      = max file.inode.iSize.toNat endOff := by
  rw [wroteFile]
  split
  case isTrue hgrow =>
    show (UInt64.ofNat endOff).toNat = _
    rw [UInt64.toNat_ofNat', Nat.mod_eq_of_lt hend, Nat.max_eq_right
      (Nat.le_of_lt hgrow)]
  case isFalse hfits =>
    show file.inode.iSize.toNat = _
    rw [Nat.max_eq_left (by omega)]

end WroteFile

-- ============================================================ the loops

variable {w : World} {ino E offset : Nat} {data : Bytes}

theorem exec_tryWriteSegment (opt : WriteOpt) (b : List WriteOp)
    (ino E offset : Nat) (data : Bytes) (j : Nat) :
    (writeSegment ino E j (piece E offset data j).off
        (piece E offset data j).data).exec (w.within opt b)
      = .ok ((), (w.skip 1).within opt (b ++
          if w.outcomeAt 0 then [segmentOp ino E offset data j]
          else [])) := by
  rw [writeSegment, segmentOp]
  by_cases hlen : (piece E offset data j).data.length ≠ E
  · rw [if_pos hlen, if_pos hlen, exec_bind_ok (exec_tryMerge opt b _ _)]
    rfl
  · rw [if_neg hlen, if_neg hlen, exec_bind_ok (exec_tryPut opt b _ _ _)]
    rfl

/-- The piece of extent `j`, out of the caller's buffer. -/
theorem readBuf_piece (hE : 0 < E) (hE' : E ≤ 2 ^ 32)
    (hlen : data.length < 2 ^ 64) {j : Nat} (hj : offset / E ≤ j) :
    readBuf data (cut E offset data.length j)
        (segmentLen E offset data.length (cut E offset data.length j))
      = .ok (piece E offset data j).data := by
  have hle := cut_le_len E offset data.length (j + 1)
  have hmono := cut_mono E offset data.length j
  rw [readBuf, segmentLen_cut hE hE' hlen hj, if_pos (by omega)]
  rfl

/-- The loop of `vn_write` from extent `i` on. -/
theorem exec_tryWriteSegments (opt : WriteOpt) (ino : Nat) (hE : 0 < E)
    (hE' : E ≤ 2 ^ 32) (hlen : data.length < 2 ^ 64) (turns : Nat) {i : Nat}
    (hi : offset / E ≤ i) (b : List WriteOp) :
    (writeSegments ino E offset data turns i
        (cut E offset data.length i)).exec (w.within opt b)
      = .ok ((), (w.skip turns).within opt (b ++ w.kept
          ((List.range' i turns).map (segmentOp ino E offset data)))) := by
  induction turns generalizing i b w with
  | zero => simp [writeSegments, World.kept]
  | succ turns ih =>
      rw [writeSegments,
        exec_bind_ok (exec_lift_ok (readBuf_piece hE hE' hlen hi)),
        cut_add_segmentLen hE hE' hlen hi]
      have hseg := exec_tryWriteSegment (w := w) opt b ino E offset data i
      rw [show segmentStart E offset (cut E offset data.length i)
        = (piece E offset data i).off from rfl, exec_bind_ok hseg,
        ih (by omega), skip_skip, Nat.add_comm 1 turns, List.append_assoc]
      rfl

-- ========================================================= the iovec walk

/-- How many bytes of the concatenated buffers lie behind the cursor. -/
def IovCursor.pos (iov : List Bytes) (cur : IovCursor) : Nat :=
  (iov.take cur.iovIdx).flatten.length + cur.inIovOff

/-- The cursor points into its entry. -/
def IovCursor.Valid (iov : List Bytes) (cur : IovCursor) : Prop :=
  ∀ base, iov[cur.iovIdx]? = some base → cur.inIovOff ≤ base.length

/-- The concatenation, cut around one entry. -/
theorem flatten_around {iov : List Bytes} {i : Nat} {base : Bytes}
    (hbase : iov[i]? = some base) :
    iov.flatten
      = (iov.take i).flatten ++ (base ++ (iov.drop (i + 1)).flatten) := by
  obtain ⟨hlt, hget⟩ := List.getElem?_eq_some_iff.mp hbase
  conv_lhs => rw [← List.take_append_drop i iov]
  rw [List.flatten_append, List.drop_eq_getElem_cons hlt, hget,
    List.flatten_cons]

/-- The entry under the cursor, in the concatenation. -/
theorem flatten_drop_pos {iov : List Bytes} {cur : IovCursor} {base : Bytes}
    (hbase : iov[cur.iovIdx]? = some base)
    (hoff : cur.inIovOff ≤ base.length) :
    iov.flatten.drop (cur.pos iov)
      = base.drop cur.inIovOff ++ (iov.drop (cur.iovIdx + 1)).flatten := by
  rw [flatten_around hbase, IovCursor.pos, List.drop_append,
    List.drop_of_length_le (Nat.le_add_right _ _), List.nil_append,
    Nat.add_sub_cancel_left, List.drop_append_of_le_length hoff]

/-- A cursor with bytes ahead of it is inside an entry. -/
theorem IovCursor.Valid.entry {iov : List Bytes} {cur : IovCursor}
    (hvalid : cur.Valid iov) (hahead : cur.pos iov < iov.flatten.length) :
    ∃ base, iov[cur.iovIdx]? = some base ∧ cur.iovIdx < iov.length
      ∧ cur.inIovOff ≤ base.length ∧ base.length ≤ iov.flatten.length := by
  have hin : cur.iovIdx < iov.length := by
    by_contra hout
    rw [IovCursor.pos, List.take_of_length_le (by omega)] at hahead
    omega
  have hbase := List.getElem?_eq_getElem hin
  exact ⟨_, hbase, hin, hvalid _ hbase,
    (List.sublist_flatten_of_mem (List.mem_of_getElem? hbase)).length_le⟩

/-- The cursor after `n` bytes of its entry, moved on when they were the
entry's last. -/
def IovCursor.advance (cur : IovCursor) (base : Bytes) (n : Nat) :
    IovCursor :=
  if cur.inIovOff + n = base.length then ⟨cur.iovIdx + 1, 0⟩
  else ⟨cur.iovIdx, cur.inIovOff + n⟩

theorem IovCursor.pos_advance {iov : List Bytes} {cur : IovCursor}
    {base : Bytes} (hbase : iov[cur.iovIdx]? = some base) (n : Nat) :
    (cur.advance base n).pos iov = cur.pos iov + n := by
  obtain ⟨hlt, hget⟩ := List.getElem?_eq_some_iff.mp hbase
  rw [IovCursor.advance]
  split
  case isTrue hend =>
    rw [IovCursor.pos, IovCursor.pos]
    dsimp only
    rw [List.take_succ_eq_append_getElem hlt, hget, List.flatten_append,
      List.length_append, List.flatten_singleton]
    omega
  case isFalse =>
    rw [IovCursor.pos, IovCursor.pos]
    dsimp only
    omega

theorem IovCursor.valid_advance {iov : List Bytes} {cur : IovCursor}
    {base : Bytes} (hbase : iov[cur.iovIdx]? = some base) {n : Nat}
    (hn : cur.inIovOff + n ≤ base.length) :
    (cur.advance base n).Valid iov := by
  rw [IovCursor.advance]
  split
  case isTrue => exact fun _ _ => Nat.zero_le _
  case isFalse =>
    intro base' hbase'
    obtain rfl : base = base' := Option.some.inj (hbase.symm.trans hbase')
    exact hn

/-- The copy loop delivers the next `n` bytes of the concatenation, in
at most one turn per entry left and one per byte. -/
theorem gatherIov_spec {iov : List Bytes} (hsize : iov.flatten.length < 2 ^ 64)
    (fuel : Nat) {cur : IovCursor} {n : Nat}
    (hvalid : cur.Valid iov) (hrest : cur.pos iov + n ≤ iov.flatten.length)
    (hfuel : (iov.length - cur.iovIdx) + n ≤ fuel) :
    ∃ cur', gatherIov iov fuel cur n
        = .ok ((iov.flatten.drop (cur.pos iov)).take n, cur')
      ∧ cur'.pos iov = cur.pos iov + n ∧ cur'.Valid iov := by
  induction fuel generalizing cur n with
  | zero =>
      obtain rfl : n = 0 := by omega
      exact ⟨cur, rfl, rfl, hvalid⟩
  | succ fuel ih =>
      cases n with
      | zero => exact ⟨cur, rfl, rfl, hvalid⟩
      | succ n =>
          obtain ⟨base, hbase, hin, hoff, hmem⟩ := hvalid.entry
            (show cur.pos iov < iov.flatten.length by omega)
          rw [gatherIov, hbase]
          dsimp only
          rw [sub64_of_le hoff (by omega)]
          generalize hc : min (base.length - cur.inIovOff) (n + 1) = c
          have hstep := IovCursor.pos_advance hbase c
          have hnext : (cur.advance base c).Valid iov :=
            IovCursor.valid_advance hbase (by omega)
          obtain ⟨cur', hrun, hpos, hvalid'⟩ := ih (n := n + 1 - c) hnext
            (by omega)
            (by
              rw [IovCursor.advance]
              split
              case isTrue => dsimp only; omega
              case isFalse => dsimp only; omega)
          refine ⟨cur', ?_, by omega, hvalid'⟩
          have hchunk : (base.drop cur.inIovOff).take c
              = (iov.flatten.drop (cur.pos iov)).take c := by
            rw [flatten_drop_pos hbase hoff, List.take_append_of_le_length]
            rw [List.length_drop]
            omega
          rw [hstep, ← List.drop_drop] at hrun
          rw [readBuf, if_pos (by omega), ok_bind, hchunk]
          rw [IovCursor.advance] at hrun
          rw [hrun, ok_bind, pure_eq_ok, ← List.take_add,
            Nat.add_sub_cancel' (by omega)]

theorem iovLen_eq {iov : List Bytes} (hsize : iov.flatten.length < 2 ^ 64) :
    iovLen iov = iov.flatten.length := by
  rw [iovLen, ← List.length_flatten, u64_of_lt hsize]

/-- The loop of `vn_writev` from extent `i` on is the loop of `vn_write`
over the concatenation, as long as no piece is empty. -/
theorem writevSegments_eq (ino : Nat) (hE : 0 < E) (hE' : E ≤ 2 ^ 32)
    {iov : List Bytes} (hsize : iov.flatten.length < 2 ^ 64) (turns : Nat)
    {i : Nat} (hi : offset / E ≤ i)
    (hpos : ∀ j, i ≤ j → j < i + turns →
      cut E offset iov.flatten.length j
        < cut E offset iov.flatten.length (j + 1))
    {cur : IovCursor} (hvalid : cur.Valid iov)
    (hcur : cur.pos iov = cut E offset iov.flatten.length i) :
    writevSegments ino E offset iov turns i
        (cut E offset iov.flatten.length i) cur
      = writeSegments ino E offset iov.flatten turns i
          (cut E offset iov.flatten.length i) := by
  induction turns generalizing i cur with
  | zero => rfl
  | succ turns ih =>
      have hmore := hpos i (Nat.le_refl i) (by omega)
      have hle := cut_le_len E offset iov.flatten.length (i + 1)
      have hlen := segmentLen_cut hE hE' hsize hi
      obtain ⟨cur', hgather, hcur', hvalid'⟩ := gatherIov_spec hsize
        (gatherFuel iov (cut E offset iov.flatten.length (i + 1)
          - cut E offset iov.flatten.length i))
        (n := cut E offset iov.flatten.length (i + 1)
          - cut E offset iov.flatten.length i)
        hvalid (by omega) (by rw [gatherFuel]; omega)
      have hrest := ih (i := i + 1) (by omega)
        (fun j hj hj' => hpos j (by omega) (by omega)) hvalid' (by omega)
      rw [hcur] at hgather
      rw [writevSegments, writeSegments, iovLen_eq hsize,
        readBuf_piece hE hE' hsize hi, cut_add_segmentLen hE hE' hsize hi,
        hlen, if_neg (by omega), hgather, ← hrest]
      rfl

-- ============================================================= the calls

/-- The end of a write: the record if the file grew, and the commit. -/
theorem exec_finishWrite (h : Calm w) (opt : WriteOpt) (b : List WriteOp)
    (file : ViveFile) {len : Nat} (hend : offset + len < 2 ^ 64) :
    (finishWrite file offset len).exec (w.within opt b)
      = .ok ((len, wroteFile file w.clock (offset + len)),
          w.committed opt (b ++ growOps file w.clock (offset + len))) := by
  rw [finishWrite, exec_bind_ok exec_time, wroteFile, growOps]
  dsimp only
  rw [u64_of_lt hend]
  by_cases hgrow : file.inode.iSize.toNat < offset + len
  · rw [if_pos hgrow, if_pos hgrow, if_pos hgrow,
      exec_bind_ok (exec_persistTx h opt b _)]
    dsimp only
    rw [exec_bind_ok (exec_commit h opt _), wroteFile, if_pos hgrow]
    rfl
  · rw [if_neg hgrow, if_neg hgrow, if_neg hgrow,
      exec_bind_ok (exec_commit h opt b), List.append_nil]
    rfl

/-- `vn_write` returns the length and commits the write. -/
theorem exec_vnWrite (h : Calm w) (file : ViveFile)
    (hE : 0 < file.inode.iExtentSize.toNat)
    (hend : offset + data.length < 2 ^ 63) :
    (vnWrite file data offset).exec w
      = .ok ((data.length, wroteFile file w.clock (offset + data.length)),
          w.committed .dataOpt
            (writeOps file.iNo.toNat file.inode.iExtentSize.toNat offset data
              ++ growOps file w.clock (offset + data.length))) := by
  have hE' : file.inode.iExtentSize.toNat ≤ 2 ^ 32 :=
    Nat.le_of_lt file.inode.iExtentSize.toNat_lt
  have hloop := exec_tryWriteSegments (w := w) .dataOpt file.iNo.toNat hE hE'
    (show data.length < 2 ^ 64 by omega)
    (extentTurns file.inode.iExtentSize.toNat offset data.length)
    (Nat.le_refl (offset / file.inode.iExtentSize.toNat)) []
  rw [cut_first, h.skip, h.kept] at hloop
  rw [vnWrite, if_neg (by omega), exec_bind_ok (exec_begin .dataOpt), startExt,
    exec_bind_ok hloop, exec_finishWrite h .dataOpt _ file (by omega)]
  rfl

/-- Every extent a non-empty write reaches gets a byte. -/
theorem cut_lt_of_reached (hE : 0 < E) {len j : Nat} (hlen : 0 < len)
    (hj : offset / E ≤ j) (hlast : j < (offset + len + E - 1) / E) :
    cut E offset len j < cut E offset len (j + 1) := by
  have hmul : (j + 1) * E = j * E + E := Nat.succ_mul j E
  have hstart : offset < j * E + E := by
    have := Nat.lt_succ_iff.mpr hj
    rwa [Nat.div_lt_iff_lt_mul hE, Nat.succ_mul] at this
  have hreach : j * E + E ≤ offset + len + E - 1 := by
    rw [← hmul]
    exact (Nat.le_div_iff_mul_le hE).mp hlast
  simp only [cut, hmul]
  omega

/-- `vn_writev` is `vn_write` with the buffers joined, call for call. -/
theorem vnWritev_eq (file : ViveFile) {iov : List Bytes}
    (hpos : 0 < iov.flatten.length)
    (hsize : iov.flatten.length < 2 ^ 64) :
    vnWritev file iov offset = vnWrite file iov.flatten offset := by
  by_cases hE : file.inode.iExtentSize.toNat = 0
  · rw [vnWritev, vnWrite, if_pos hE, if_pos hE]
  · have hE' : file.inode.iExtentSize.toNat ≤ 2 ^ 32 :=
      Nat.le_of_lt file.inode.iExtentSize.toNat_lt
    have hloop := writevSegments_eq file.iNo.toNat (by omega) hE' hsize
      (extentTurns file.inode.iExtentSize.toNat offset iov.flatten.length)
      (Nat.le_refl (offset / file.inode.iExtentSize.toNat))
      (fun j hj hj' => cut_lt_of_reached (by omega) hpos hj
        (lt_roundUp_of_turn hj hj'))
      (show IovCursor.Valid iov ⟨0, 0⟩ from fun _ _ => Nat.zero_le _)
      (by rw [cut_first]; rfl)
    rw [cut_first] at hloop
    rw [vnWritev, vnWrite, if_neg hE, if_neg hE, iovLen_eq hsize, startExt,
      hloop]

/-- An empty `vn_writev` dies as soon as its loop takes a turn: it asserts
that there is something to write. -/
theorem vnWritev_dies {file : ViveFile} {iov : List Bytes}
    (hnil : iov.flatten = [])
    (hturns : extentTurns file.inode.iExtentSize.toNat offset 0 ≠ 0) :
    (vnWritev file iov offset).exec w = .error .assertFailed := by
  have hE : file.inode.iExtentSize.toNat ≠ 0 := by
    intro hE
    apply hturns
    rw [hE, extentTurns, endExt, startExt, Nat.div_zero, Nat.div_zero]
    rfl
  have htotal : iovLen iov = 0 := by
    rw [iovLen_eq (by rw [hnil]; decide), hnil]
    rfl
  obtain ⟨turns, hsucc⟩ := Nat.exists_eq_succ_of_ne_zero hturns
  have hnone : segmentLen file.inode.iExtentSize.toNat offset
      (iovLen iov) 0 = 0 := by
    rw [htotal, segmentLen, sub64_of_le (Nat.le_refl 0) (by omega),
      Nat.sub_zero, Nat.zero_min]
  rw [vnWritev, if_neg hE, exec_bind_ok (exec_begin .dataOpt), htotal, hsucc,
    writevSegments, hnone, if_pos rfl]
  rfl

/-- Any other `vn_writev` is `vn_write` with the buffers joined. -/
theorem vnWritev_eq_of_alive (file : ViveFile) {iov : List Bytes}
    (hsize : iov.flatten.length < 2 ^ 64)
    (halive : ¬ (iov.flatten = []
      ∧ extentTurns file.inode.iExtentSize.toNat offset 0 ≠ 0)) :
    vnWritev file iov offset = vnWrite file iov.flatten offset := by
  by_cases hpos : 0 < iov.flatten.length
  · exact vnWritev_eq file hpos hsize
  · have hzero : iov.flatten.length = 0 := by omega
    have hturns : extentTurns file.inode.iExtentSize.toNat offset 0 = 0 := by
      by_contra hturns
      exact halive ⟨List.eq_nil_of_length_eq_zero hzero, hturns⟩
    have htotal : iovLen iov = 0 := (iovLen_eq hsize).trans hzero
    rw [vnWritev, vnWrite, htotal, hzero, hturns]
    rfl

/-- A `vn_writev` that returns has done what `vn_write` does. -/
theorem vnWrite_of_vnWritev {file : ViveFile} {iov : List Bytes}
    (hsize : iov.flatten.length < 2 ^ 64) {x : (Int × ViveFile) × World}
    (hx : (vnWritev file iov offset).exec w = .ok x) :
    (vnWrite file iov.flatten offset).exec w = .ok x := by
  by_cases hdies : iov.flatten = []
      ∧ extentTurns file.inode.iExtentSize.toNat offset 0 ≠ 0
  · rw [vnWritev_dies hdies.1 hdies.2] at hx
    cases hx
  · rwa [← vnWritev_eq_of_alive file hsize hdies]

end ViveNas
