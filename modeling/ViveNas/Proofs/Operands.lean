/-
The operands the write path makes, and what merging them can do.

`vn_write` and `vn_writev` cut their data at extent boundaries, so every
value they hand to Merge fits its extent at its offset, whatever the
store replies and wherever the write lies. Partial merges keep that
(`Operand` closes the written values under them), and with it every copy
of the merge operator stays inside the buffer it resized
(`merging_stays_inside`).

# The assertion

What can fail is the operator's assertion. The header's `merge_off` and
`data_bmp` are the same two bytes, so a delta at the last offset of an
extent reads as a full bitmap, and merging it with anything stops the
program (`merge_assertion_iff`).
-/
import ViveNas.Proofs.Grouping
import ViveNas.Proofs.WriteSpec
import ViveNas.Proofs.CallSpec
import ViveNas.Proofs.Splitting

namespace ViveNas

open LittleEndian Overlay ViveDataMergeOperator

-- ========================================================= what is written

/-- The value is a piece of a write to the file: it goes to the extent of
the piece, its data is as long, and the 16 bits of its header hold all of
`start_off`. -/
def PieceOf (ino : Nat) (segs : List Segment) (key v : Bytes) : Prop :=
  ∃ g ∈ segs, key = vnExtentKey g.index ino
    ∧ mergeOff v = g.startOff
    ∧ ∃ data, data.length = g.len ∧ v = vnExtentHead g.startOff ++ data

/-- The value is a header made for an offset inside the extent, and data
that ends inside it. -/
def FitsExtent (v : Bytes) : Prop :=
  ∃ o data, o < 65536 ∧ o + data.length ≤ vivefsExtentSize
    ∧ v = vnExtentHead o ++ data

/-- What the write path hands to data_cf: pieces, and whole extents. -/
def StoreCall.Cuts (ino : Nat) (segs : List Segment) : StoreCall → Prop
  | .merge key v => PieceOf ino segs key v
  | .put .dataCf _ v => v.length = pfsExtentHeadSize + vivefsExtentSize
  | _ => True

section Writing

variable {ino offset : Nat}

/-- A segment never runs past the end of its extent. -/
theorem segment_fits (offset len b : Nat) :
    segmentStart vivefsExtentSize offset b
        + segmentLen vivefsExtentSize offset len b ≤ vivefsExtentSize := by
  have hmod := Nat.mod_lt (offset + b) extentSize_pos
  have hle := extentSize_le
  have hsub : sub64 vivefsExtentSize
        (segmentStart vivefsExtentSize offset b)
      = vivefsExtentSize - segmentStart vivefsExtentSize offset b :=
    sub64_of_le (Nat.le_of_lt hmod) (by omega)
  rw [segmentLen, hsub]
  rw [segmentStart] at *
  omega

/-- ... wherever the range lies, also where the loop's bound wraps. -/
theorem segmentsFrom_fit {len turns idx b : Nat} {g : Segment}
    (hg : g ∈ segmentsFrom vivefsExtentSize offset len turns idx b) :
    g.startOff < vivefsExtentSize
      ∧ g.startOff + g.len ≤ vivefsExtentSize := by
  induction turns generalizing idx b with
  | zero => cases hg
  | succ turns ih =>
      rcases List.mem_cons.mp hg with rfl | hg
      · exact ⟨Nat.mod_lt _ extentSize_pos, segment_fits offset len b⟩
      · exact ih hg

theorem PieceOf.fits {len : Nat} {key v : Bytes}
    (h : PieceOf ino (segments vivefsExtentSize offset len) key v) :
    FitsExtent v := by
  obtain ⟨g, hg, -, -, data, hdata, rfl⟩ := h
  obtain ⟨hstart, hend⟩ := segmentsFrom_fit hg
  rw [extentSize_eq] at hstart
  exact ⟨g.startOff, data, hstart, hdata ▸ hend, rfl⟩

theorem pieceOf_issued {α : Type} {p : Fs α} {segs : List Segment}
    {key v : Bytes} (hp : Prog.Calls (StoreCall.Cuts ino segs) p)
    (h : p.Issues (.merge key v)) : PieceOf ino segs key v := by
  have hcuts : StoreCall.Cuts ino segs (.merge key v) := h.of_calls hp
  exact hcuts

theorem callsCut_writeSegment {len : Nat} {g : Segment} {data : Bytes}
    (hg : g ∈ segments vivefsExtentSize offset len)
    (hdata : data.length = g.len) :
    Prog.Calls (StoreCall.Cuts ino (segments vivefsExtentSize offset len))
      (writeSegment ino vivefsExtentSize g.index g.startOff data) := by
  rw [writeSegment]
  split
  case isTrue =>
    obtain ⟨hstart, -⟩ := segmentsFrom_fit hg
    rw [extentSize_eq] at hstart
    refine (Prog.Calls.perform ⟨g, hg, rfl, ?_, data, hdata, rfl⟩).bind
      fun _ => trivial
    rw [mergeOff_vnExtentHead, Nat.mod_eq_of_lt hstart]
  case isFalse hwhole =>
    refine (Prog.Calls.perform ?_).bind fun _ => trivial
    show (vnExtentHead g.startOff ++ data).length = _
    rw [List.length_append, vnExtentHead_length, not_ne_iff.mp hwhole]

theorem readBuf_length {buf out : Bytes} {off n : Nat}
    (h : readBuf buf off n = .ok out) : out.length = n := by
  rw [readBuf] at h
  split at h
  case isTrue hin =>
    injection h with h
    rw [← h, List.length_take, List.length_drop]
    omega
  case isFalse => cases h

/-- What the copy loop of `vn_writev` gathers, if it returns. -/
theorem gatherIov_length {iov : List Bytes} {fuel n : Nat}
    {cur cur' : IovCursor} {out : Bytes}
    (h : gatherIov iov fuel cur n = .ok (out, cur')) : out.length = n := by
  induction fuel generalizing cur n out with
  | zero =>
      cases n with
      | zero => cases h; rfl
      | succ n => cases h
  | succ fuel ih =>
      cases n with
      | zero => cases h; rfl
      | succ n =>
          rw [gatherIov] at h
          split at h
          · cases h
          · obtain ⟨chunk, hread, h⟩ := ok_of_bind h
            obtain ⟨⟨rest, cur₁⟩, hrest, h⟩ := ok_of_bind h
            cases h
            rw [List.length_append, readBuf_length hread, ih hrest]
            omega

theorem callsCut_writeTurn {buf : Bytes} {g : Segment}
    (hg : g ∈ segments vivefsExtentSize offset buf.length) (b : Nat) :
    Prog.Calls
      (StoreCall.Cuts ino (segments vivefsExtentSize offset buf.length))
      (writeTurn ino vivefsExtentSize buf g b ()) := by
  rw [writeTurn]
  cases hread : readBuf buf b g.len with
  | error e => exact trivial
  | ok data => exact callsCut_writeSegment hg (readBuf_length hread)

theorem callsCut_writevTurn {iov : List Bytes} {g : Segment}
    (hg : g ∈ segments vivefsExtentSize offset (iovLen iov)) (b : Nat)
    (cur : IovCursor) :
    Prog.Calls
      (StoreCall.Cuts ino (segments vivefsExtentSize offset (iovLen iov)))
      (writevTurn ino vivefsExtentSize iov g b cur) := by
  rw [writevTurn]
  split
  · exact trivial
  · cases hgather : gatherIov iov (gatherFuel iov g.len) cur g.len with
    | error e => exact trivial
    | ok gathered =>
        exact (callsCut_writeSegment hg (gatherIov_length hgather)).bind
          fun _ => trivial

theorem callsCut_finishWrite {segs : List Segment} (file : ViveFile)
    (offset len : Nat) :
    Prog.Calls (StoreCall.Cuts ino segs) (finishWrite file offset len) := by
  have hrollback {a : Int × ViveFile} :
      Prog.Calls (StoreCall.Cuts ino segs)
        (Fs.rollback >>= fun _ => pure a) :=
    (Prog.Calls.perform trivial).bind fun _ => trivial
  refine (Prog.Calls.perform trivial).bind fun now => ?_
  dsimp only
  split
  · refine calls_onStatus (.perform trivial) hrollback ?_
    exact calls_onStatus (.perform trivial) hrollback trivial
  · exact calls_onStatus (.perform trivial) hrollback trivial

variable {file : ViveFile}
  (hE : file.inode.iExtentSize.toNat = vivefsExtentSize)
include hE

/-- Everything `vn_write` hands to data_cf is cut from its range, whatever
it is given and whatever the store replies. -/
theorem callsCut_vnWrite (inBuf : Bytes) (offset : Nat) :
    Prog.Calls (StoreCall.Cuts file.iNo.toNat
        (segments vivefsExtentSize offset inBuf.length))
      (vnWrite file inBuf offset) := by
  rw [vnWrite, hE]
  split
  · exact trivial
  · refine (Prog.Calls.perform trivial).bind fun _ => ?_
    rw [writeSegments_eq_run]
    refine (calls_runSegments (fun g hg b _ => ?_) 0 ()).bind fun _ =>
      callsCut_finishWrite _ _ _
    exact callsCut_writeTurn hg b

theorem callsCut_vnWritev (iov : List Bytes) (offset : Nat) :
    Prog.Calls (StoreCall.Cuts file.iNo.toNat
        (segments vivefsExtentSize offset (iovLen iov)))
      (vnWritev file iov offset) := by
  rw [vnWritev, hE]
  split
  · exact trivial
  · refine (Prog.Calls.perform trivial).bind fun _ => ?_
    rw [writevSegments_eq_run]
    refine (calls_runSegments (fun g hg b cur => ?_) 0 _).bind fun _ =>
      callsCut_finishWrite _ _ _
    exact callsCut_writevTurn hg b cur

end Writing

/-- A call of the write path on a file with the regular extent size. -/
inductive WriteCall (ino : Nat) : Fs (Int × ViveFile) → Prop
  | write (file : ViveFile) (inBuf : Bytes) (offset : Nat)
      (hino : file.iNo.toNat = ino)
      (hE : file.inode.iExtentSize.toNat = vivefsExtentSize) :
      WriteCall ino (vnWrite file inBuf offset)
  | writev (file : ViveFile) (iov : List Bytes) (offset : Nat)
      (hino : file.iNo.toNat = ino)
      (hE : file.inode.iExtentSize.toNat = vivefsExtentSize) :
      WriteCall ino (vnWritev file iov offset)

theorem WriteCall.cuts {ino : Nat} {p : Fs (Int × ViveFile)}
    (h : WriteCall ino p) : ∃ offset len, Prog.Calls
      (StoreCall.Cuts ino (segments vivefsExtentSize offset len)) p := by
  cases h with
  | write file inBuf offset hino hE =>
      exact ⟨offset, inBuf.length, hino ▸ callsCut_vnWrite hE inBuf offset⟩
  | writev file iov offset hino hE =>
      exact ⟨offset, iovLen iov, hino ▸ callsCut_vnWritev hE iov offset⟩

-- =============================================================== operands

/-- A write can hand the value to Merge for the extent. -/
def Produced (ino idx : Nat) (v : Bytes) : Prop :=
  ∃ p, WriteCall ino p ∧ Prog.Issues (.merge (vnExtentKey idx ino) v) p

/-- An operand of the extent: one a write produced, or what PartialMerge
made of two of them. -/
inductive Operand (ino idx : Nat) : Bytes → Prop
  | written {v : Bytes} (h : Produced ino idx v) : Operand ino idx v
  | merged {a b newValue v : Bytes} (ha : Operand ino idx a)
      (hb : Operand ino idx b) (h : partialMerge a b newValue = .ok v) :
      Operand ino idx v

/-- A value of the extent that FullMergeV2 may start from: one a write
put, or an earlier result. -/
inductive Existing (ino idx : Nat) : Bytes → Prop
  | put {p : Fs (Int × ViveFile)} {v : Bytes} (hp : WriteCall ino p)
      (h : Prog.Issues (.put .dataCf (vnExtentKey idx ino) v) p) :
      Existing ino idx v
  | merged {existing : Option Bytes} {operands : List Bytes}
      {newValue v : Bytes} (hbase : ∀ e ∈ existing, Existing ino idx e)
      (hops : ∀ o ∈ operands, Operand ino idx o)
      (h : fullMergeV2 existing operands newValue = .ok v) :
      Existing ino idx v

section Inside

variable {ino idx : Nat}

theorem Produced.fits {v : Bytes} (h : Produced ino idx v) :
    FitsExtent v := by
  obtain ⟨p, hp, hissues⟩ := h
  obtain ⟨offset, len, hcalls⟩ := hp.cuts
  exact (pieceOf_issued hcalls hissues).fits

theorem FitsExtent.delta {v : Bytes} (h : FitsExtent v) :
    ∃ d : Delta, d.bytes = v := by
  obtain ⟨o, data, ho, hfit, rfl⟩ := h
  exact ⟨Delta.make o data hfit ho, rfl⟩

/-- Every operand of the extent is a delta. -/
theorem Operand.delta {v : Bytes} (h : Operand ino idx v) :
    ∃ d : Delta, d.bytes = v := by
  induction h with
  | written h => exact h.fits.delta
  | merged ha hb h iha ihb =>
      obtain ⟨l, rfl⟩ := iha
      obtain ⟨r, rfl⟩ := ihb
      rw [partialMerge_eq_associate] at h
      split at h
      case isTrue => cases h
      case isFalse =>
        obtain ⟨d, hd, -⟩ := associate_merge_delta l r _
        exact ⟨d, Except.ok.inj (hd.symm.trans h)⟩

/-- What the operator's arithmetic does on two operands: no size is less
than a header, the union does not end before it begins, and unless the
assertion stops it every copy lands in the resized string and the header
keeps the offset. -/
structure MergesInside (a b newValue : Bytes) : Prop where
  head_left : pfsExtentHeadSize ≤ a.length
  head_right : pfsExtentHeadSize ≤ b.length
  begin_le_end : min (mergeOff a) (mergeOff b)
    ≤ max (mergeOff a + a.length - pfsExtentHeadSize)
      (mergeOff b + b.length - pfsExtentHeadSize)
  result : partialMerge a b newValue = .error .assertFailed
    ∨ ∃ v, partialMerge a b newValue = .ok v
      ∧ mergeOff v = min (mergeOff a) (mergeOff b)
      ∧ v.length = max (mergeOff a + a.length - pfsExtentHeadSize)
          (mergeOff b + b.length - pfsExtentHeadSize)
        - min (mergeOff a) (mergeOff b) + pfsExtentHeadSize

theorem mergesInside (l r : Delta) (newValue : Bytes) :
    MergesInside l.bytes r.bytes newValue := by
  have hbegin := union_begin_le l r
  obtain ⟨d, hd, hoff, hhi⟩ := associate_merge_delta l r newValue
  have hhead := d.head_le
  have hl := l.head_le
  have hr := r.head_le
  rw [d.patch_hi] at hhi
  rw [l.patch_hi, r.patch_hi] at hbegin hhi
  refine ⟨hl, hr, by omega, ?_⟩
  rw [partialMerge_eq_associate]
  split
  · exact Or.inl rfl
  · exact Or.inr ⟨d.bytes, hd, hoff, by omega⟩

theorem operands_deltas {operands : List Bytes}
    (h : ∀ o ∈ operands, Operand ino idx o) :
    ∃ ds : List Delta, ds.map Delta.bytes = operands := by
  induction operands with
  | nil => exact ⟨[], rfl⟩
  | cons v operands ih =>
      obtain ⟨d, rfl⟩ := (h v List.mem_cons_self).delta
      obtain ⟨ds, rfl⟩ := ih fun o ho => h o (List.mem_cons_of_mem _ ho)
      exact ⟨d :: ds, rfl⟩

theorem fullExtents {existing : Option Bytes}
    (h : ∀ e ∈ existing, ∃ b : FullExtent, b.bytes = e) :
    ∃ e : Option FullExtent, e.map FullExtent.bytes = existing := by
  cases existing with
  | none => exact ⟨none, rfl⟩
  | some e =>
      obtain ⟨b, rfl⟩ := h e rfl
      exact ⟨some b, rfl⟩

/-- A full merge of deltas into any string returns a whole extent. -/
theorem fullMergeV2_whole (existing : Option FullExtent) (ops : List Delta)
    (newValue : Bytes) :
    ∃ b : FullExtent, fullMergeV2 (existing.map FullExtent.bytes)
      (ops.map Delta.bytes) newValue = .ok b.bytes := by
  obtain ⟨hd, data, hbuf, hhd, hdata⟩ := resize_split newValue
    (Nat.le_add_left pfsExtentHeadSize vivefsExtentSize)
  rw [Nat.add_sub_cancel] at hdata
  have hbase : ((existing.map fun b => dataOf b.bytes).getD data).length
      = vivefsExtentSize := by
    cases existing with
    | none => exact hdata
    | some b => exact baseData_length (some b)
  refine ⟨⟨_, ?_⟩, fullMergeV2_into existing ops hhd hbuf⟩
  rw [List.length_append, hhd, applyAll_length (patches_fit hbase ops), hbase]

/-- Every value FullMergeV2 may start from is a whole extent. -/
theorem Existing.full {v : Bytes} (h : Existing ino idx v) :
    ∃ b : FullExtent, b.bytes = v := by
  induction h with
  | @put p v hp h =>
      obtain ⟨offset, len, hcalls⟩ := hp.cuts
      have hsize : StoreCall.Cuts ino (segments vivefsExtentSize offset len)
          (.put .dataCf (vnExtentKey idx ino) v) := h.of_calls hcalls
      exact ⟨⟨v, hsize⟩, rfl⟩
  | @merged existing operands newValue v hbase hops h ih =>
      obtain ⟨ds, rfl⟩ := operands_deltas hops
      obtain ⟨e, rfl⟩ := fullExtents ih
      obtain ⟨b, hb⟩ := fullMergeV2_whole e ds newValue
      exact ⟨b, Except.ok.inj (hb.symm.trans h)⟩

end Inside

/-- Merging stays inside the extent. Every operand a write hands to Merge is
a piece of its range, and its header keeps all of the piece's `start_off`;
every operand has a header and ends inside the extent; a partial merge of
two of them copies inside the string it resized and keeps the offset; and
a full merge of any of them over any value it may start from stays inside
too. -/
theorem merging_stays_inside (ino idx : Nat) :
    (∀ (file : ViveFile) (offset : Nat) (key v : Bytes),
        file.iNo.toNat = ino →
        file.inode.iExtentSize.toNat = vivefsExtentSize →
        (∀ inBuf, (vnWrite file inBuf offset).Issues (.merge key v) →
          PieceOf ino (segments vivefsExtentSize offset inBuf.length) key v)
        ∧ ∀ iov, (vnWritev file iov offset).Issues (.merge key v) →
          PieceOf ino (segments vivefsExtentSize offset (iovLen iov)) key v)
      ∧ (∀ v, Operand ino idx v → pfsExtentHeadSize ≤ v.length
        ∧ mergeOff v + (v.length - pfsExtentHeadSize) ≤ vivefsExtentSize)
      ∧ (∀ a b newValue, Operand ino idx a → Operand ino idx b →
        MergesInside a b newValue)
      ∧ ∀ existing operands newValue,
        (∀ e ∈ existing, Existing ino idx e) →
        (∀ o ∈ operands, Operand ino idx o) →
        (∀ e ∈ existing, e.length = pfsExtentHeadSize + vivefsExtentSize)
          ∧ ∃ v, fullMergeV2 existing operands newValue = .ok v
            ∧ v.length = pfsExtentHeadSize + vivefsExtentSize := by
  refine ⟨?_, ?_, ?_, ?_⟩
  · intro file offset key v hino hE
    subst hino
    exact ⟨fun inBuf => pieceOf_issued (callsCut_vnWrite hE inBuf offset),
      fun iov => pieceOf_issued (callsCut_vnWritev hE iov offset)⟩
  · intro v hv
    obtain ⟨d, rfl⟩ := hv.delta
    exact ⟨d.head_le, d.fits⟩
  · intro a b newValue ha hb
    obtain ⟨l, rfl⟩ := ha.delta
    obtain ⟨r, rfl⟩ := hb.delta
    exact mergesInside l r newValue
  · intro existing operands newValue hbase hops
    obtain ⟨ds, rfl⟩ := operands_deltas hops
    obtain ⟨e, rfl⟩ := fullExtents fun v hv => (hbase v hv).full
    refine ⟨?_, ?_⟩
    · intro v hv
      obtain ⟨b, -, rfl⟩ := Option.mem_map.mp hv
      exact b.size_eq
    · obtain ⟨b, hb⟩ := fullMergeV2_whole e ds newValue
      exact ⟨b.bytes, hb, b.size_eq⟩

/-- A new file's handle, and what a write to it uses of it. -/
theorem newFile_newInode (ino : Nat) (hino : ino < 2 ^ 64) :
    (newFile (newInode ino 0 0 0 0) 0).iNo.toNat = ino
      ∧ (newFile (newInode ino 0 0 0 0) 0).inode.iExtentSize.toNat
        = vivefsExtentSize := by
  refine ⟨newInode_iNo hino 0 0 0 0, ?_⟩
  rw [extentSize_eq]
  exact newInode_iExtentSize ino 0 0 0 0

section Piece

variable {o : Nat} {data : Bytes} {ino idx : Nat} (hino : ino < 2 ^ 64)
  (hdata : 0 < data.length) (hfit : o + data.length ≤ vivefsExtentSize)
  (hpart : data.length ≠ vivefsExtentSize)
  (hend : idx * vivefsExtentSize + o + data.length < 2 ^ 63)
include hino hdata hfit hpart hend

/-- A write of just one piece of an extent merges that piece. -/
theorem issues_of_fits :
    (vnWrite (newFile (newInode ino 0 0 0 0) 0) data
      (idx * vivefsExtentSize + o)).Issues
        (.merge (vnExtentKey idx ino) (vnExtentHead o ++ data)) := by
  have hE := extentSize_pos
  have hle := extentSize_le
  obtain ⟨hfile, hsize⟩ := newFile_newInode ino hino
  obtain ⟨turns, hturns⟩ := extentTurns_pos hE hle hend hdata
  have hstart : startExt vivefsExtentSize (idx * vivefsExtentSize + o)
      = idx := by
    rw [startExt, Nat.add_comm, Nat.add_mul_div_right _ _ hE,
      Nat.div_eq_of_lt (by omega), Nat.zero_add]
  have hoff : segmentStart vivefsExtentSize (idx * vivefsExtentSize + o) 0
      = o := by
    rw [segmentStart, Nat.add_zero, Nat.add_comm, Nat.add_mul_mod_self_right,
      Nat.mod_eq_of_lt (by omega)]
  have hlen : segmentLen vivefsExtentSize (idx * vivefsExtentSize + o)
      data.length 0 = data.length := by
    rw [segmentLen, hoff, sub64_of_le (Nat.zero_le _) (by omega),
      sub64_of_le (by omega) (by omega)]
    omega
  have hbuf : readBuf data 0 data.length = .ok data := by
    rw [readBuf, if_pos (by omega), List.drop_zero, List.take_length]
  rw [vnWrite, hsize, if_neg (by omega)]
  refine Prog.Issues.after () (Prog.Issues.bind ?_ _)
  rw [hturns, hstart, writeSegments, hoff, hlen, hbuf, hfile]
  refine Prog.Issues.bind
    (x := writeSegment ino vivefsExtentSize idx o data) ?_ _
  rw [writeSegment, if_pos hpart]
  exact Or.inl rfl

/-- So any piece of an extent can be produced. -/
theorem produced_of_fits : Produced ino idx (vnExtentHead o ++ data) := by
  obtain ⟨hfile, hsize⟩ := newFile_newInode ino hino
  exact ⟨_, .write _ data _ hfile hsize,
    issues_of_fits hino hdata hfit hpart hend⟩

end Piece

section LastByte

variable (b : UInt8)

theorem lastByte_fits :
    65535 + [b].length ≤ vivefsExtentSize
      ∧ [b].length ≠ vivefsExtentSize
      ∧ 0 * vivefsExtentSize + 65535 + [b].length < 2 ^ 63 := by
  rw [extentSize_eq]
  exact ⟨Nat.le_refl _, by show 1 ≠ 65536; decide,
    by show 0 * 65536 + 65535 + 1 < 2 ^ 63; decide⟩

/-- One byte at the last offset of an extent is such an operand. -/
theorem produced_lastByte : Produced 12 0 (vnExtentHead 65535 ++ [b]) :=
  produced_of_fits (by decide) Nat.one_pos (lastByte_fits b).1
    (lastByte_fits b).2.1 (lastByte_fits b).2.2

end LastByte

/-- That operand keeps its offset, and its bounds hold alone and merged
over nothing. -/
theorem merging_stays_inside_lastByte :
    PieceOf 12 (segments vivefsExtentSize (0 * vivefsExtentSize + 65535) 1)
        (vnExtentKey 0 12) (vnExtentHead 65535 ++ [7])
      ∧ (pfsExtentHeadSize ≤ (vnExtentHead 65535 ++ [7]).length
        ∧ mergeOff (vnExtentHead 65535 ++ [7])
            + ((vnExtentHead 65535 ++ [7]).length - pfsExtentHeadSize)
          ≤ vivefsExtentSize)
      ∧ ∃ v, fullMergeV2 none [vnExtentHead 65535 ++ [7]] [] = .ok v
        ∧ v.length = pfsExtentHeadSize + vivefsExtentSize := by
  obtain ⟨hpieces, hoperand, -, hfull⟩ := merging_stays_inside 12 0
  obtain ⟨hfit, hpart, hend⟩ := lastByte_fits 7
  obtain ⟨hfile, hsize⟩ := newFile_newInode 12 (by decide)
  have hwritten := Operand.written (produced_lastByte 7)
  refine ⟨?_, hoperand _ hwritten, ?_⟩
  · exact (hpieces _ _ _ _ hfile hsize).1 [7]
      (issues_of_fits (by decide) Nat.one_pos hfit hpart hend)
  · refine (hfull none [vnExtentHead 65535 ++ [7]] [] nofun ?_).2
    intro o ho
    rw [List.mem_singleton.mp ho]
    exact hwritten

-- ============================================================ the assertion

namespace OperandTree

variable {l r t : OperandTree}

/-- Partial merges of deltas return a delta, or the assertion fails. -/
theorem value_total (t : OperandTree) :
    t.value = .error .assertFailed ∨ ∃ d : Delta, t.value = .ok d.bytes := by
  induction t with
  | operand d => exact Or.inr ⟨d, rfl⟩
  | merged l r ihl ihr =>
      rw [value]
      obtain hl | ⟨a, hl⟩ := ihl
      · rw [hl]
        exact Or.inl rfl
      obtain hr | ⟨b, hr⟩ := ihr
      · rw [hl, hr]
        exact Or.inl rfl
      rw [hl, ok_bind, hr, ok_bind, partialMerge_spec]
      split
      · exact Or.inl rfl
      · exact Or.inr ⟨_, rfl⟩

/-- The partial merges under an operand fail, or give one that reads as a
full bitmap. -/
def Flagged (t : OperandTree) : Prop :=
  t.value = .error .assertFailed
    ∨ ∃ d : Delta, t.value = .ok d.bytes
      ∧ mergeOff d.bytes = pfsFullExtentBmp

/-- Merging such an operand with anything fails. -/
theorem merged_asserts (h : l.Flagged ∨ r.Flagged) :
    (merged l r).value = .error .assertFailed := by
  rw [value]
  obtain hl | ⟨a, hl⟩ := l.value_total
  · rw [hl]
    rfl
  obtain hr | ⟨b, hr⟩ := r.value_total
  · rw [hl, hr]
    rfl
  rw [hl, ok_bind, hr, ok_bind, partialMerge_spec, if_pos]
  rcases h with (he | ⟨d, hd, hbmp⟩) | (he | ⟨d, hd, hbmp⟩)
  · cases hl.symm.trans he
  · left
    rwa [Except.ok.inj (hl.symm.trans hd)]
  · cases hr.symm.trans he
  · right
    rwa [Except.ok.inj (hr.symm.trans hd)]

theorem flagged_of_operand {d : Delta} (hd : d ∈ t.operands)
    (hbmp : mergeOff d.bytes = pfsFullExtentBmp) : t.Flagged := by
  induction t with
  | operand d' =>
      obtain rfl := List.mem_singleton.mp hd
      exact Or.inr ⟨d, rfl, hbmp⟩
  | merged l r ihl ihr =>
      rw [operands, List.mem_append] at hd
      exact Or.inl (merged_asserts (hd.imp ihl ihr))

/-- Offsets below the last one stay below it. -/
theorem value_ok (h : ∀ d ∈ t.operands, mergeOff d.bytes ≠ pfsFullExtentBmp) :
    ∃ d : Delta, t.value = .ok d.bytes
      ∧ mergeOff d.bytes ≠ pfsFullExtentBmp := by
  induction t with
  | operand d => exact ⟨d, rfl, h d (List.mem_singleton_self d)⟩
  | merged l r ihl ihr =>
      rw [operands] at h
      obtain ⟨a, hl, ha⟩ := ihl fun d hd => h d (List.mem_append_left _ hd)
      obtain ⟨b, hr, hb⟩ := ihr fun d hd => h d (List.mem_append_right _ hd)
      refine ⟨joinDelta a b, ?_, ?_⟩
      · rw [value, hl, ok_bind, hr, ok_bind, partialMerge_spec, if_neg]
        exact not_or.mpr ⟨ha, hb⟩
      · have hoff : mergeOff (joinDelta a b).bytes
            = min (mergeOff a.bytes) (mergeOff b.bytes) :=
          congrArg Patch.off (joinDelta_patch a b)
        rw [hoff]
        rcases Nat.le_total (mergeOff a.bytes) (mergeOff b.bytes) with h | h
        · rwa [Nat.min_eq_left h]
        · rwa [Nat.min_eq_right h]

end OperandTree

/-- Whatever deltas are merged and in whatever order, the assertion holds
in every merge exactly when none of the deltas was written at the last
offset of the extent. -/
theorem merge_assertion_iff (l r : OperandTree) :
    (OperandTree.merged l r).value ≠ .error .assertFailed
      ↔ ∀ d ∈ (OperandTree.merged l r).operands,
        mergeOff d.bytes ≠ pfsFullExtentBmp := by
  constructor
  · intro hvalue d hd hbmp
    rw [OperandTree.operands, List.mem_append] at hd
    refine hvalue (OperandTree.merged_asserts (hd.imp ?_ ?_))
    · exact fun hl => OperandTree.flagged_of_operand hl hbmp
    · exact fun hr => OperandTree.flagged_of_operand hr hbmp
  · intro hoff
    obtain ⟨d, hvalue, -⟩ := OperandTree.value_ok hoff
    rw [hvalue]
    intro h
    cases h

/-- Two one-byte writes of the last byte of an extent, merged. -/
theorem merge_assertion_fires :
    Produced 12 0 (vnExtentHead 65535 ++ [7])
      ∧ Produced 12 0 (vnExtentHead 65535 ++ [8])
      ∧ partialMerge (vnExtentHead 65535 ++ [7]) (vnExtentHead 65535 ++ [8])
        [] = .error .assertFailed :=
  ⟨produced_lastByte 7, produced_lastByte 8, rfl⟩

end ViveNas
