/-
What a truncating open leaves of the old file.

`vn_open_file_by_inode` with O_TRUNC deletes the extents below the
`i_size` of the inode it is given and drops the status of each delete.
An extent of the committed file survives when that in-memory size is
behind the committed one, or when its delete fails. The file is then
empty and nothing shows, until a write past the end exposes the old
bytes again.

# The law

Extent by extent: it is gone exactly if the in-memory size covers it
(`ViveInode.covers`) and its delete was kept (`kept_deletes_extent`). A
truncation then leaves no data exactly if this is so of every extent the
committed record covers (`truncate_leaves_no_data_iff`).
-/
import ViveNas.Proofs.Batches
import ViveNas.Proofs.Read
import ViveNas.Proofs.Refused

namespace ViveNas

open Overlay Paging FlatFile

variable {w w' : World} {inode : ViveInode} {flags : UInt32}

-- ============================================================ the property

/-- The committed record of an inode. -/
def Store.HasRecord (db : Store) (ino : Nat) (rec : ViveInode) : Prop :=
  ∃ v, db.metaCf[inodeKey ino]? = some v ∧ deserializeInode v = .ok rec

/-- Every byte below `size` that a write through the handle exposes and
does not rewrite is zero. -/
def ExposesZeros (db : Store) (file : ViveFile) (size : Nat) : Prop :=
  ∀ (v : World) (data : Bytes) (offset : Nat), v.db = db → Calm v →
    offset + data.length < 2 ^ 63 →
    ∃ file' v', (vnWrite file data offset).exec v
        = .ok ((data.length, file'), v')
      ∧ ∀ x < size, ¬ (offset ≤ x ∧ x < offset + data.length) →
        content v'.db file.iNo.toNat x = 0

/-- If the open returns a handle, nothing is left of the file that was
committed. -/
def LeavesNoData (w : World) (inode : ViveInode) (flags : UInt32) : Prop :=
  ∀ file inode' w' rec,
    (vnOpenFileByInode inode flags).exec w
        = .ok ((some file, inode'), w') →
    w.db.HasRecord inode.iNo.toNat rec →
    (∀ idx, idx * vivefsExtentSize < rec.iSize.toNat →
        w'.db.dataCf[vnExtentKey idx inode.iNo.toNat]? = none)
      ∧ (file.inode.iExtentSize.toNat = vivefsExtentSize →
        ExposesZeros w'.db file rec.iSize.toNat)

/-- Where the extents below a size are absent, a write exposes zeros. -/
theorem exposesZeros_of_absent {db : Store} {file : ViveFile} {size : Nat}
    (hE : file.inode.iExtentSize.toNat = vivefsExtentSize)
    (hsize : size < 2 ^ 64)
    (habsent : ∀ idx, idx * vivefsExtentSize < size →
      db.dataCf[vnExtentKey idx file.iNo.toNat]? = none) :
    ExposesZeros db file size := by
  intro v data offset hdb hcalm hend
  have hpos := extentSize_pos
  refine ⟨_, _, exec_vnWrite hcalm file (by omega) hend, ?_⟩
  intro x hx hout
  -- seen from the extent of `x`, the write starts from an empty file
  have hmod := Nat.mod_lt x hpos
  have hdm := Nat.div_add_mod' x vivefsExtentSize
  have hnone : db.dataCf[vnExtentKey (x / vivefsExtentSize)
      file.iNo.toNat]? = none := habsent _ (by omega)
  have hholds : Holds none
      (page 0 vivefsExtentSize [] (x / vivefsExtentSize)) := by
    rw [page_nil]
    exact holds_none
  have hidx : x / vivefsExtentSize < 2 ^ 64 :=
    Nat.lt_of_le_of_lt (Nat.div_le_self x _) (by omega)
  have hbyte : byte 0 (FlatFile.write 0 [] offset data) x = 0 := by
    rw [byte_write, if_neg hout]
    exact byte_of_length_le (Nat.zero_le x)
  have hafter : Holds (v.committed .dataOpt
      (writeOps file.iNo.toNat file.inode.iExtentSize.toNat offset data
        ++ growOps file v.clock (offset + data.length))).db.dataCf[
          vnExtentKey (x / vivefsExtentSize) file.iNo.toNat]?
      (page 0 vivefsExtentSize (FlatFile.write 0 [] offset data)
        (x / vivefsExtentSize)) := by
    rw [committed_db, hE, writeOps_extent v.db file.iNo.toNat_lt hpos
      extentSize_le hend file v.clock hidx, hdb, hnone]
    split
    case isTrue hin => exact segmentOp_holds hholds hin.1
    case isFalse hpast =>
      rw [page_write_of_outside (outside_of_not_reached hpos hpast)]
      exact hholds
  rw [content, hafter.extentByte, List.getD_eq_getElem?_getD,
    page_getElem? hmod, hdm]
  exact hbyte

/-- An extent below some inode's size has a 64-bit index. -/
theorem extent_lt_of_size {n : ViveInode} {idx : Nat}
    (h : idx * vivefsExtentSize < n.iSize.toNat) : idx < 2 ^ 64 :=
  Nat.lt_of_le_of_lt (Nat.le_mul_of_pos_right idx extentSize_pos)
    (Nat.lt_trans h n.iSize.toNat_lt)

-- ======================================================= what is deleted

/-- The extents a truncation deletes: those below the inode's size, which
it rounds up in 64 bits and counts in an `int64_t`. -/
def ViveInode.covers (n : ViveInode) (idx : Nat) : Prop :=
  idx * n.iExtentSize.toNat < n.iSize.toNat
    ∧ n.iSize.toNat + n.iExtentSize.toNat ≤ 2 ^ 64
    ∧ n.iSize.toNat ≤ (2 ^ 63 - 1) * n.iExtentSize.toNat

theorem lt_extentCount_iff {n : Nat} (hcount : extentCount inode = .ok n)
    (idx : Nat) : idx < n ↔ inode.covers idx := by
  rw [extentCount] at hcount
  split at hcount
  case isTrue => cases hcount
  case isFalse hE =>
    rw [ViveInode.covers]
    have hS := inode.iSize.toNat_lt
    have hE32 := inode.iExtentSize.toNat_lt
    generalize inode.iSize.toNat = S at *
    generalize inode.iExtentSize.toNat = E at *
    obtain rfl := Except.ok.inj hcount
    have hpos : 0 < E := by omega
    have hmul : (idx + 1) * E = idx * E + E := Nat.succ_mul idx E
    by_cases hwrap : S + E ≤ 2 ^ 64
    · rw [u64_of_lt (by omega)]
      have hidx := Nat.le_div_iff_mul_le (x := idx + 1) (y := S + E - 1) hpos
      have hmax : (S + E - 1) / E < 2 ^ 63 ↔ S ≤ (2 ^ 63 - 1) * E := by
        rw [Nat.div_lt_iff_lt_mul hpos]
        have : (2 ^ 63) * E = (2 ^ 63 - 1) * E + E := Nat.succ_mul _ E
        omega
      have hle : (S + E - 1) / E < 2 ^ 64 :=
        Nat.lt_of_le_of_lt (Nat.div_le_self _ E) (by omega)
      by_cases hsmall : (S + E - 1) / E < 2 ^ 63
      · rw [asInt64_of_lt hsmall, Int.toNat_natCast]
        have := hmax.mp hsmall
        omega
      · rw [asInt64, if_neg hsmall]
        have : ¬ S ≤ (2 ^ 63 - 1) * E := fun h => hsmall (hmax.mpr h)
        omega
    · -- the rounded size wraps to less than an extent
      have hzero : u64 (S + E - 1) / E = 0 := by
        rw [u64, Nat.div_eq_of_lt]
        omega
      rw [hzero, asInt64_of_lt (by omega)]
      omega

/-- The deletes that succeed, seen from one extent of the file. -/
theorem kept_deletes_extent {ino : Nat} (hino : ino < 2 ^ 64) {n i j : Nat}
    (hn : i + n ≤ 2 ^ 64) (hj : j < 2 ^ 64) (db : Store) :
    (db.applyBatch (w.kept (deleteOps .dataCf ino n i))).dataCf[
        vnExtentKey j ino]?
      = if i ≤ j ∧ j < i + n ∧ w.outcomeAt (j - i) = true then none
        else db.dataCf[vnExtentKey j ino]? := by
  induction n generalizing i db w with
  | zero =>
      rw [if_neg (by omega)]
      rfl
  | succ n ih =>
      show (db.applyBatch ((if w.outcomeAt 0 then
          [.delete .dataCf (vnExtentKey i ino)] else [])
        ++ (w.skip 1).kept (deleteOps .dataCf ino n (i + 1)))).dataCf[
          vnExtentKey j ino]? = _
      rw [Store.applyBatch_append, ih (by omega), outcomeAt_skip]
      by_cases hij : i = j
      · subst hij
        rw [if_neg (by omega), Nat.sub_self]
        cases w.outcomeAt 0 with
        | true =>
            rw [if_pos rfl, if_pos ⟨Nat.le_refl i, by omega, rfl⟩,
              Store.applyBatch_singleton, Store.applyOp_data]
            exact if_pos rfl
        | false =>
            rw [if_neg Bool.false_ne_true,
              if_neg fun h => Bool.false_ne_true h.2.2]
            rfl
      · have hkeep : (db.applyBatch (if w.outcomeAt 0 then
            [.delete .dataCf (vnExtentKey i ino)] else [])).dataCf[
              vnExtentKey j ino]? = db.dataCf[vnExtentKey j ino]? := by
          refine db.applyBatch_data_of_fixed fun op hop old => ?_
          split at hop
          · obtain rfl := List.mem_singleton.mp hop
            exact deleteOp_onData old fun heq =>
              hij (vnExtentKey_inj (by omega) hj hino hino heq).1
          · cases hop
        rw [hkeep]
        by_cases hlow : i + 1 ≤ j
        · rw [show 1 + (j - (i + 1)) = j - i by omega]
          have hiff : (i + 1 ≤ j ∧ j < i + 1 + n ∧ w.outcomeAt (j - i) = true)
              ↔ (i ≤ j ∧ j < i + (n + 1) ∧ w.outcomeAt (j - i) = true) := by
            constructor
            · rintro ⟨-, hhigh, hout⟩
              exact ⟨by omega, by omega, hout⟩
            · rintro ⟨-, hhigh, hout⟩
              exact ⟨hlow, by omega, hout⟩
          rw [if_congr hiff rfl rfl]
        · rw [if_neg fun h => hlow h.1, if_neg]
          omega

-- ================================================================ the law

/-- The outcomes with which a truncating open returns a handle: the record
is read, and it is written back and committed. -/
def World.truncates (w : World) (inode : ViveInode) : Prop :=
  (∃ v, w.readMeta (inodeKey inode.iNo.toNat) = .ok v)
    ∧ ∃ n, extentCount inode = .ok n
      ∧ ∀ i < 2, w.outcomeAt (1 + n + i) = true

/-- Both ends of a truncating open. -/
theorem openByInode_trunc_cases (w : World) (inode : ViveInode)
    (hflag : hasFlag flags oTrunc = true) :
    (w.truncates inode ∧ ∃ n, extentCount inode = .ok n
      ∧ (vnOpenFileByInode inode flags).exec w
        = .ok ((some (newFile { inode with iSize := 0 } flags),
            (newFile { inode with iSize := 0 } flags).inode),
          (w.skip (1 + n + 2)).committed .metaOpt
            ((w.skip 1).kept (deleteOps .dataCf inode.iNo.toNat n 0)
              ++ [.put .metaCf (inodeKey inode.iNo.toNat)
                { inode with iSize := 0 }.toBytes])))
    ∨ (¬ w.truncates inode ∧ ∀ file inode' w',
        (vnOpenFileByInode inode flags).exec w
          ≠ .ok ((some file, inode'), w')) := by
  rcases openByInode_trunc_ends w hflag with
    ⟨v, n, hread, hcount, hok, hrun⟩ | ⟨hno, hends⟩
  · exact Or.inl ⟨⟨⟨v, hread⟩, n, hcount, hok⟩, n, hcount, hrun⟩
  · refine Or.inr ⟨fun h => ?_, fun file inode' w' hx => ?_⟩
    · obtain ⟨⟨v, hread⟩, n, hcount, hok⟩ := h
      obtain ⟨i, hi, hout⟩ := hno v n hread hcount
      rw [hok i hi] at hout
      cases hout
    · rcases hends with ⟨e, hrun⟩ | ⟨_, _, hrun, -⟩
      · cases hrun.symm.trans hx
      · cases hrun.symm.trans hx

/-- A truncation, seen from one extent of the file: it is gone if there
was none, or if it was covered and its delete went through. -/
theorem truncated_extent {n : Nat} (hcount : extentCount inode = .ok n)
    {idx : Nat} (hidx : idx < 2 ^ 64) (db : Store) :
    (db.applyBatch ((w.skip 1).kept (deleteOps .dataCf inode.iNo.toNat n 0)
        ++ [.put .metaCf (inodeKey inode.iNo.toNat)
          { inode with iSize := 0 }.toBytes])).dataCf[
            vnExtentKey idx inode.iNo.toNat]? = none
      ↔ db.dataCf[vnExtentKey idx inode.iNo.toNat]? = none
        ∨ inode.covers idx ∧ w.outcomeAt (1 + idx) = true := by
  have hn : 0 + n ≤ 2 ^ 64 := by
    by_contra hbig
    obtain ⟨hlow, -, hhigh⟩ :=
      (lt_extentCount_iff hcount (2 ^ 64)).mp (by omega)
    have hS := inode.iSize.toNat_lt
    omega
  rw [Store.applyBatch_append, Store.applyBatch_data_of_notData,
    kept_deletes_extent inode.iNo.toNat_lt hn hidx, outcomeAt_skip,
    Nat.sub_zero, ← lt_extentCount_iff hcount]
  · split
    case isTrue h => exact iff_of_true rfl (Or.inr ⟨by omega, h.2.2⟩)
    case isFalse h =>
      refine (or_iff_left ?_).symm
      rintro ⟨hlt, hout⟩
      exact h ⟨Nat.zero_le _, by omega, hout⟩
  · intro op hop
    obtain rfl := List.mem_singleton.mp hop
    exact fun h => by cases h

/-- The open leaves nothing of the committed file exactly when each extent
there is of it is below the in-memory size too and its delete succeeds, or
no handle is returned. -/
theorem truncate_leaves_no_data_iff (w : World) (inode : ViveInode)
    (flags : UInt32) (hflag : hasFlag flags oTrunc = true) :
    LeavesNoData w inode flags
      ↔ (w.truncates inode → ∀ rec, w.db.HasRecord inode.iNo.toNat rec →
        ∀ idx, idx * vivefsExtentSize < rec.iSize.toNat →
          w.db.dataCf[vnExtentKey idx inode.iNo.toNat]? ≠ none →
          inode.covers idx ∧ w.outcomeAt (1 + idx) = true) := by
  obtain ⟨htrunc, n, hcount, hexec⟩ | ⟨hno, hnone⟩ :=
    openByInode_trunc_cases w inode hflag
  · -- what the batch leaves of one extent
    have hafter : ∀ idx < 2 ^ 64,
        ((w.skip (1 + n + 2)).committed .metaOpt
          ((w.skip 1).kept (deleteOps .dataCf inode.iNo.toNat n 0)
            ++ [.put .metaCf (inodeKey inode.iNo.toNat)
              { inode with iSize := 0 }.toBytes])).db.dataCf[
                vnExtentKey idx inode.iNo.toNat]? = none
          ↔ w.db.dataCf[vnExtentKey idx inode.iNo.toNat]? = none
            ∨ inode.covers idx ∧ w.outcomeAt (1 + idx) = true :=
      fun idx hidx => truncated_extent hcount hidx w.db
    constructor
    · intro hleaves _ rec hrec idx hidx hpresent
      have hgone := (hleaves _ _ _ rec hexec hrec).1 idx hidx
      exact ((hafter idx (extent_lt_of_size hidx)).mp hgone).resolve_left
        hpresent
    · intro hall file inode' w' rec hx hrec
      cases hexec.symm.trans hx
      have hgone : ∀ idx, idx * vivefsExtentSize < rec.iSize.toNat → _ :=
        fun idx hidx => (hafter idx (extent_lt_of_size hidx)).mpr
          (or_iff_not_imp_left.mpr (hall htrunc rec hrec idx hidx))
      exact ⟨hgone, fun hE =>
        exposesZeros_of_absent hE rec.iSize.toNat_lt hgone⟩
  · refine ⟨fun _ htrunc => absurd htrunc hno, ?_⟩
    intro _ file inode' w' rec hx
    exact absurd hx (hnone file inode' w')

/-- The short file's world, with the record of its two bytes committed. -/
def shortRecordWorld : World :=
  { shortWorld with
    db := shortWorld.db.applyOp
      (.put .metaCf (inodeKey 12) shortFile.inode.toBytes) }

theorem shortRecordWorld_record :
    shortRecordWorld.db.HasRecord 12 { shortFile.inode with refCnt := 1 } := by
  refine ⟨shortFile.inode.toBytes, ?_, deserializeInode_toBytes _⟩
  rw [shortRecordWorld, Store.applyOp_meta, WriteOp.onMeta, if_pos rfl]

theorem shortRecordWorld_extent :
    shortRecordWorld.db.dataCf[vnExtentKey 0 12]? ≠ none := by
  rw [shortRecordWorld, Store.applyOp_data]
  show shortWorld.db.dataCf[vnExtentKey 0 12]? ≠ none
  rw [shortWorld, Store.applyOp_data, WriteOp.onData, if_pos rfl]
  exact Option.some_ne_none _

/-- Truncated through an inode of the committed size. -/
theorem truncate_leaves_no_data_iff_current :
    LeavesNoData shortRecordWorld shortFile.inode oTrunc := by
  have hE := shortFile_extentSize
  rw [extentSize_eq] at hE
  have hS : shortFile.inode.iSize.toNat = 2 := by decide
  refine (truncate_leaves_no_data_iff shortRecordWorld shortFile.inode oTrunc
    (by decide)).mpr ?_
  intro _ rec hrec idx hidx _
  obtain ⟨v, hv, hrec⟩ := hrec
  obtain ⟨v', hv', hrec'⟩ := shortRecordWorld_record
  obtain rfl : v = v' := Option.some.inj (hv.symm.trans hv')
  obtain rfl := Except.ok.inj (hrec.symm.trans hrec')
  have hzero : idx = 0 := by
    have : idx * 65536 < 2 := by
      rw [← extentSize_eq]
      exact hidx
    omega
  rw [hzero, ViveInode.covers, hE, hS]
  decide

/-- The file's inode as a handle holds it that was opened before the two
bytes were written through another. -/
def staleInode : ViveInode := newInode 12 0 0 0 0

/-- Truncated through an inode that has not seen the file grow: the handle
is returned and the extent is still there. -/
theorem stale_truncate_keeps_data :
    (∃ file inode' w',
      (vnOpenFileByInode staleInode oTrunc).exec shortRecordWorld
          = .ok ((some file, inode'), w')
        ∧ w'.db.dataCf[vnExtentKey 0 12]? ≠ none)
      ∧ ¬ LeavesNoData shortRecordWorld staleInode oTrunc := by
  have hino : staleInode.iNo.toNat = 12 := by decide
  obtain ⟨v, hv, hrec⟩ := shortRecordWorld_record
  have hexec := exec_openByInode_trunc (w := shortRecordWorld) rfl
    staleInode (show hasFlag oTrunc oTrunc = true by decide)
    (by rwa [hino]) (newInode_extentCount 12 0 0 0 0)
  have hkept : (shortRecordWorld.committed .metaOpt
      (truncOps staleInode 0)).db.dataCf[vnExtentKey 0 12]?
        ≠ none := by
    rw [committed_db, ← hino, truncOps_extent _ (Nat.zero_le _) (by decide),
      if_neg (Nat.lt_irrefl 0), hino]
    exact shortRecordWorld_extent
  refine ⟨⟨_, _, _, hexec, hkept⟩, fun hleaves => hkept ?_⟩
  have hgone := (hleaves _ _ _ _ hexec (by
    rw [hino]
    exact ⟨v, hv, hrec⟩)).1 0 (by rw [Nat.zero_mul]; decide)
  rwa [hino] at hgone

end ViveNas
