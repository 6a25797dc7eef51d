/-
What a handle's dirty flag says about the committed record.

A clean handle's inode should be what the store holds. `vn_write` and
`vn_fsync` clear the flag as soon as the record is in their transaction,
before they know whether it commits, so a commit that fails after that
leaves a clean handle whose inode is nowhere. `Settles` excludes exactly
that, and then the flag can be trusted (`HandleInv`).

# The invariant

`HandleInv` is about one handle over its life: if it is clean, the
record is its inode, and its number never changes. Opening establishes
it (`OpenedBy.inv`), each call keeps it (`HandleInv.call`), and the only
premise a call needs is `Settles`.
-/
import ViveNas.Proofs.History
import ViveNas.Proofs.System

namespace ViveNas

open LittleEndian

variable {codec : SuperblockCodec} {w w' : World} {file file' : ViveFile}

-- ============================================================ clean handles

/-- The committed record of the file, read back, is the handle's inode but
for its reference count. -/
def Recorded (w : World) (file : ViveFile) : Prop :=
  ∃ v : Bytes, w.db.metaCf[inodeKey file.iNo.toNat]? = some v
    ∧ deserializeInode v = .ok { file.inode with refCnt := 1 }

/-- A clean handle is recorded. -/
structure HandleInv (s : World × ViveFile) : Prop where
  number : s.2.inode.iNo = s.2.iNo
  clean : s.2.dirty = false → Recorded s.1 s.2

/-- The record just written. -/
theorem Recorded.of_toBytes (hnum : file.inode.iNo = file.iNo)
    (h : w.db.metaCf[inodeKey file.inode.iNo.toNat]?
      = some file.inode.toBytes) : Recorded w file := by
  rw [hnum] at h
  exact ⟨_, h, deserializeInode_toBytes _⟩

theorem Recorded.of_db (h : Recorded w file) (hdb : w'.db = w.db) :
    Recorded w' file := by
  rw [Recorded, hdb]
  exact h

/-- The record in memory is that of the number it is stored under. -/
theorem inodeKey_of_read {s : Store} (hown : s.OwnsRecords) {ino : Nat}
    {v : Bytes} {n : ViveInode} (hv : s.metaCf[inodeKey ino]? = some v)
    (hread : deserializeInode v = .ok n) :
    inodeKey n.iNo.toNat = inodeKey ino := by
  rw [deserializeInode] at hread
  split at hread
  case isFalse => cases hread
  case isTrue hlen =>
    cases hread
    have hkey := hown _ v hv (inodeKey_length ino) hlen
    have hlt : leNat (v.take 8) < 2 ^ 64 := by
      rw [hkey, inodeKey, leNat_leBytes]
      exact Nat.mod_lt _ (by decide)
    have hnum : (ViveInode.ofBytes v).iNo.toNat = leNat (v.take 8) := by
      show (UInt64.ofNat (leNat (v.take 8))).toNat = _
      rw [UInt64.toNat_ofNat', Nat.mod_eq_of_lt hlt]
    show inodeKey (ViveInode.ofBytes v).iNo.toNat = _
    rw [hnum, hkey]
    have hback := leBytes_leNat (inodeKey ino)
    rwa [inodeKey_length] at hback

theorem deserialize_refCnt {v : Bytes} {n : ViveInode}
    (hread : deserializeInode v = .ok n) : { n with refCnt := 1 } = n := by
  rw [deserializeInode] at hread
  split at hread
  · cases hread
    rfl
  · cases hread

-- ============================================================== opening

/-- A truncating open that returns a handle has recorded the empty
inode. -/
theorem openByInode_trunc_some {inode inode' : ViveInode} {flags : UInt32}
    (hflag : hasFlag flags oTrunc = true)
    (hx : (vnOpenFileByInode inode flags).exec w
      = .ok ((some file, inode'), w')) :
    file = newFile { inode with iSize := 0 } flags ∧ inode' = file.inode
      ∧ w'.db.metaCf[inodeKey inode.iNo.toNat]?
        = some { inode with iSize := 0 }.toBytes := by
  rcases openByInode_trunc_ends w hflag with
    ⟨-, n, -, -, -, hrun⟩ | ⟨-, ⟨e, hrun⟩ | ⟨_, _, hrun, -⟩⟩
  · cases hrun.symm.trans hx
    refine ⟨rfl, rfl, ?_⟩
    rw [committed_db, Store.applyBatch_append, Store.applyBatch_singleton,
      Store.applyOp_meta, WriteOp.onMeta, if_pos rfl]
  · cases hrun.symm.trans hx
  · cases hrun.symm.trans hx

/-- An open by number that returns a handle. -/
theorem openByNumber_inv (hown : w.db.OwnsRecords) {ino : Nat}
    {flags : UInt32}
    (hx : (openByNumber ino flags).exec w = .ok (some file, w')) :
    HandleInv (w', file) := by
  rw [openByNumber, exec_bind_ok (exec_readMeta _)] at hx
  cases hstatus : w.readMeta (inodeKey ino) with
  | notFound | failed =>
      rw [hstatus] at hx
      cases hx
  | ok v =>
      rw [hstatus] at hx
      obtain ⟨inode, w₁, hlift, hrest⟩ := exec_bind_inv hx
      rw [lift_returns hlift] at hrest
      have hread : deserializeInode v = .ok inode := by
        cases hd : deserializeInode v with
        | ok n =>
            rw [show (GetStatus.ok v).slice = v from rfl,
              exec_lift_ok hd] at hlift
            cases hlift
            rfl
        | error e =>
            rw [show (GetStatus.ok v).slice = v from rfl,
              exec_lift_error hd] at hlift
            cases hlift
      have hv := (readMeta_eq_ok.mp hstatus).2
      obtain ⟨⟨made, inode'⟩, w₂, hopen, hret⟩ := exec_bind_inv hrest
      cases made with
      | none => cases hret
      | some made =>
          cases hret
          cases hflag : hasFlag flags oTrunc with
          | false =>
              rw [exec_openByInode_plain inode hflag] at hopen
              cases hopen
              refine ⟨rfl, fun _ => ⟨v, ?_, ?_⟩⟩
              · show w.db.metaCf[inodeKey inode.iNo.toNat]? = some v
                rw [inodeKey_of_read hown hv hread, hv]
              · rw [hread]
                exact congrArg Except.ok (deserialize_refCnt hread).symm
          | true =>
              obtain ⟨rfl, rfl, hmeta⟩ :=
                openByInode_trunc_some hflag hopen
              exact ⟨rfl, fun _ =>
                ⟨_, hmeta, deserializeInode_toBytes _⟩⟩

/-- What `vn_open_file` returns is recorded. -/
theorem OpenedBy.inv {s : World × ViveFile} (hs : OpenedBy codec s) :
    HandleInv s := by
  obtain ⟨w, parent, name, flags, mode, hlived, hx⟩ := hs
  have hown := hlived.ownsRecords
  rw [vnOpenFile, exec_bind_ok (exec_readMeta _)] at hx
  have hskip : (w.skip 1).OwnsRecords := ⟨hown.db, hown.durable, hown.batch⟩
  cases hstatus : w.readMeta (fileKey parent name) with
  | notFound =>
      rw [hstatus] at hx
      change Fs.exec (if hasFlag flags oCreat = true then _ else _) _ = _
        at hx
      split at hx
      · obtain ⟨⟨r, out⟩, w₁, hcreate, hopen⟩ := exec_bind_inv hx
        have hmade := hskip.exec (callsOwn_create _ _ _ _ _) hcreate
        dsimp only at hopen
        split at hopen
        · cases hopen
        · exact openByNumber_inv hmade.db hopen
      · cases hx
  | ok v | failed =>
      rw [hstatus] at hx
      obtain ⟨ino, w₁, hlift, hopen⟩ := exec_bind_inv hx
      rw [lift_returns hlift] at hopen
      exact openByNumber_inv hskip.db hopen

-- ============================================================ the calls

/-- A read that returns leaves the store alone and touches the access
time. -/
theorem read_returns {buf out : Bytes} {offset n : Nat}
    (hx : (vnRead file buf offset).exec w = .ok ((n, out, file'), w')) :
    w'.db = w.db ∧ ∃ now, file' = touched file now := by
  rw [vnRead] at hx
  dsimp only at hx
  split at hx
  · cases hx
  · obtain ⟨out₁, w₁, hloop, hrest⟩ := exec_bind_inv hx
    rw [exec_bind_ok (exec_touchAtime file)] at hrest
    cases hrest
    exact ⟨db_of_notCommit (calls_readSegments
      (fun _ _ => StoreCall.noConfusion) _ _ _ _ _ _ _ _) hloop, _, rfl⟩

theorem readv_returns {iov iov' : List Bytes} {offset n : Nat}
    (hx : (vnReadv file iov offset).exec w = .ok ((n, iov', file'), w')) :
    w'.db = w.db ∧ ∃ now, file' = touched file now := by
  rw [vnReadv] at hx
  dsimp only at hx
  split at hx
  · cases hx
  · obtain ⟨iov₁, w₁, hloop, hrest⟩ := exec_bind_inv hx
    rw [exec_bind_ok (exec_touchAtime file)] at hrest
    cases hrest
    exact ⟨db_of_notCommit (calls_readvSegments
      (fun _ _ => StoreCall.noConfusion) _ _ _ _ _ _ _ _ _) hloop, _, rfl⟩

/-- The end of a sync whose commit succeeds; the flush decides what
survives. -/
theorem exec_syncCommit_ok (hout : w.outcomeAt 0 = true) (file : ViveFile)
    (b : List WriteOp) :
    ∃ w', (vnFsync.syncCommit file).exec (w.within .dataOpt b)
        = .ok ((-eio, file), w')
      ∧ w'.db = w.db.applyBatch b
      ∧ (w.outcomeAt 1 = true → w'.durable = w'.db) := by
  rw [vnFsync.syncCommit, exec_bind_ok (exec_commit_ok hout .dataOpt b)]
  refine ⟨_, (exec_bind_ok exec_tryFlush).trans
    ((exec_bind_ok exec_rollback).trans rfl), rfl, fun hflush => ?_⟩
  have hnow : ((w.skip 1).committed .dataOpt b).outcomeAt 0 = true := by
    show (w.skip 1).outcomeAt 0 = true
    rwa [outcomeAt_skip]
  show (if _ then _ else _) = _
  rw [if_pos hnow]
  rfl

theorem exec_syncCommit_failed (hout : w.outcomeAt 0 = false)
    (file : ViveFile) (b : List WriteOp) :
    (vnFsync.syncCommit file).exec (w.within .dataOpt b)
      = .ok ((-eio, file), (w.skip 1).idle) := by
  rw [vnFsync.syncCommit, exec_bind_ok (exec_commit_failed hout .dataOpt b)]
  exact (exec_bind_ok exec_rollback).trans rfl

/-- The calls a sync makes before its flush. -/
def syncCalls (file : ViveFile) : Nat := if file.dirty then 2 else 1

/-- A sync whose record and commit succeed. -/
theorem exec_vnFsync_committed (file : ViveFile)
    (hok : ∀ i < syncCalls file, w.outcomeAt i = true) :
    ∃ w', (vnFsync file).exec w
        = .ok ((-eio, { file with dirty := false }), w')
      ∧ w'.db = w.db.applyBatch (syncOps file)
      ∧ (w.outcomeAt (syncCalls file) = true → w'.durable = w'.db) := by
  rw [vnFsync, exec_bind_ok (exec_begin .dataOpt)]
  rw [syncCalls] at hok ⊢
  rw [syncOps]
  cases hdirty : file.dirty with
  | true =>
      rw [hdirty, if_pos rfl] at hok
      have hcommit : (w.skip 1).outcomeAt 0 = true := by
        rw [outcomeAt_skip]
        exact hok 1 (by omega)
      obtain ⟨w', hrun, hdb, hflush⟩ := exec_syncCommit_ok hcommit
        { file with dirty := false }
        [.put .metaCf (inodeKey file.inode.iNo.toNat) file.inode.toBytes]
      have hpersist := exec_tryPersist (w := w) .dataOpt [] file.inode
      rw [hok 0 (by omega)] at hpersist
      refine ⟨w', (exec_bind_ok hpersist).trans hrun, hdb, ?_⟩
      rw [outcomeAt_skip] at hflush
      exact hflush
  | false =>
      rw [hdirty, if_neg Bool.false_ne_true] at hok
      have hsame : file = { file with dirty := false } := by
        cases file
        cases hdirty
        rfl
      rw [← hsame]
      exact exec_syncCommit_ok (hok 0 (by omega)) file []

/-- A sync whose record or commit fails. -/
theorem exec_vnFsync_refused (file : ViveFile)
    (hno : ∃ i < syncCalls file, w.outcomeAt i = false) :
    ∃ k, (vnFsync file).exec w = .ok ((-eio, { file with
      dirty := file.dirty && !w.outcomeAt 0 }), (w.skip k).idle) := by
  obtain ⟨i, hi, hout⟩ := hno
  rw [vnFsync, exec_bind_ok (exec_begin .dataOpt)]
  rw [syncCalls] at hi
  cases hdirty : file.dirty with
  | true =>
      rw [hdirty, if_pos rfl] at hi
      have hpersist := exec_tryPersist (w := w) .dataOpt [] file.inode
      cases hput : w.outcomeAt 0 with
      | false =>
          rw [hput] at hpersist
          refine ⟨1, (exec_bind_ok hpersist).trans ?_⟩
          refine (exec_bind_ok exec_rollback).trans ?_
          cases file
          cases hdirty
          rfl
      | true =>
          obtain rfl : i = 1 := by
            rcases i with _ | _ | i
            · cases hput.symm.trans hout
            · rfl
            · omega
          rw [hput] at hpersist
          refine ⟨1 + 1, (exec_bind_ok hpersist).trans ?_⟩
          rw [← skip_skip]
          exact exec_syncCommit_failed (by rwa [outcomeAt_skip]) _ _
  | false =>
      rw [hdirty, if_neg Bool.false_ne_true] at hi
      obtain rfl : i = 0 := by omega
      refine ⟨1, (exec_syncCommit_failed hout file []).trans ?_⟩
      cases file
      cases hdirty
      rfl

-- ============================================================== the run

/-- A commit that fails does not fail after the record got into its
transaction: of a write that extends the file, and of a sync that has a
record to write. -/
def Settles (w : World) (file : ViveFile) : HandleCall → Prop
  | .write inBuf offset => WriteSettles w file offset inBuf.length
  | .writev iov offset => WriteSettles w file offset iov.flatten.length
  | .fsync => file.dirty = true → w.outcomeAt 0 = true →
      w.outcomeAt 1 = true
  | _ => True
where
  WriteSettles (w : World) (file : ViveFile) (offset len : Nat) : Prop :=
    file.inode.iSize.toNat < u64 (offset + len) →
      w.outcomeAt (extentTurns file.inode.iExtentSize.toNat offset len)
        = true →
      w.outcomeAt (extentTurns file.inode.iExtentSize.toNat offset len + 1)
        = true

theorem wroteFile_handle_iNo (file : ViveFile) (now : UInt64)
    (endOff : Nat) : (wroteFile file now endOff).iNo = file.iNo := by
  rw [wroteFile]
  split <;> rfl

theorem wroteFile_number (h : file.inode.iNo = file.iNo) (now : UInt64)
    (endOff : Nat) : (wroteFile file now endOff).inode.iNo
      = (wroteFile file now endOff).iNo := by
  rw [wroteFile_iNo, wroteFile_handle_iNo, h]

section Step

variable (hinv : HandleInv (w, file))
include hinv

theorem HandleInv.write {data : Bytes} {offset : Nat} {r : Int}
    (hlen : data.length < 2 ^ 64)
    (hsettles : Settles.WriteSettles w file offset data.length)
    (hx : (vnWrite file data offset).exec w = .ok ((r, file'), w')) :
    HandleInv (w', file') := by
  have hnum := wroteFile_number hinv.number w.clock
  by_cases hE : file.inode.iExtentSize.toNat = 0
  · rw [vnWrite, if_pos hE] at hx
    cases hx
  · have hpos : 0 < file.inode.iExtentSize.toNat := by omega
    obtain hok | hno := outcomes_cases w
      (closingCalls file (u64 (offset + data.length)))
      (extentTurns file.inode.iExtentSize.toNat offset data.length)
    · obtain ⟨k, hrun⟩ := exec_vnWrite_acked file hpos hlen hok
      rw [hrun] at hx
      cases hx
      refine ⟨hnum _, fun hclean => .of_toBytes (hnum _) ?_⟩
      -- a clean handle is one whose record was just committed
      have hgrow : file.inode.iSize.toNat < u64 (offset + data.length) := by
        by_contra hfits
        rw [wroteFile, if_neg hfits] at hclean
        cases hclean
      rw [committed_db, Store.applyBatch_append, growOps, if_pos hgrow,
        Store.applyBatch_singleton, Store.applyOp_meta, wroteFile_iNo,
        WriteOp.onMeta, if_pos rfl]
    · obtain ⟨k, hrun⟩ := exec_vnWrite_refused file hpos hlen hno
      rw [hrun] at hx
      cases hx
      refine ⟨hnum _, fun hclean => ?_⟩
      rw [refusedFile, Bool.not_eq_false', Bool.and_eq_true,
        decide_eq_true_eq] at hclean
      obtain ⟨hgrow, hput⟩ := hclean
      obtain ⟨i, hi, hout⟩ := hno
      rw [closingCalls, if_pos hgrow] at hi
      rcases i with _ | _ | i
      · cases hput.symm.trans hout
      · cases (hsettles hgrow hput).symm.trans hout
      · omega

theorem HandleInv.fsync {r : Int}
    (hsettles : Settles w file .fsync)
    (hx : (vnFsync file).exec w = .ok ((r, file'), w')) :
    HandleInv (w', file') := by
  have hsynced : ∀ {w' : World},
      w'.db = w.db.applyBatch (syncOps file) →
      Recorded w' { file with dirty := false } := by
    intro w' hdb
    cases hdirty : file.dirty with
    | true =>
        refine .of_toBytes hinv.number ?_
        rw [hdb, syncOps, if_pos hdirty, Store.applyBatch_singleton,
          Store.applyOp_meta, WriteOp.onMeta, if_pos rfl]
    | false =>
        refine Recorded.of_db (w := w) (hinv.clean hdirty) ?_
        rw [hdb, syncOps, if_neg (by rw [hdirty]; exact Bool.false_ne_true),
          Store.applyBatch_nil]
  obtain hok | hno := outcomes_cases w (syncCalls file) 0
  · simp only [Nat.zero_add] at hok
    obtain ⟨w₁, hrun, hdb, -⟩ := exec_vnFsync_committed file hok
    rw [hrun] at hx
    cases hx
    exact ⟨hinv.number, fun _ => hsynced hdb⟩
  · simp only [Nat.zero_add] at hno
    obtain ⟨k, hrun⟩ := exec_vnFsync_refused file hno
    rw [hrun] at hx
    cases hx
    refine ⟨hinv.number, fun hclean => ?_⟩
    obtain ⟨i, hi, hout⟩ := hno
    cases hdirty : file.dirty with
    | false => exact Recorded.of_db (w := w) (hinv.clean hdirty) rfl
    | true =>
        dsimp only at hclean
        rw [hdirty, Bool.true_and, Bool.not_eq_false'] at hclean
        rw [syncCalls, if_pos hdirty] at hi
        rcases i with _ | _ | i
        · cases hclean.symm.trans hout
        · cases (hsettles hdirty hclean).symm.trans hout
        · omega

theorem HandleInv.touched (hdb : w'.db = w.db) (now : UInt64) :
    HandleInv (w', touched file now) := by
  rw [ViveNas.touched]
  split
  · exact ⟨hinv.number, fun hclean => (hinv.clean hclean).of_db hdb⟩
  · exact ⟨hinv.number, fun hclean => by cases hclean⟩

/-- A call that settles keeps the invariant. -/
theorem HandleInv.call {c : HandleCall} {r : Int} (hsized : c.Sized)
    (hsettles : Settles w file c)
    (hx : (c.run file).exec w = .ok ((r, file'), w')) :
    HandleInv (w', file') := by
  cases c with
  | write data offset => exact hinv.write (hsized _ _ rfl) hsettles hx
  | writev iov offset =>
      have hlen := hsized _ _ rfl
      exact hinv.write hlen hsettles (vnWrite_of_vnWritev hlen hx)
  | read buf offset =>
      obtain ⟨⟨n, out, file₁⟩, w₁, hread, hret⟩ := exec_bind_inv hx
      cases hret
      obtain ⟨hdb, now, rfl⟩ := read_returns hread
      exact hinv.touched hdb now
  | readv iov offset =>
      obtain ⟨⟨n, out, file₁⟩, w₁, hread, hret⟩ := exec_bind_inv hx
      cases hret
      obtain ⟨hdb, now, rfl⟩ := readv_returns hread
      exact hinv.touched hdb now
  | fsync => exact hinv.fsync hsettles hx

end Step

/-- The invariant along a run of calls that settle. -/
theorem run_handleInv {tr : List (HandleCall × Int)} {s : World × ViveFile}
    (hrun : HandleRun codec Settles tr s) : HandleInv s := by
  refine hrun.invariant (I := fun _ s => HandleInv s) (fun s hs => hs.inv) ?_
  rintro tr s l s' hinv hstep
  cases hstep with
  | @call w w' file file' c r script clock hsized hok hcall =>
      have hat : HandleInv (w.at script clock, file) :=
        ⟨hinv.number, hinv.clean⟩
      exact hat.call hsized hok hcall

/-- In every state of a run of calls that settle, a clean handle is
recorded; so a sync or a close whose calls succeed leaves the inode in the
store, whether it wrote the record or skipped it. -/
theorem clean_handle_recorded {tr : List (HandleCall × Int)}
    (hrun : HandleRun codec Settles tr (w, file)) :
    (file.dirty = false → Recorded w file)
      ∧ ∀ clock,
        (∃ w', (vnFsync file).exec (w.at [] clock)
            = .ok ((-eio, { file with dirty := false }), w')
          ∧ Recorded w' file)
        ∧ ∃ w', (vnCloseFile file).exec (w.at [] clock) = .ok (0, w')
          ∧ Recorded w' file := by
  have hinv := run_handleInv hrun
  refine ⟨hinv.clean, fun clock => ?_⟩
  have hat : HandleInv (w.at [] clock, file) := ⟨hinv.number, hinv.clean⟩
  have hsync := exec_vnFsync (w := w.at [] clock) rfl file
  have hrecorded := (hat.fsync (fun _ _ => rfl) hsync).clean rfl
  exact ⟨⟨_, hsync, hrecorded⟩, _,
    exec_vnCloseFile (w := w.at [] clock) rfl file, hrecorded⟩

-- =========================================================== two runs

theorem lived_mounted (clock : UInt64) (addr : Nat) :
    Lived codec (mountedSys codec clock addr).world := by
  have hformat : Formatted codec ⟨(blankWorld clock).synced
      (formatOps codec), false, fun _ => none, fun _ => none⟩ :=
    ⟨clock, 0, exec_vnMkfsVivefs rfl, rfl, rfl, rfl⟩
  have inv := hformat.inv
  exact .mount (.mkfs rfl rfl rfl (exec_vnMkfsVivefs (w := blankWorld clock)
    rfl)) (exec_vnMount inv.calm inv.seed inv.high inv.shape.superblock)

theorem lived_oneFile (clock : UInt64) (addr : Nat) :
    Lived codec (oneFileSys codec clock addr).world :=
  .call (lived_mounted clock addr) (.create _ _ _ _ _)
    (exec_vnCreateFile_first clock addr vnRootIno nameA 0 0 0)

/-- The handle on the one file. -/
def oneFile : ViveFile := opened (newInode vnFirstUserIno 0 0 0 0) 0

theorem openedBy_oneFile :
    OpenedBy plainCodec ((oneFileSys plainCodec 0 0).world, oneFile) := by
  have hcalm : Calm (oneFileSys plainCodec 0 0).world := rfl
  refine ⟨_, vnRootIno, nameA, 0, 0, lived_oneFile 0 0, ?_⟩
  rw [exec_vnOpenFile_found hcalm 0 0 (oneFileSys_entry 0 0) (by decide)]
  exact exec_openByNumber_plain hcalm (by decide) (oneFileSys_record 0 0)

theorem oneFile_extentSize : 0 < oneFile.inode.iExtentSize.toNat := by
  rw [show oneFile.inode.iExtentSize.toNat = 65536 from
    newInode_iExtentSize vnFirstUserIno 0 0 0 0]
  decide

theorem sized_oneByte : (HandleCall.write [7] 0).Sized := by
  intro data offset hdata
  cases hdata
  decide

/-- A one-byte write to it, all of whose calls succeed. -/
theorem step_oneByte : ∃ w, HandleStep Settles
    ((oneFileSys plainCodec 0 0).world, oneFile) (.write [7] 0, 1)
    (w, wroteFile oneFile 0 1) := by
  have hcalm : Calm ((oneFileSys plainCodec 0 0).world.at [] 0) := rfl
  have hwrite : (vnWrite oneFile [7] 0).exec _ = _ :=
    exec_vnWrite hcalm oneFile oneFile_extentSize (by decide)
  exact ⟨_, .call [] 0 sized_oneByte (fun _ _ => rfl) hwrite⟩

/-- After it the handle is clean and recorded. -/
theorem clean_handle_recorded_oneByte :
    ∃ w, HandleRun plainCodec Settles [(.write [7] 0, 1)]
        (w, wroteFile oneFile 0 1)
      ∧ (wroteFile oneFile 0 1).dirty = false
      ∧ Recorded w (wroteFile oneFile 0 1) := by
  obtain ⟨w, hstep⟩ := step_oneByte
  have hrun := Trace.Run.step (.init openedBy_oneFile) hstep
  exact ⟨w, hrun, by decide, (clean_handle_recorded hrun).1 (by decide)⟩

/-- The same write when its commit fails. -/
theorem exec_oneByte_refused :
    ∃ w', (vnWrite oneFile [7] 0).exec
        ((oneFileSys plainCodec 0 0).world.at [true, true, false] 0)
          = .ok ((-eio, refusedFile oneFile 0 1 true), w')
      ∧ w'.db = (oneFileSys plainCodec 0 0).world.db := by
  have hturns : extentTurns oneFile.inode.iExtentSize.toNat 0
      ([7] : Bytes).length = 1 := by
    rw [show oneFile.inode.iExtentSize.toNat = 65536 from
      newInode_iExtentSize vnFirstUserIno 0 0 0 0]
    exact extentTurns_first (by decide) Nat.one_pos (by decide)
  have hend : u64 (0 + ([7] : Bytes).length) = 1 := u64_of_lt (by decide)
  obtain ⟨k, hrun⟩ := exec_vnWrite_refused (w := (oneFileSys plainCodec 0
      0).world.at [true, true, false] 0) oneFile oneFile_extentSize
    (show ([7] : Bytes).length < 2 ^ 64 by decide)
    ⟨1, by rw [hend]; decide, by rw [hturns]; decide⟩
  rw [hturns, hend] at hrun
  exact ⟨_, hrun, rfl⟩

/-- After that the handle is clean, and its inode, of size 1, is
nowhere. -/
theorem clean_handle_unrecorded :
    ∃ w file, HandleRun plainCodec (fun _ _ _ => True)
        [(.write [7] 0, -eio)] (w, file)
      ∧ file.dirty = false ∧ ¬ Recorded w file := by
  obtain ⟨w', hrun, hdb⟩ := exec_oneByte_refused
  refine ⟨w', refusedFile oneFile 0 1 true, .step (.init openedBy_oneFile)
    (.call [true, true, false] 0 sized_oneByte trivial hrun), by decide, ?_⟩
  rintro ⟨v, hv, hread⟩
  rw [hdb] at hv
  cases (oneFileSys_record 0 0).symm.trans hv
  rw [deserializeInode_toBytes] at hread
  exact absurd (congrArg ViveInode.iSize (Except.ok.inj hread)) (by decide)

end ViveNas
