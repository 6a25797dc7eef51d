/-
What a call that fails leaves behind.

Every function rolls its transaction back on an error, so one failure
leaves the committed store alone, except that `vn_open_file` has already
committed a create when the open after it fails. In memory it is
different: `vn_write`, `vn_writev` and a truncating open set `i_size`
before the calls that can still fail, and nothing sets it back.

# What a trace is

The functions take the in-memory inode they work on by value and return
it; creating, unlinking and opening by name work on inodes of their own.

For each function there is an iff: no trace, or the outcome that leaves
one (`World.growthLands`, `World.truncLands`, `World.openLands`).
`failed_calls_leave_no_trace_iff` collects them.
-/
import ViveNas.Proofs.Refused
import ViveNas.Proofs.Shape

namespace ViveNas

open LittleEndian

variable {w : World} {parent : Int} {name : FileName}

-- ============================================================= no trace

/-- meta_cf and data_cf are the same in both worlds. -/
def World.SameFiles (w w' : World) : Prop :=
  w'.db.metaCf = w.db.metaCf ∧ w'.db.dataCf = w.db.dataCf

theorem World.SameFiles.of_db {w' : World} (h : w'.db = w.db) :
    w.SameFiles w' := by
  rw [World.SameFiles, h]
  exact ⟨rfl, rfl⟩

/-- A write that returns an error leaves the store and the size alone. -/
def WriteTraceless (p : Fs (Int × ViveFile)) (w : World)
    (file : ViveFile) : Prop :=
  ∀ r file' w', p.exec w = .ok ((r, file'), w') → r < 0 →
    w.SameFiles w' ∧ file'.inode.iSize = file.inode.iSize

/-- A create that returns an error leaves the store alone and hands out no
inode. -/
def CreateTraceless (p : Fs (Int × Option ViveInode)) (w : World) : Prop :=
  ∀ r out w', p.exec w = .ok ((r, out), w') → r < 0 →
    w.SameFiles w' ∧ out = none

/-- An unlink that returns an error leaves the store alone. -/
def UnlinkTraceless (p : Fs Int) (w : World) : Prop :=
  ∀ r w', p.exec w = .ok (r, w') → r < 0 → w.SameFiles w'

/-- An open by name that returns NULL leaves the store alone. -/
def OpenTraceless (p : Fs (Option ViveFile)) (w : World) : Prop :=
  ∀ w', p.exec w = .ok (none, w') → w.SameFiles w'

/-- An open by inode that returns NULL leaves the store and the caller's
inode's size alone. -/
def OpenByInodeTraceless (p : Fs (Option ViveFile × ViveInode)) (w : World)
    (inode : ViveInode) : Prop :=
  ∀ inode' w', p.exec w = .ok ((none, inode'), w') →
    w.SameFiles w' ∧ inode'.iSize = inode.iSize

-- ---------------------------------------------------------- the conditions

/-- A write that extends the file gets its record and its commit
through. -/
def World.growthLands (w : World) (file : ViveFile) (offset len : Nat) :
    Prop :=
  file.inode.iExtentSize.toNat = 0
    ∨ u64 (offset + len) ≤ file.inode.iSize.toNat
    ∨ ∀ i < 2, w.outcomeAt
        (extentTurns file.inode.iExtentSize.toNat offset len + i) = true

/-- An open that truncates a file that is not empty either does not get
the record's lock or gets its record and its commit through. -/
def World.truncLands (w : World) (inode : ViveInode) (flags : UInt32) :
    Prop :=
  hasFlag flags oTrunc = false
    ∨ inode.iSize = 0
    ∨ (∀ v, w.readMeta (inodeKey inode.iNo.toNat) ≠ .ok v)
    ∨ ∀ n, extentCount inode = .ok n →
        ∀ i < 2, w.outcomeAt (1 + n + i) = true

/-- It is not the case that the name is absent, O_CREAT and O_TRUNC are
given, the create goes through and its record is fetched (calls 1 to 6),
and then the lock, the record or the commit of the truncation fails
(calls 7 to 9). -/
def World.openLands (w : World) (parent : Int) (name : FileName)
    (flags : UInt32) : Prop :=
  ¬ (w.readMeta (fileKey parent name) = .notFound
    ∧ hasFlag flags oCreat = true ∧ hasFlag flags oTrunc = true
    ∧ w.inodeSeed + 1 < 2 ^ 63
    ∧ (w.skip 1).creates parent name ∧ w.outcomeAt 6 = true
    ∧ ∃ i < 3, w.outcomeAt (7 + i) = false)

-- ------------------------------------------------------- one call at a time

/-- The size a write sets differs from the one before exactly when the
file grows. -/
theorem wroteFile_iSize_eq_iff (file : ViveFile) (now : UInt64) (n : Nat) :
    (wroteFile file now (u64 n)).inode.iSize = file.inode.iSize
      ↔ u64 n ≤ file.inode.iSize.toNat := by
  have hlt : u64 n < 2 ^ 64 := by
    rw [u64]
    exact Nat.mod_lt _ (by decide)
  rw [← UInt64.toNat_inj, wroteFile_iSize file now hlt]
  omega

theorem write_traceless_iff (w : World) (file : ViveFile) (data : Bytes)
    (offset : Nat) (hlen : data.length < 2 ^ 64) :
    WriteTraceless (vnWrite file data offset) w file
      ↔ w.growthLands file offset data.length := by
  by_cases hE : file.inode.iExtentSize.toNat = 0
  · refine iff_of_true ?_ (Or.inl hE)
    intro r file' w' hx
    rw [vnWrite, if_pos hE] at hx
    cases hx
  · have hpos : 0 < file.inode.iExtentSize.toNat := by omega
    obtain hok | hno := outcomes_cases w
      (closingCalls file (u64 (offset + data.length)))
      (extentTurns file.inode.iExtentSize.toNat offset data.length)
    · -- it returns the length
      obtain ⟨k, hrun⟩ := exec_vnWrite_acked file hpos hlen hok
      refine iff_of_true ?_ (Or.inr ?_)
      · intro r file' w' hx hr
        rw [hrun] at hx
        cases hx
        omega
      · by_cases hgrow : file.inode.iSize.toNat < u64 (offset + data.length)
        · rw [closingCalls, if_pos hgrow] at hok
          exact Or.inr hok
        · exact Or.inl (by omega)
    · obtain ⟨k, hrun⟩ := exec_vnWrite_refused file hpos hlen hno
      have hsize := wroteFile_iSize_eq_iff file w.clock
        (offset + data.length)
      constructor
      · intro hkeep
        refine Or.inr (Or.inl (hsize.mp ?_))
        exact (hkeep _ _ _ hrun (by decide)).2
      · rintro (hzero | hfits | hok)
        · exact absurd hzero hE
        · intro r file' w' hx _
          rw [hrun] at hx
          cases hx
          exact ⟨.of_db rfl, hsize.mpr hfits⟩
        · obtain ⟨i, hi, hout⟩ := hno
          rw [hok i (by rw [closingCalls] at hi; split at hi <;> omega)]
            at hout
          cases hout

/-- `vn_writev` asserts that there is something to write. -/
theorem writev_traceless_iff (w : World) (file : ViveFile)
    (iov : List Bytes) (offset : Nat)
    (hsize : iov.flatten.length < 2 ^ 64) :
    WriteTraceless (vnWritev file iov offset) w file
      ↔ (iov.flatten = []
          ∧ extentTurns file.inode.iExtentSize.toNat offset 0 ≠ 0)
        ∨ w.growthLands file offset iov.flatten.length := by
  by_cases hdies : iov.flatten = []
      ∧ extentTurns file.inode.iExtentSize.toNat offset 0 ≠ 0
  · refine iff_of_true ?_ (Or.inl hdies)
    intro r file' w' hx
    rw [vnWritev_dies hdies.1 hdies.2] at hx
    cases hx
  · rw [vnWritev_eq_of_alive file hsize hdies, or_iff_right hdies]
    exact write_traceless_iff w file iov.flatten offset hsize

theorem create_traceless (w : World) (parent : Int) (name : FileName)
    (mode uid gid : UInt16) :
    CreateTraceless (vnCreateFile parent name mode uid gid) w := by
  intro r out w' hx hr
  by_cases hseed : w.inodeSeed + 1 < 2 ^ 63
  · by_cases hdone : w.creates parent name
    · rw [exec_create_done hseed mode uid gid hdone] at hx
      cases hx
      omega
    · obtain ⟨code, k, -, hrun⟩ :=
        exec_create_refused hseed mode uid gid hdone
      rw [hrun] at hx
      cases hx
      exact ⟨.of_db rfl, rfl⟩
  · rw [exec_vnCreateFile_overflow hseed] at hx
    cases hx

theorem openByInode_traceless_iff (w : World) (inode : ViveInode)
    (flags : UInt32) :
    OpenByInodeTraceless (vnOpenFileByInode inode flags) w inode
      ↔ w.truncLands inode flags := by
  cases hflag : hasFlag flags oTrunc with
  | false =>
      refine iff_of_true ?_ (Or.inl hflag)
      intro inode' w' hx
      rw [exec_openByInode_plain inode hflag] at hx
      cases hx
  | true =>
      cases hread : w.readMeta (inodeKey inode.iNo.toNat) with
      | notFound | failed =>
          have hunread : ∀ v,
              w.readMeta (inodeKey inode.iNo.toNat) ≠ .ok v := by
            intro v hv
            cases hread.symm.trans hv
          refine iff_of_true ?_ (Or.inr (Or.inr (Or.inl hunread)))
          intro inode' w' hx
          rw [exec_openByInode_unlocked hflag hunread] at hx
          cases hx
          exact ⟨.of_db rfl, rfl⟩
      | ok v =>
          cases hcount : extentCount inode with
          | error e =>
              refine iff_of_true ?_ (Or.inr (Or.inr (Or.inr ?_)))
              · intro inode' w' hx
                rw [exec_openByInode_uncounted hflag hread hcount] at hx
                cases hx
              · intro n hn
                cases hcount.symm.trans hn
          | ok n =>
              obtain hok | hno := outcomes_cases w 2 (1 + n)
              · refine iff_of_true ?_ (Or.inr (Or.inr (Or.inr ?_)))
                · intro inode' w' hx
                  rw [exec_openByInode_truncated hflag hread hcount hok]
                    at hx
                  cases hx
                · intro m hm
                  cases hcount.symm.trans hm
                  exact hok
              · -- NULL, with the size already zero
                obtain ⟨k, hrun⟩ :=
                  exec_openByInode_refused hflag hread hcount hno
                constructor
                · intro hkeep
                  exact Or.inr (Or.inl (hkeep _ _ hrun).2.symm)
                · rintro (hplain | hzero | hunread | hok)
                  · cases hflag.symm.trans hplain
                  · intro inode' w' hx
                    rw [hrun] at hx
                    cases hx
                    exact ⟨.of_db rfl, hzero.symm⟩
                  · exact absurd hread (hunread v)
                  · obtain ⟨i, hi, hout⟩ := hno
                    rw [hok n hcount i hi] at hout
                    cases hout

/-- The open of a file that was just created: with O_TRUNC, three more
calls decide. -/
theorem openByNumber_fresh {ino : Nat} {n : ViveInode} (flags : UInt32)
    (hread : w.readMeta (inodeKey ino) = .ok n.toBytes)
    (hino : n.iNo.toNat = ino) (hcount : extentCount n = .ok 0) :
    (∃ w', (openByNumber ino flags).exec w = .ok (none, w'))
      ↔ hasFlag flags oTrunc = true
        ∧ ∃ i < 3, w.outcomeAt (1 + i) = false := by
  rw [exec_openByNumber_read flags hread]
  have hcount' : extentCount { n with refCnt := 1 } = .ok 0 :=
    (extentCount_congr rfl rfl).trans hcount
  have hino' : ({ n with refCnt := 1 } : ViveInode).iNo.toNat = ino := hino
  generalize ({ n with refCnt := 1 } : ViveInode) = m at hcount' hino'
  cases hflag : hasFlag flags oTrunc with
  | false =>
      rw [exec_bind_ok (exec_openByInode_plain _ hflag)]
      refine iff_of_false ?_ (fun h => Bool.false_ne_true h.1)
      rintro ⟨w', hx⟩
      cases hx
  | true =>
      cases hlock : w.outcomeAt 1 with
      | false =>
          refine iff_of_true ?_ ⟨rfl, 0, by omega, hlock⟩
          rw [exec_bind_ok (exec_openByInode_unlocked hflag ?_)]
          · exact ⟨_, rfl⟩
          · intro v hv
            have hout := (readMeta_eq_ok.mp hv).1
            rw [outcomeAt_skip, hlock] at hout
            cases hout
      | true =>
          have hread' : (w.skip 1).readMeta (inodeKey m.iNo.toNat)
              = .ok n.toBytes := by
            rw [readMeta_eq_ok, outcomeAt_skip, hino']
            exact ⟨hlock, (readMeta_eq_ok.mp hread).2⟩
          obtain hok | hno := outcomes_cases (w.skip 1) 2 (1 + 0)
          · rw [exec_bind_ok (exec_openByInode_truncated hflag hread'
              hcount' hok)]
            refine iff_of_false ?_ ?_
            · rintro ⟨w', hx⟩
              cases hx
            · rintro ⟨-, i, hi, hout⟩
              rcases i with _ | i
              · cases hlock.symm.trans hout
              · have htrue := hok i (by omega)
                rw [outcomeAt_skip, show 1 + (1 + 0 + i) = 1 + (i + 1) by
                  omega, hout] at htrue
                cases htrue
          · obtain ⟨k, hrun⟩ :=
              exec_openByInode_refused hflag hread' hcount' hno
            obtain ⟨i, hi, hout⟩ := hno
            rw [exec_bind_ok hrun]
            refine iff_of_true ⟨_, rfl⟩ ⟨rfl, i + 1, by omega, ?_⟩
            rw [outcomeAt_skip] at hout
            rwa [show 1 + (i + 1) = 1 + (1 + 0 + i) by omega]

/-- The world in which `vn_open_file` opens what it has created. -/
def World.justCreated (w : World) (parent : Int) (name : FileName)
    (mode : UInt16) : World :=
  ((w.skip 1).drawn.skip 5).committed .metaOpt (createOps parent name
    w.inodeSeed (newInode w.inodeSeed mode 0 0 w.clock))

/-- The create has left a trace. -/
theorem justCreated_differs (hseed : w.inodeSeed + 1 < 2 ^ 63)
    (mode : UInt16) (hfree : w.db.metaCf[fileKey parent name]? = none)
    {w' : World} (hdb : w'.db = (w.justCreated parent name mode).db) :
    ¬ w.SameFiles w' := by
  rintro ⟨hmeta, -⟩
  obtain ⟨v, hentry, -⟩ := createOps_entry w.db parent name
    (show w.inodeSeed < 2 ^ 64 by omega) mode 0 0 w.clock
  have hgone : w'.db.metaCf[fileKey parent name]? = none := by
    rw [hmeta, hfree]
  rw [hdb] at hgone
  cases hentry.symm.trans hgone

/-- The open after a create whose record is fetched. -/
theorem openByNumber_justCreated (parent : Int) (name : FileName)
    (hseed : w.inodeSeed + 1 < 2 ^ 63) (mode : UInt16)
    (flags : UInt32) (hout : w.outcomeAt 6 = true) :
    (∃ w', (openByNumber w.inodeSeed flags).exec
        (w.justCreated parent name mode) = .ok (none, w'))
      ↔ hasFlag flags oTrunc = true
        ∧ ∃ i < 3, w.outcomeAt (7 + i) = false := by
  have houtcome : ∀ i, (w.justCreated parent name mode).outcomeAt i
      = w.outcomeAt (6 + i) := by
    intro i
    show ((w.skip 1).skip 5).outcomeAt i = _
    rw [skip_skip, outcomeAt_skip]
  have hread : (w.justCreated parent name mode).readMeta
      (inodeKey w.inodeSeed)
        = .ok (newInode w.inodeSeed mode 0 0 w.clock).toBytes := by
    rw [readMeta_eq_ok, houtcome]
    refine ⟨hout, ?_⟩
    show (Store.applyBatch _ (createOps ..)).metaCf[_]? = _
    rw [createOps_meta, if_neg (inodeKey_ne_inodeSeedKey _).symm, if_pos rfl]
  rw [openByNumber_fresh flags hread (newInode_iNo (by omega) ..)
    (newInode_extentCount ..)]
  simp only [houtcome, ← Nat.add_assoc]

/-- `vn_open_file` of a name that is not there, with O_CREAT. -/
theorem exec_vnOpenFile_missing {flags : UInt32} (mode : UInt16)
    (hread : w.readMeta (fileKey parent name) = .notFound)
    (hflag : hasFlag flags oCreat = true) :
    (vnOpenFile parent name flags mode).exec w
      = (vnCreateFile parent name mode 0 0 >>= fun p =>
          if p.1 < 0 then pure none
          else openByNumber p.1.toNat flags).exec (w.skip 1) := by
  rw [vnOpenFile, exec_bind_ok (exec_readMeta _), hread]
  show Fs.exec (if hasFlag flags oCreat = true then _ else _) _ = _
  rw [if_pos hflag]

/-- The create, then the open. -/
theorem exec_vnOpenFile_created {flags : UInt32} (mode : UInt16)
    (hread : w.readMeta (fileKey parent name) = .notFound)
    (hflag : hasFlag flags oCreat = true)
    (hseed : w.inodeSeed + 1 < 2 ^ 63)
    (hdone : (w.skip 1).creates parent name) :
    (vnOpenFile parent name flags mode).exec w
      = (openByNumber w.inodeSeed flags).exec
          (w.justCreated parent name mode) := by
  rw [exec_vnOpenFile_missing mode hread hflag, exec_bind_ok
    (exec_create_done (w := w.skip 1) hseed mode 0 0 hdone)]
  show Fs.exec (if (w.inodeSeed : Int) < 0 then _ else _) _ = _
  rw [if_neg (by omega), Int.toNat_natCast]
  rfl

/-- The record of the new file is not delivered. -/
theorem openByNumber_unread {ino : Nat} {flags : UInt32} {w' : World}
    (hout : w.outcomeAt 0 = false) {r : Option ViveFile}
    (hx : (openByNumber ino flags).exec w = .ok (r, w')) : False := by
  rw [openByNumber, exec_bind_ok (exec_readMeta _), World.readMeta,
    if_neg (by rw [hout]; exact Bool.false_ne_true)] at hx
  cases hx

theorem open_traceless_iff (w : World) (parent : Int) (name : FileName)
    (flags : UInt32) (mode : UInt16) :
    OpenTraceless (vnOpenFile parent name flags mode) w
      ↔ w.openLands parent name flags := by
  cases hread : w.readMeta (fileKey parent name) with
  | ok v | failed =>
      refine iff_of_true ?_ (fun h => by cases hread.symm.trans h.1)
      intro w' hx
      rw [vnOpenFile, exec_bind_ok (exec_readMeta _), hread] at hx
      obtain ⟨ino, w₁, hlift, hopen⟩ := exec_bind_inv hx
      rw [lift_returns hlift] at hopen
      exact .of_db (openByNumber_null (w := w.skip 1) hopen)
  | notFound =>
      cases hflag : hasFlag flags oCreat with
      | false =>
          refine iff_of_true ?_ (fun h => by cases hflag.symm.trans h.2.1)
          intro w' hx
          rw [vnOpenFile, exec_bind_ok (exec_readMeta _), hread] at hx
          change Fs.exec (if hasFlag flags oCreat = true then _ else _) _ = _
            at hx
          rw [hflag] at hx
          cases hx
          exact .of_db rfl
      | true =>
          by_cases hseed : w.inodeSeed + 1 < 2 ^ 63
          · by_cases hdone : (w.skip 1).creates parent name
            · -- the create is committed, so NULL is a trace
              have hfree := (readMeta_eq_notFound.mp hread).2
              rw [OpenTraceless, exec_vnOpenFile_created mode hread hflag
                hseed hdone]
              cases hout : w.outcomeAt 6 with
              | false =>
                  refine iff_of_true ?_
                    (fun h => by cases hout.symm.trans h.2.2.2.2.2.1)
                  intro w' hx
                  refine (openByNumber_unread ?_ hx).elim
                  show ((w.skip 1).skip 5).outcomeAt 0 = false
                  rw [skip_skip, outcomeAt_skip]
                  exact hout
              | true =>
                  have hnull := openByNumber_justCreated parent name hseed
                    mode flags hout
                  constructor
                  · rintro hkeep ⟨-, -, htrunc, -, -, -, hfail⟩
                    obtain ⟨w', hx⟩ := hnull.mpr ⟨htrunc, hfail⟩
                    exact justCreated_differs hseed mode hfree
                      (openByNumber_null hx) (hkeep w' hx)
                  · intro hlands w' hx
                    obtain ⟨htrunc, hfail⟩ := hnull.mp ⟨w', hx⟩
                    exact absurd ⟨hread, hflag, htrunc, hseed, hdone, hout,
                      hfail⟩ hlands
            · obtain ⟨code, k, hcode, hrun⟩ :=
                exec_create_refused (w := w.skip 1) hseed mode 0 0 hdone
              refine iff_of_true ?_ (fun h => hdone h.2.2.2.2.1)
              intro w' hx
              rw [exec_vnOpenFile_missing mode hread hflag,
                exec_bind_ok hrun, if_pos (by omega)] at hx
              cases hx
              exact .of_db rfl
          · refine iff_of_true ?_ (fun h => hseed h.2.2.2.1)
            intro w' hx
            rw [exec_vnOpenFile_missing mode hread hflag, exec_bind_error
              (exec_vnCreateFile_overflow (w := w.skip 1) hseed mode 0 0)]
              at hx
            cases hx

/-- The inode of a file of two bytes. -/
def twoBytesInode : ViveInode := { newInode 12 0 0 0 0 with iSize := 2 }

/-- A store that holds its record. -/
def recordWorld (script : List Bool) : World :=
  { emptyWorld script with
    db := Store.empty.applyOp
      (.put .metaCf (inodeKey 12) twoBytesInode.toBytes) }

theorem recordWorld_record (script : List Bool) :
    (recordWorld script).db.metaCf[inodeKey twoBytesInode.iNo.toNat]?
      = some twoBytesInode.toBytes := by
  rw [recordWorld, Store.applyOp_meta, WriteOp.onMeta,
    show twoBytesInode.iNo.toNat = 12 by decide, if_pos rfl]

theorem twoBytesInode_extents : extentCount twoBytesInode = .ok 1 := by
  have hE : twoBytesInode.iExtentSize.toNat = 65536 :=
    newInode_iExtentSize 12 0 0 0 0
  rw [extentCount, hE, if_neg (by decide)]
  show Except.ok (asInt64 (u64 (2 + 65536 - 1) / 65536)).toNat = _
  rw [u64_of_lt (by decide)]
  rfl

/-- What a failed call leaves behind: nothing after `vn_create_file` and
`vn_unlink`; after `vn_write`, `vn_writev`, `vn_open_file` and
`vn_open_file_by_inode`, nothing exactly when the conditions hold. -/
theorem failed_calls_leave_no_trace_iff (w : World) :
    (∀ (file : ViveFile) (data : Bytes) (offset : Nat),
      data.length < 2 ^ 64 →
        (WriteTraceless (vnWrite file data offset) w file
          ↔ w.growthLands file offset data.length))
    ∧ (∀ (file : ViveFile) (iov : List Bytes) (offset : Nat),
      iov.flatten.length < 2 ^ 64 →
        (WriteTraceless (vnWritev file iov offset) w file
          ↔ (iov.flatten = []
              ∧ extentTurns file.inode.iExtentSize.toNat offset 0 ≠ 0)
            ∨ w.growthLands file offset iov.flatten.length))
    ∧ (∀ parent name mode uid gid,
      CreateTraceless (vnCreateFile parent name mode uid gid) w)
    ∧ (∀ parent name, UnlinkTraceless (vnUnlink parent name) w)
    ∧ (∀ parent name flags mode,
      OpenTraceless (vnOpenFile parent name flags mode) w
        ↔ w.openLands parent name flags)
    ∧ ∀ inode flags,
      OpenByInodeTraceless (vnOpenFileByInode inode flags) w inode
        ↔ w.truncLands inode flags :=
  ⟨write_traceless_iff w, writev_traceless_iff w, create_traceless w,
    fun _ _ _ _ hx hr => .of_db (unlink_refused hx hr),
    open_traceless_iff w, openByInode_traceless_iff w⟩

/-- An overwrite of the first of two bytes whose commit fails: -EIO, and
the store and the size are as before. -/
theorem failed_calls_leave_no_trace_twoBytes :
    ∃ file' w', (vnWrite (newFile twoBytesInode 0) [7] 0).exec
        (recordWorld [true, false]) = .ok ((-eio, file'), w')
      ∧ (recordWorld [true, false]).SameFiles w'
      ∧ file'.inode.iSize = 2 := by
  have hE : (newFile twoBytesInode 0).inode.iExtentSize.toNat = 65536 :=
    newInode_iExtentSize 12 0 0 0 0
  have hcommit : (recordWorld [true, false]).outcomeAt
      (extentTurns (newFile twoBytesInode 0).inode.iExtentSize.toNat 0
        ([7] : Bytes).length + 0) = false := by
    rw [hE, extentTurns_first (by decide) (by decide) (by decide)]
    rfl
  have hfits : u64 (0 + ([7] : Bytes).length)
      ≤ (newFile twoBytesInode 0).inode.iSize.toNat := by
    rw [u64_of_lt (by decide)]
    decide
  have hcalls : 0 < closingCalls (newFile twoBytesInode 0)
      (u64 (0 + ([7] : Bytes).length)) := by
    rw [closingCalls, if_neg (Nat.not_lt.mpr hfits)]
    decide
  obtain ⟨k, hrun⟩ := exec_vnWrite_refused (newFile twoBytesInode 0)
    (by rw [hE]; decide) (by decide) ⟨0, hcalls, hcommit⟩
  obtain ⟨hsame, hsize⟩ := ((failed_calls_leave_no_trace_iff _).1 _ [7] 0
    (by decide)).mpr (Or.inr (Or.inl hfits)) _ _ _ hrun (by decide)
  exact ⟨_, _, hrun, hsame, hsize⟩

/-- A one-byte write to an empty file whose commit fails: -EIO, and the
handle's inode has size 1. A create with O_TRUNC whose truncation does not
commit: NULL, and the file is there. A truncation of a file of two bytes
that does not commit: NULL, and the caller's inode is empty. -/
theorem failed_calls_leave_traces :
    ¬ WriteTraceless (vnWrite emptyFile [7] 0)
        (emptyWorld [true, true, false]) emptyFile
      ∧ ¬ OpenTraceless
        (vnOpenFile 2 ⟨ascii "a", by decide⟩ (oCreat ||| oTrunc) 0)
        (emptyWorld (List.replicate 9 true ++ [false]))
      ∧ ¬ OpenByInodeTraceless (vnOpenFileByInode twoBytesInode oTrunc)
        (recordWorld [true, true, true, false]) twoBytesInode := by
  refine ⟨?_, ?_, ?_⟩
  · rw [write_traceless_iff _ _ _ _ (by decide), World.growthLands,
      emptyFile_extentSize]
    rintro (hzero | hfits | hok)
    · cases hzero
    · rw [u64_of_lt (by decide)] at hfits
      exact absurd hfits (by decide)
    · have hcommit := hok 1 (by decide)
      rw [extentTurns_first (by decide) (by decide) (by decide)] at hcommit
      exact absurd hcommit (by decide)
  · rw [open_traceless_iff, World.openLands, not_not]
    refine ⟨readMeta_eq_notFound.mpr ⟨rfl, rfl⟩, by decide, by decide,
      by decide, ⟨?_, ?_⟩, rfl, 2, by decide, rfl⟩
    · intro v hv
      cases (readMeta_eq_ok.mp hv).2
    · intro i hi
      rcases i with _ | _ | _ | _ | i
      · rfl
      · rfl
      · rfl
      · rfl
      · omega
  · rw [openByInode_traceless_iff]
    rintro (hplain | hempty | hunread | hok)
    · exact absurd hplain (by decide)
    · exact absurd hempty (by decide)
    · exact hunread _ (readMeta_eq_ok.mpr ⟨rfl, recordWorld_record _⟩)
    · exact absurd (hok 1 twoBytesInode_extents 1 (by decide)) (by decide)

end ViveNas
