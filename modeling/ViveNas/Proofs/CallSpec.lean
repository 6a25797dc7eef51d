/-
What the remaining calls return and commit when every store call
succeeds: creating, looking up and unlinking a name, opening with and
without truncation, syncing, closing and persisting.

Each spec reads the state before the call through `db.metaCf[key]?` and
gives the state after it as a batch committed to that state, so a proof
about a call is a proof about its batch (Proofs/Store.lean).

# One spec for each way through

A function that branches on what it finds has a spec for each branch,
named after the branch (`exec_vnUnlink_absent`, `exec_vnUnlink_last`,
...). Callers of the function cite these and never unfold it.
-/
import ViveNas.Proofs.Exec
import ViveNas.Proofs.Segments

namespace ViveNas

open LittleEndian

variable {w : World} {parent : Int} {name : FileName}

-- ============================================================== creating

/-- What a successful create commits. -/
def createOps (parent : Int) (name : FileName) (seed : Nat)
    (inode : ViveInode) : List WriteOp :=
  [.put .metaCf (fileKey parent name) (leBytes 8 seed),
    .put .metaCf (inodeKey seed) inode.toBytes,
    .put .metaCf inodeSeedKey (leBytes 8 (seed + 1))]

theorem newInode_iNo {n : Nat} (hn : n < 2 ^ 64) (mode uid gid : UInt16)
    (now : UInt64) : (newInode n mode uid gid now).iNo.toNat = n := by
  show (UInt64.ofNat n).toNat = n
  rw [UInt64.toNat_ofNat']
  exact Nat.mod_eq_of_lt hn

theorem newInode_iExtentSize (n : Nat) (mode uid gid : UInt16)
    (now : UInt64) :
    (newInode n mode uid gid now).iExtentSize.toNat = 65536 := by
  show (UInt32.ofNat vivefsExtentSize).toNat = 65536
  rw [extentSize_eq]
  rfl

/-- A name that is taken: only the number is used up. -/
theorem exec_vnCreateFile_exists (h : Calm w)
    (hseed : w.inodeSeed + 1 < 2 ^ 63) (mode uid gid : UInt16)
    {v : Bytes} (hkey : w.db.metaCf[fileKey parent name]? = some v) :
    (vnCreateFile parent name mode uid gid).exec w
      = .ok ((-eexist, none), w.drawn.idle) := by
  rw [vnCreateFile, exec_bind_ok (exec_generateInodeNo hseed),
    exec_bind_ok exec_time, exec_bind_ok (exec_begin .metaOpt),
    exec_bind_ok (exec_getForUpdate (w := w.drawn) h .metaOpt _), drawn_db,
    hkey]
  rfl

/-- A name that is free: the entry, the record and the seed, together. -/
theorem exec_vnCreateFile_fresh (h : Calm w)
    (hseed : w.inodeSeed + 1 < 2 ^ 63) (mode uid gid : UInt16)
    (hkey : w.db.metaCf[fileKey parent name]? = none) :
    (vnCreateFile parent name mode uid gid).exec w
      = .ok ((w.inodeSeed, some (newInode w.inodeSeed mode uid gid w.clock)),
          w.drawn.committed .metaOpt (createOps parent name w.inodeSeed
            (newInode w.inodeSeed mode uid gid w.clock))) := by
  have hd := h.drawn
  rw [vnCreateFile, exec_bind_ok (exec_generateInodeNo hseed),
    exec_bind_ok exec_time, exec_bind_ok (exec_begin .metaOpt),
    exec_bind_ok (exec_getForUpdate (w := w.drawn) h .metaOpt _), drawn_db,
    hkey]
  refine (exec_bind_ok (exec_put hd .metaOpt [] _ _ _)).trans ?_
  refine (exec_bind_ok (exec_persistTx hd .metaOpt _ _)).trans ?_
  refine (exec_bind_ok (exec_putSeed hd .metaOpt _)).trans ?_
  refine (exec_bind_ok (exec_commit hd .metaOpt _)).trans ?_
  rw [newInode_iNo (by omega), asInt64_of_lt (by omega)]
  rfl

/-- The counter is at its end. -/
theorem exec_vnCreateFile_overflow (hseed : ¬ w.inodeSeed + 1 < 2 ^ 63)
    (mode uid gid : UInt16) :
    (vnCreateFile parent name mode uid gid).exec w = .error .overflow := by
  rw [vnCreateFile]
  exact exec_bind_error ((exec_perform _).trans (if_neg hseed))

-- =============================================================== lookup

theorem loadInt64_ok {v : Bytes} (h : 8 ≤ v.length) :
    loadInt64 v = .ok (leNat (v.take 8)) :=
  loadLe_ok (by omega)

theorem loadInt64_leBytes {n : Nat} (hn : n < 2 ^ 64) :
    loadInt64 (leBytes 8 n) = .ok n := by
  rw [loadInt64_ok (by rw [leBytes_length]), List.take_of_length_le
    (by rw [leBytes_length]), leNat_leBytes_of_lt hn]

/-- A name that is not there. -/
theorem exec_vnLookup_absent (h : Calm w) (want : Bool)
    (hkey : w.db.metaCf[fileKey parent name]? = none) :
    (vnLookupInodeNo parent name want).exec w = .ok ((-1, none), w) := by
  rw [vnLookupInodeNo, exec_bind_ok (exec_getMeta h _), hkey]
  rfl

/-- A name that is there, the number alone. -/
theorem exec_vnLookup_number (h : Calm w) {v : Bytes}
    (hkey : w.db.metaCf[fileKey parent name]? = some v)
    (hlen : 8 ≤ v.length) :
    (vnLookupInodeNo parent name false).exec w
      = .ok ((asInt64 (leNat (v.take 8)), none), w) := by
  rw [vnLookupInodeNo, exec_bind_ok (exec_getMeta h _), hkey]
  refine (exec_bind_ok (exec_lift_ok (loadInt64_ok hlen))).trans ?_
  rfl

/-- A name that is there, with its record. -/
theorem exec_vnLookup_inode (h : Calm w) {v : Bytes} {n : ViveInode}
    (hkey : w.db.metaCf[fileKey parent name]? = some v)
    (hlen : 8 ≤ v.length) (hrec : w.db.metaCf[v]? = some n.toBytes) :
    (vnLookupInodeNo parent name true).exec w
      = .ok ((asInt64 (leNat (v.take 8)), some { n with refCnt := 1 }),
          w) := by
  rw [vnLookupInodeNo, exec_bind_ok (exec_getMeta h _), hkey]
  refine (exec_bind_ok (exec_getMeta h v)).trans ?_
  rw [hrec]
  refine (exec_bind_ok (exec_lift_ok (deserializeInode_toBytes n))).trans ?_
  refine (exec_bind_ok (exec_lift_ok (loadInt64_ok hlen))).trans ?_
  rfl

/-- A name whose record is lost. -/
theorem exec_vnLookup_lost (h : Calm w) {v : Bytes}
    (hkey : w.db.metaCf[fileKey parent name]? = some v)
    (hrec : w.db.metaCf[v]? = none) :
    (vnLookupInodeNo parent name true).exec w = .ok ((-1, none), w) := by
  rw [vnLookupInodeNo, exec_bind_ok (exec_getMeta h _), hkey]
  refine (exec_bind_ok (exec_getMeta h v)).trans ?_
  rw [hrec]
  rfl

-- ============================================================= unlinking

/-- What unlinking the last link commits. -/
def unlinkOps (parent : Int) (name : FileName) (ino extents : Nat) :
    List WriteOp :=
  deleteOps .defaultCf ino extents 0
    ++ [.delete .metaCf (fileKey parent name)]

/-- The extent count reads the two sizes only. -/
theorem extentCount_congr {m n : ViveInode} (hsize : m.iSize = n.iSize)
    (hext : m.iExtentSize = n.iExtentSize) :
    extentCount m = extentCount n := by
  rw [extentCount, extentCount, hsize, hext]

theorem newInode_extentCount (n : Nat) (mode uid gid : UInt16)
    (now : UInt64) : extentCount (newInode n mode uid gid now) = .ok 0 := by
  have hE := newInode_iExtentSize n mode uid gid now
  rw [extentCount, hE, if_neg (by decide)]
  show Except.ok (asInt64 (u64 (0 + 65536 - 1) / 65536)).toNat = _
  rw [u64_of_lt (by decide)]
  rfl

/-- The record fetched by `vn_unlink`, one link fewer. -/
def lowered (n : ViveInode) : ViveInode :=
  { n with refCnt := 1, iLinksCount := n.iLinksCount - 1 }

theorem exec_unlinkCommit (h : Calm w) (opt : WriteOpt) (b : List WriteOp) :
    unlinkCommit.exec (w.within opt b) = .ok (0, w.committed opt b) := by
  rw [unlinkCommit, exec_bind_ok (exec_commit h opt b)]
  rfl

/-- A name that is not there. -/
theorem exec_vnUnlink_absent (h : Calm w)
    (hkey : w.db.metaCf[fileKey parent name]? = none) :
    (vnUnlink parent name).exec w = .ok (-enoent, w) := by
  rw [vnUnlink, exec_bind_ok (exec_vnLookup_absent h true hkey)]
  rfl

section Found

variable {v : Bytes} {n : ViveInode}
  (h : Calm w) (hkey : w.db.metaCf[fileKey parent name]? = some v)
  (hlen : 8 ≤ v.length) (hrec : w.db.metaCf[v]? = some n.toBytes)
  (hino : leNat (v.take 8) < 2 ^ 63)
include h hkey hlen hrec hino

/-- The last link: the entry goes, the record stays. -/
theorem exec_vnUnlink_last (hlinks : n.iLinksCount = 1) {extents : Nat}
    (hcount : extentCount n = .ok extents) :
    (vnUnlink parent name).exec w
      = .ok (0, w.committed .metaOpt
          (unlinkOps parent name n.iNo.toNat extents)) := by
  rw [vnUnlink, exec_bind_ok (exec_vnLookup_inode h hkey hlen hrec)]
  dsimp only
  have hcount' : extentCount (lowered n) = .ok extents :=
    (extentCount_congr rfl rfl).trans hcount
  rw [asInt64_of_lt hino, if_neg (by omega),
    exec_bind_ok (exec_begin .metaOpt), if_pos (by rw [hlinks]; decide)]
  refine (exec_bind_ok (exec_lift_ok hcount')).trans ?_
  refine (exec_bind_ok (exec_deleteExtents h .metaOpt .defaultCf _ _ _
    [])).trans ?_
  refine (exec_bind_ok (exec_delete h .metaOpt _ .metaCf _)).trans ?_
  exact exec_unlinkCommit h .metaOpt _

/-- The last link of a record without an extent size. -/
theorem exec_vnUnlink_fault (hlinks : n.iLinksCount = 1) {e : Fault}
    (hcount : extentCount n = .error e) :
    (vnUnlink parent name).exec w = .error e := by
  rw [vnUnlink, exec_bind_ok (exec_vnLookup_inode h hkey hlen hrec)]
  dsimp only
  have hcount' : extentCount (lowered n) = .error e :=
    (extentCount_congr rfl rfl).trans hcount
  rw [asInt64_of_lt hino, if_neg (by omega),
    exec_bind_ok (exec_begin .metaOpt), if_pos (by rw [hlinks]; decide)]
  exact exec_bind_error (exec_lift_error hcount')

/-- Any other link: the lowered count is persisted, the entry stays. -/
theorem exec_vnUnlink_more (hlinks : n.iLinksCount ≠ 1) :
    (vnUnlink parent name).exec w
      = .ok (0, w.committed .metaOpt
          [.put .metaCf (inodeKey n.iNo.toNat) (lowered n).toBytes]) := by
  have hne : n.iLinksCount - 1 ≠ 0 := sub_ne_zero.mpr hlinks
  rw [vnUnlink, exec_bind_ok (exec_vnLookup_inode h hkey hlen hrec)]
  dsimp only
  rw [asInt64_of_lt hino, if_neg (by omega),
    exec_bind_ok (exec_begin .metaOpt), if_neg hne]
  refine (exec_bind_ok (exec_persistTx h .metaOpt [] _)).trans ?_
  exact exec_unlinkCommit h .metaOpt _

end Found

-- =============================================================== opening

/-- What truncating a file of `extents` extents commits. -/
def truncOps (inode : ViveInode) (extents : Nat) : List WriteOp :=
  deleteOps .dataCf inode.iNo.toNat extents 0
    ++ [.put .metaCf (inodeKey inode.iNo.toNat)
      { inode with iSize := 0 }.toBytes]

theorem exec_openByInode_plain (inode : ViveInode) {flags : UInt32}
    (hflag : hasFlag flags oTrunc = false) :
    (vnOpenFileByInode inode flags).exec w
      = .ok ((some (newFile inode flags), (newFile inode flags).inode),
          w) := by
  rw [vnOpenFileByInode, hflag]
  rfl

/-- Truncation deletes the extents the in-memory size covers and persists
the emptied inode. -/
theorem exec_openByInode_trunc (h : Calm w) (inode : ViveInode)
    {flags : UInt32} (hflag : hasFlag flags oTrunc = true) {v : Bytes}
    (hrec : w.db.metaCf[inodeKey inode.iNo.toNat]? = some v) {extents : Nat}
    (hcount : extentCount inode = .ok extents) :
    (vnOpenFileByInode inode flags).exec w
      = .ok ((some (newFile { inode with iSize := 0 } flags),
            (newFile { inode with iSize := 0 } flags).inode),
          w.committed .metaOpt (truncOps inode extents)) := by
  rw [vnOpenFileByInode, if_pos hflag, exec_bind_ok (exec_begin .metaOpt),
    exec_bind_ok (exec_getForUpdate h .metaOpt _), hrec]
  refine (exec_bind_ok (exec_lift_ok hcount)).trans ?_
  refine (exec_bind_ok (exec_deleteExtents h .metaOpt .dataCf _ _ _
    [])).trans ?_
  refine (exec_bind_ok (exec_persistTx h .metaOpt _ _)).trans ?_
  refine (exec_bind_ok (exec_commit h .metaOpt _)).trans ?_
  rfl

/-- Without a record there is nothing to truncate. -/
theorem exec_openByInode_lost (h : Calm w) {inode : ViveInode}
    {flags : UInt32} (hflag : hasFlag flags oTrunc = true)
    (hrec : w.db.metaCf[inodeKey inode.iNo.toNat]? = none) :
    (vnOpenFileByInode inode flags).exec w = .ok ((none, inode), w.idle) := by
  rw [vnOpenFileByInode, if_pos hflag, exec_bind_ok (exec_begin .metaOpt),
    exec_bind_ok (exec_getForUpdate h .metaOpt _), hrec]
  rfl

/-- Everything an open by inode can do. -/
theorem openByInode_cases (h : Calm w) (inode : ViveInode)
    (flags : UInt32) :
    (∃ e, (vnOpenFileByInode inode flags).exec w = .error e)
    ∨ (w.db.metaCf[inodeKey inode.iNo.toNat]? = none
      ∧ (vnOpenFileByInode inode flags).exec w = .ok ((none, inode), w.idle))
    ∨ (hasFlag flags oTrunc = false
      ∧ (vnOpenFileByInode inode flags).exec w
        = .ok ((some (newFile inode flags), (newFile inode flags).inode), w))
    ∨ ∃ v extents, hasFlag flags oTrunc = true
      ∧ w.db.metaCf[inodeKey inode.iNo.toNat]? = some v
      ∧ extentCount inode = .ok extents
      ∧ (vnOpenFileByInode inode flags).exec w
        = .ok ((some (newFile { inode with iSize := 0 } flags),
            (newFile { inode with iSize := 0 } flags).inode),
          w.committed .metaOpt (truncOps inode extents)) := by
  cases hflag : hasFlag flags oTrunc with
  | false =>
      exact Or.inr (Or.inr (Or.inl ⟨rfl, exec_openByInode_plain inode hflag⟩))
  | true =>
      cases hrec : w.db.metaCf[inodeKey inode.iNo.toNat]? with
      | none =>
          exact Or.inr (Or.inl ⟨rfl, exec_openByInode_lost h hflag hrec⟩)
      | some v =>
          cases hcount : extentCount inode with
          | ok extents =>
              exact Or.inr (Or.inr (Or.inr ⟨v, extents, rfl, rfl, rfl,
                exec_openByInode_trunc h inode hflag hrec hcount⟩))
          | error e =>
              refine Or.inl ⟨e, ?_⟩
              rw [vnOpenFileByInode, if_pos hflag,
                exec_bind_ok (exec_begin .metaOpt),
                exec_bind_ok (exec_getForUpdate h .metaOpt _), hrec]
              exact exec_bind_error (exec_lift_error hcount)

/-- The handle `vn_open_file` returns for a record: the only reference to
its in-memory inode. -/
def opened (n : ViveInode) (flags : UInt32) : ViveFile where
  inode := { n with refCnt := 1 }
  iNo := n.iNo
  noatime := hasFlag flags oNoatime
  dirty := false

/-- The open adds a reference and the fetch's own is dropped. -/
theorem newFile_dropRef (n : ViveInode) (flags : UInt32) :
    { newFile { n with refCnt := 1 } flags with
      inode := { (newFile { n with refCnt := 1 } flags).inode with
        refCnt := (newFile { n with refCnt := 1 } flags).inode.refCnt - 1 } }
      = opened n flags := by
  have hone : (1 + 1 - 1 : UInt32) = 1 := by decide
  rw [opened, newFile]
  dsimp only
  rw [hone]

/-- The handle and the inode an open by inode left, once the fetch's own
reference is dropped. -/
def dropRef (p : Option ViveFile × ViveInode) : Option ViveFile :=
  p.1.map fun f => { f with inode := { p.2 with refCnt := p.2.refCnt - 1 } }

/-- An open by number of a record is an open by inode of it. -/
theorem exec_openByNumber_record (h : Calm w) {ino : Nat} {n : ViveInode}
    (flags : UInt32) (hrec : w.db.metaCf[inodeKey ino]? = some n.toBytes) :
    (openByNumber ino flags).exec w
      = (vnOpenFileByInode { n with refCnt := 1 } flags >>= fun p =>
          pure (dropRef p)).exec w := by
  rw [openByNumber, exec_bind_ok (exec_getMeta h _), hrec]
  exact exec_bind_ok (exec_lift_ok (deserializeInode_toBytes n))

theorem exec_openByNumber_plain (h : Calm w) {ino : Nat} {n : ViveInode}
    {flags : UInt32} (hflag : hasFlag flags oTrunc = false)
    (hrec : w.db.metaCf[inodeKey ino]? = some n.toBytes) :
    (openByNumber ino flags).exec w = .ok (some (opened n flags), w) := by
  rw [exec_openByNumber_record h flags hrec,
    exec_bind_ok (exec_openByInode_plain _ hflag)]
  exact congrArg (fun f => Except.ok (some f, w)) (newFile_dropRef n flags)

theorem exec_openByNumber_trunc (h : Calm w) {ino : Nat} {n : ViveInode}
    {flags : UInt32} (hflag : hasFlag flags oTrunc = true)
    (hrec : w.db.metaCf[inodeKey ino]? = some n.toBytes) {v : Bytes}
    (hown : w.db.metaCf[inodeKey n.iNo.toNat]? = some v) {extents : Nat}
    (hcount : extentCount n = .ok extents) :
    (openByNumber ino flags).exec w
      = .ok (some (opened { n with iSize := 0 } flags),
          w.committed .metaOpt
            (truncOps { n with refCnt := 1 } extents)) := by
  have hcount' : extentCount { n with refCnt := 1 } = .ok extents :=
    (extentCount_congr rfl rfl).trans hcount
  rw [exec_openByNumber_record h flags hrec,
    exec_bind_ok (exec_openByInode_trunc h { n with refCnt := 1 } hflag hown
      hcount')]
  exact congrArg (fun f => Except.ok (some f, _))
    (newFile_dropRef { n with iSize := 0 } flags)

/-- `vn_open_file` of a name that is there. -/
theorem exec_vnOpenFile_found (h : Calm w) (flags : UInt32) (mode : UInt16)
    {v : Bytes} (hkey : w.db.metaCf[fileKey parent name]? = some v)
    (hlen : 8 ≤ v.length) :
    (vnOpenFile parent name flags mode).exec w
      = (openByNumber (leNat (v.take 8)) flags).exec w := by
  rw [vnOpenFile, exec_bind_ok (exec_getMeta h _), hkey]
  exact exec_bind_ok (exec_lift_ok (loadInt64_ok hlen))

/-- `vn_open_file` of a name that is not there, without O_CREAT. -/
theorem exec_vnOpenFile_absent (h : Calm w) {flags : UInt32} (mode : UInt16)
    (hflag : hasFlag flags oCreat = false)
    (hkey : w.db.metaCf[fileKey parent name]? = none) :
    (vnOpenFile parent name flags mode).exec w = .ok (none, w) := by
  rw [vnOpenFile, exec_bind_ok (exec_getMeta h _), hkey]
  show Fs.exec (if hasFlag flags oCreat = true then _ else _) w = _
  rw [hflag]
  rfl

/-- `vn_open_file` of a name that is not there, with O_CREAT, calls
`vn_create_file`. -/
theorem exec_vnOpenFile_creat (h : Calm w) {flags : UInt32} (mode : UInt16)
    (hflag : hasFlag flags oCreat = true)
    (hkey : w.db.metaCf[fileKey parent name]? = none) :
    (vnOpenFile parent name flags mode).exec w
      = (vnCreateFile parent name mode 0 0 >>= fun p =>
          if p.1 < 0 then pure none
          else openByNumber p.1.toNat flags).exec w := by
  rw [vnOpenFile, exec_bind_ok (exec_getMeta h _), hkey]
  show Fs.exec (if hasFlag flags oCreat = true then _ else _) w = _
  rw [if_pos hflag]

/-- The create, then the open. -/
theorem exec_vnOpenFile_create (h : Calm w)
    (hseed : w.inodeSeed + 1 < 2 ^ 63) {flags : UInt32} (mode : UInt16)
    (hflag : hasFlag flags oCreat = true)
    (hkey : w.db.metaCf[fileKey parent name]? = none) :
    (vnOpenFile parent name flags mode).exec w
      = (openByNumber w.inodeSeed flags).exec
          (w.drawn.committed .metaOpt (createOps parent name w.inodeSeed
            (newInode w.inodeSeed mode 0 0 w.clock))) := by
  rw [exec_vnOpenFile_creat h mode hflag hkey,
    exec_bind_ok (exec_vnCreateFile_fresh h hseed mode 0 0 hkey)]
  show Fs.exec (if (w.inodeSeed : Int) < 0 then _ else _) _ = _
  rw [if_neg (by omega), Int.toNat_natCast]

-- =============================================================== reading

/-- The handle after a read: the access time, unless it asked for none. -/
def touched (file : ViveFile) (now : UInt64) : ViveFile :=
  if file.noatime then file
  else { file with
    inode := { file.inode with iAtime := now }, dirty := true }

section Touched

variable (file : ViveFile) (now : UInt64)

theorem touched_iNo : (touched file now).iNo = file.iNo := by
  rw [touched]
  split <;> rfl

theorem touched_inode_iNo :
    (touched file now).inode.iNo = file.inode.iNo := by
  rw [touched]
  split <;> rfl

theorem touched_iLinksCount :
    (touched file now).inode.iLinksCount = file.inode.iLinksCount := by
  rw [touched]
  split <;> rfl

theorem touched_iExtentSize :
    (touched file now).inode.iExtentSize = file.inode.iExtentSize := by
  rw [touched]
  split <;> rfl

theorem touched_iSize :
    (touched file now).inode.iSize = file.inode.iSize := by
  rw [touched]
  split <;> rfl

end Touched

theorem exec_touchAtime (file : ViveFile) :
    (touchAtime file).exec w = .ok (touched file w.clock, w) := by
  rw [touchAtime, touched]
  split
  · rfl
  · rw [exec_bind_ok exec_time]
    rfl

/-- A read of a key that returns leaves the world as it was. -/
theorem get_returns (h : Calm w) {cf : Cf} {key : Bytes} {r : GetStatus}
    {w' : World} (hx : (Fs.get cf key).exec w = .ok (r, w')) : w' = w := by
  cases hget : w.db.get cf key with
  | ok v =>
      have hrun : (Fs.get cf key).exec w = _ :=
        (exec_perform _).trans (replyGet_calm h hget)
      rw [hrun] at hx
      exact (Prod.mk.inj (Except.ok.inj hx)).2.symm
  | error e =>
      have hrun : (Fs.get cf key).exec w = .error e := by
        refine (exec_perform _).trans ?_
        show w.replyGet w.db cf key = _
        rw [World.replyGet, ← outcomeAt_zero, h.outcomeAt, if_pos rfl, hget]
        rfl
      rw [hrun] at hx
      cases hx

theorem lift_returns {α : Type} {x : Except Fault α} {a : α} {w' : World}
    (hx : (Fs.lift x).exec w = .ok (a, w')) : w' = w := by
  cases x with
  | ok b =>
      rw [exec_lift_ok rfl] at hx
      exact (Prod.mk.inj (Except.ok.inj hx)).2.symm
  | error e =>
      rw [exec_lift_error rfl] at hx
      cases hx

theorem readSegments_returns (h : Calm w) {ino E offset len turns i b : Nat}
    {out out' : Bytes} {w' : World}
    (hx : (readSegments ino E offset len turns i b out).exec w
      = .ok (out', w')) : w' = w := by
  induction turns generalizing i b out with
  | zero => exact (Prod.mk.inj (Except.ok.inj hx)).2.symm
  | succ turns ih =>
      rw [readSegments] at hx
      obtain ⟨status, w₁, hget, hcopy⟩ := exec_bind_inv hx
      rw [get_returns h hget] at hcopy
      obtain ⟨out₁, w₂, hlift, hrest⟩ := exec_bind_inv hcopy
      rw [lift_returns hlift] at hrest
      exact ih hrest

/-- A `vn_read` that returns has changed its handle's access time and
nothing else. -/
theorem vnRead_returns (h : Calm w) {file file' : ViveFile} {buf out : Bytes}
    {offset n : Nat} {w' : World}
    (hx : (vnRead file buf offset).exec w = .ok ((n, out, file'), w')) :
    w' = w ∧ file' = touched file w.clock := by
  rw [vnRead] at hx
  dsimp only at hx
  split at hx
  · cases hx
  · obtain ⟨out₁, w₁, hloop, hrest⟩ := exec_bind_inv hx
    rw [readSegments_returns h hloop,
      exec_bind_ok (exec_touchAtime file)] at hrest
    obtain ⟨hres, hw⟩ := Prod.mk.inj (Except.ok.inj hrest)
    exact ⟨hw.symm, (Prod.mk.inj (Prod.mk.inj hres).2).2.symm⟩

-- =============================================================== syncing

/-- What a sync commits: the record, if one is owed. -/
def syncOps (file : ViveFile) : List WriteOp :=
  if file.dirty then
    [.put .metaCf (inodeKey file.inode.iNo.toNat) file.inode.toBytes]
  else []

/-- The world after a commit and a flush of the log. -/
def World.synced (w : World) (batch : List WriteOp) : World :=
  { w.committed .dataOpt batch with durable := w.db.applyBatch batch }

@[simp] theorem synced_db (b : List WriteOp) :
    (w.synced b).db = w.db.applyBatch b := rfl

@[simp] theorem synced_inodeSeed (b : List WriteOp) :
    (w.synced b).inodeSeed = w.inodeSeed := rfl

theorem Calm.synced (h : Calm w) (b : List WriteOp) : Calm (w.synced b) := h

theorem exec_syncCommit (h : Calm w) (file : ViveFile) (b : List WriteOp) :
    (vnFsync.syncCommit file).exec (w.within .dataOpt b)
      = .ok ((-eio, file), w.synced b) := by
  rw [vnFsync.syncCommit, exec_bind_ok (exec_commit h .dataOpt b)]
  refine (exec_bind_ok (exec_flushWAL (h.committed .dataOpt b))).trans ?_
  refine (exec_bind_ok exec_rollback).trans ?_
  rfl

/-- `vn_fsync`. -/
theorem exec_vnFsync (h : Calm w) (file : ViveFile) :
    (vnFsync file).exec w
      = .ok ((-eio, { file with dirty := false }),
          w.synced (syncOps file)) := by
  rw [vnFsync, exec_bind_ok (exec_begin .dataOpt), syncOps]
  cases hdirty : file.dirty with
  | true =>
      refine (exec_bind_ok (exec_persistTx h .dataOpt [] _)).trans ?_
      exact exec_syncCommit h _ _
  | false =>
      have hsame : file = { file with dirty := false } := by
        cases file
        cases hdirty
        rfl
      rw [← hsame]
      exact exec_syncCommit h file []

/-- `vn_close_file`: the same sync, and the handle is gone. -/
theorem exec_vnCloseFile (h : Calm w) (file : ViveFile) :
    (vnCloseFile file).exec w = .ok (0, w.synced (syncOps file)) := by
  rw [vnCloseFile, exec_bind_ok (exec_vnFsync h file)]
  rfl

/-- `vn_persist_inode`. -/
theorem exec_vnPersistInode (h : Calm w) (inode : ViveInode) :
    (vnPersistInode inode).exec w
      = .ok (0, w.committed .dataOpt
          [.put .metaCf (inodeKey inode.iNo.toNat) inode.toBytes]) := by
  rw [vnPersistInode, exec_bind_ok (exec_begin .dataOpt)]
  refine (exec_bind_ok (exec_persistTx h .dataOpt [] _)).trans ?_
  refine (exec_bind_ok (exec_commit h .dataOpt _)).trans ?_
  refine (exec_bind_ok exec_rollback).trans ?_
  rfl

end ViveNas
