/-
Every record stands under its own number, in every store a history of
calls leads to.

# The fact about the text

The functions put values of a record's size under 8-byte keys in one way
only, `_vn_persist_inode`, which takes the key from the record. That is a
fact about the calls a function makes, whatever they reply: `CallsOwn`,
with one lemma per function, gathered in `Api.callsOwn`.

# The invariant

Given that, nothing about whole functions is left to show. A call that
owns what it puts keeps the invariant of a world (`OwnsRecords.handle`,
one case per call), so a run of calls does (`OwnsRecords.exec`), and so
does a history of runs, crashes and mounts (`Lived.ownsRecords`).
-/
import ViveNas.History
import ViveNas.Proofs.Keys
import ViveNas.Proofs.Refused
import ViveNas.Proofs.Store

namespace ViveNas

open LittleEndian

-- ============================================================ own keys

/-- A value of a record's size under an 8-byte key starts with the key:
it is the record of that number. -/
def OwnRecord (key v : Bytes) : Prop :=
  key.length = 8 → vivefsInodeSize ≤ v.length → v.take 8 = key

/-- Every record of meta_cf stands under its own number. -/
def Store.OwnsRecords (s : Store) : Prop :=
  ∀ key v : Bytes, s.metaCf[key]? = some v → OwnRecord key v

/-- What a call puts in meta_cf stands under its own number. -/
def StoreCall.Owns : StoreCall → Prop
  | put .metaCf k v => OwnRecord k v
  | _ => True

/-- What an operation of a transaction puts there. -/
def WriteOp.Owns : WriteOp → Prop
  | put .metaCf k v => OwnRecord k v
  | _ => True

/-- A value too short for a record, such as an entry's number, is none. -/
theorem ownRecord_short {key v : Bytes} (h : v.length < vivefsInodeSize) :
    OwnRecord key v := fun _ hv => by omega

/-- Nor is one under a key of another length, such as the seed's. -/
theorem ownRecord_long {key v : Bytes} (h : key.length ≠ 8) :
    OwnRecord key v := fun hkey _ => absurd hkey h

/-- What `_vn_persist_inode` puts starts with the number it is put under. -/
theorem ownRecord_inode (n : ViveInode) :
    OwnRecord (inodeKey n.iNo.toNat) n.toBytes := by
  intro _ _
  rw [ViveInode.toBytes, List.take_left' (leBytes_length 8 _)]
  rfl

/-- One operation, by the column family and the key it writes. -/
theorem Store.OwnsRecords.applyOp {s : Store} (hs : s.OwnsRecords)
    {op : WriteOp} (hop : op.Owns) : (s.applyOp op).OwnsRecords := by
  intro key v hv
  rw [Store.applyOp_meta] at hv
  cases op with
  | put cf k u =>
      cases cf with
      | metaCf =>
          rw [WriteOp.onMeta] at hv
          split at hv
          case isTrue hkey =>
            cases hv
            exact hkey ▸ hop
          case isFalse => exact hs key v hv
      | defaultCf | dataCf => exact hs key v hv
  | merge k u => exact hs key v hv
  | delete cf k =>
      cases cf with
      | metaCf =>
          rw [WriteOp.onMeta] at hv
          split at hv
          case isTrue => cases hv
          case isFalse => exact hs key v hv
      | defaultCf | dataCf => exact hs key v hv

theorem Store.OwnsRecords.applyBatch {s : Store} (hs : s.OwnsRecords)
    {batch : List WriteOp} (hops : ∀ op ∈ batch, op.Owns) :
    (s.applyBatch batch).OwnsRecords := by
  rw [Store.applyBatch]
  exact List.foldlRecOn (motive := Store.OwnsRecords) batch _ hs
    fun s hs op hop => hs.applyOp (hops op hop)

-- ======================================================== the invariant

/-- Records stand under their own numbers in the committed store, in what
of it survives a crash, and in the open transaction. -/
structure World.OwnsRecords (w : World) : Prop where
  db : w.db.OwnsRecords
  durable : w.durable.OwnsRecords
  batch : ∀ op ∈ w.batch, op.Owns

variable {w w' : World}

/-- Using up an outcome touches no store ... -/
theorem World.OwnsRecords.advance (hw : w.OwnsRecords) :
    w.advance.OwnsRecords := ⟨hw.db, hw.durable, hw.batch⟩

/-- ... an operation added to the transaction touches it alone ... -/
theorem World.OwnsRecords.push (hw : w.OwnsRecords) {op : WriteOp}
    (hop : op.Owns) : (w.push op).OwnsRecords := by
  refine ⟨hw.db, hw.durable, ?_⟩
  intro op' hop'
  have hbatch := hw.batch
  rw [World.batch] at hbatch
  rw [World.batch, World.push] at hop'
  cases htx : w.tx with
  | none =>
      rw [htx] at hop'
      cases hop'
  | some t =>
      rw [htx] at hop' hbatch
      rcases List.mem_append.mp hop' with hold | hnew
      · exact hbatch op' hold
      · rw [List.mem_singleton.mp hnew]
        exact hop

/-- ... and a commit moves it into the store. -/
theorem World.OwnsRecords.commitTx (hw : w.OwnsRecords) :
    w.commitTx.OwnsRecords := by
  have hbatch := hw.batch
  rw [World.batch] at hbatch
  rw [World.commitTx]
  cases htx : w.tx with
  | none => exact hw
  | some t =>
      rw [htx] at hbatch
      have hdb := hw.db.applyBatch hbatch
      refine ⟨hdb, ?_, fun op hop => by cases hop⟩
      dsimp only
      split
      · exact hdb
      · exact hw.durable

/-- A call that owns what it puts keeps the invariant. -/
theorem World.OwnsRecords.handle (hw : w.OwnsRecords) {c : StoreCall}
    (hc : c.Owns) {r : c.Resp} (hx : w.handle c = .ok (r, w')) :
    w'.OwnsRecords := by
  cases c with
  | get cf key | getForUpdate cf key =>
      rw [replyGet_world hx]
      exact hw.advance
  | put cf k v =>
      rw [World.handle] at hx
      obtain rfl | rfl := replyWrite_world hx
      · refine hw.advance.push ?_
        cases cf with
        | metaCf => exact hc
        | defaultCf | dataCf => exact trivial
      · exact hw.advance
  | putSeed =>
      rw [World.handle] at hx
      obtain rfl | rfl := replyWrite_world hx
      · exact hw.advance.push (ownRecord_long (by decide))
      · exact hw.advance
  | merge k v | delete cf k =>
      rw [World.handle] at hx
      obtain rfl | rfl := replyWrite_world hx
      · exact hw.advance.push trivial
      · exact hw.advance
  | commit =>
      rw [World.handle] at hx
      obtain rfl | rfl := replyWrite_world hx
      · exact hw.advance.commitTx
      · exact hw.advance
  | flushWAL =>
      rw [World.handle] at hx
      obtain rfl | rfl := replyWrite_world hx
      · exact ⟨hw.db, hw.db, hw.batch⟩
      · exact hw.advance
  | beginTransaction opt | rollback =>
      cases hx
      exact ⟨hw.db, hw.durable, fun op hop => by cases hop⟩
  | seekMeta t | time =>
      cases hx
      exact hw
  | generateInodeNo =>
      rw [World.handle] at hx
      split at hx
      · cases hx
        exact ⟨hw.db, hw.durable, hw.batch⟩
      · cases hx

-- ====================================================== the functions

section Calls

open Prog

/-- A function all of whose calls own what they put. -/
abbrev CallsOwn {α : Type} (p : Fs α) : Prop := Calls StoreCall.Owns p

/-- The one call that puts records. -/
theorem callsOwn_persistTx (n : ViveInode) : CallsOwn (vnPersistInodeTx n) :=
  .perform (ownRecord_inode n)

/-- The ways out of `vn_create_file` put nothing. -/
theorem callsOwn_createFailed (code : Int) : CallsOwn (createFailed code) :=
  (Calls.perform trivial).bind fun _ => trivial

/-- `vn_create_file` puts the entry, the record and the seed. -/
theorem callsOwn_create (parent : Int) (name : FileName)
    (mode uid gid : UInt16) :
    CallsOwn (vnCreateFile parent name mode uid gid) := by
  refine (Calls.perform trivial).bind fun ino => ?_
  refine (Calls.perform trivial).bind fun now => ?_
  refine (Calls.perform trivial).bind fun _ => ?_
  refine (Calls.perform trivial).bind fun status => ?_
  have hentry : StoreCall.Owns
      (.put .metaCf (fileKey parent name) (leBytes 8 ino)) := by
    refine ownRecord_short ?_
    rw [leBytes_length]
    decide
  cases status with
  | ok v => exact callsOwn_createFailed _
  | notFound | failed =>
      refine calls_onStatus (.perform hentry) (callsOwn_createFailed _) ?_
      refine calls_onStatus (callsOwn_persistTx _) (callsOwn_createFailed _) ?_
      refine calls_onStatus (.perform trivial) (callsOwn_createFailed _) ?_
      exact calls_onStatus (.perform trivial) (callsOwn_createFailed _) trivial

theorem callsOwn_lookup (parent : Int) (name : FileName) (want : Bool) :
    CallsOwn (vnLookupInodeNo parent name want) :=
  calls_vnLookupInodeNo (fun _ _ => trivial) parent name want

/-- Giving up puts nothing either. -/
theorem callsOwn_rollback {α : Type} (a : α) :
    CallsOwn (Fs.rollback >>= fun _ => pure a) :=
  (Calls.perform trivial).bind fun _ => trivial

/-- `vn_unlink` deletes, or persists the inode with a link less. -/
theorem callsOwn_unlink (parent : Int) (name : FileName) :
    CallsOwn (vnUnlink parent name) := by
  have hcommit : CallsOwn unlinkCommit :=
    calls_onStatus (.perform trivial) (callsOwn_rollback _) trivial
  refine (callsOwn_lookup parent name true).bind fun found => ?_
  obtain ⟨ino, inode⟩ := found
  dsimp only
  split
  · exact trivial
  · cases inode with
    | none => exact trivial
    | some found =>
        refine (Calls.perform trivial).bind fun _ => ?_
        split
        · refine (Calls.ofExcept _).bind fun n => ?_
          refine (calls_deleteExtents (fun _ _ => trivial) _ _ _ _).bind
            fun _ => ?_
          exact (Calls.perform trivial).bind fun _ => hcommit
        · exact calls_onStatus (callsOwn_persistTx _) (callsOwn_rollback _)
            hcommit

theorem callsOwn_nextInode (it : VnInodeIterator) (bufLen : Nat) :
    CallsOwn (vnNextInode it bufLen) := by
  rw [vnNextInode]
  split
  · exact trivial
  · split
    · refine (Calls.ofExcept _).bind fun ino => ?_
      refine (Calls.perform trivial).bind fun status => ?_
      cases status with
      | notFound => exact trivial
      | ok v | failed =>
          refine (Calls.ofExcept _).bind fun inode => ?_
          dsimp only
          split
          · exact trivial
          · split <;> exact trivial
    · exact trivial

/-- An opening with O_TRUNC deletes extents and persists the inode. -/
theorem callsOwn_openByInode (inode : ViveInode) (flags : UInt32) :
    CallsOwn (vnOpenFileByInode inode flags) := by
  rw [vnOpenFileByInode]
  split
  · refine (Calls.perform trivial).bind fun _ => ?_
    refine (Calls.perform trivial).bind fun status => ?_
    cases status with
    | notFound | failed => exact callsOwn_rollback _
    | ok v =>
        refine (Calls.ofExcept _).bind fun n => ?_
        refine (calls_deleteExtents (fun _ _ => trivial) _ _ _ _).bind
          fun _ => ?_
        refine calls_onStatus (callsOwn_persistTx _) (callsOwn_rollback _) ?_
        exact calls_onStatus (.perform trivial) (callsOwn_rollback _) trivial
  · exact trivial

theorem callsOwn_openByNumber (ino : Nat) (flags : UInt32) :
    CallsOwn (openByNumber ino flags) := by
  refine (Calls.perform trivial).bind fun status => ?_
  cases status with
  | notFound => exact trivial
  | ok v | failed =>
      refine (Calls.ofExcept _).bind fun inode => ?_
      exact (callsOwn_openByInode _ _).bind fun _ => trivial

/-- `vn_open_file` creates first, if it must and may. -/
theorem callsOwn_openFile (parent : Int) (name : FileName) (flags : UInt32)
    (mode : UInt16) : CallsOwn (vnOpenFile parent name flags mode) := by
  refine (Calls.perform trivial).bind fun status => ?_
  cases status with
  | notFound =>
      dsimp only
      split
      · refine (callsOwn_create _ _ _ _ _).bind fun made => ?_
        split
        · exact trivial
        · exact callsOwn_openByNumber _ _
      · exact trivial
  | ok v | failed =>
      exact (Calls.ofExcept _).bind fun _ => callsOwn_openByNumber _ _

theorem callsOwn_writeSegment (ino E i off : Nat) (data : Bytes) :
    CallsOwn (writeSegment ino E i off data) :=
  calls_writeSegment (fun _ _ => trivial) (fun _ _ => trivial) _ _ _ _ _

/-- The loops that write put extents only, which are not in meta_cf. -/
theorem callsOwn_writevSegments (ino E offset : Nat) (iov : List Bytes)
    (turns i b : Nat) (cur : IovCursor) :
    CallsOwn (writevSegments ino E offset iov turns i b cur) := by
  induction turns generalizing i b cur with
  | zero => exact trivial
  | succ turns ih =>
      rw [writevSegments]
      dsimp only
      split
      · exact trivial
      · refine (Calls.ofExcept _).bind fun piece => ?_
        exact (callsOwn_writeSegment _ _ _ _ _).bind fun _ => ih _ _ _

/-- The end of a write persists the inode if the file grew. -/
theorem callsOwn_finishWrite (file : ViveFile) (offset len : Nat) :
    CallsOwn (finishWrite file offset len) := by
  refine (Calls.perform trivial).bind fun now => ?_
  dsimp only
  split
  · refine calls_onStatus (callsOwn_persistTx _) (callsOwn_rollback _) ?_
    exact calls_onStatus (.perform trivial) (callsOwn_rollback _) trivial
  · exact calls_onStatus (.perform trivial) (callsOwn_rollback _) trivial

/-- The loops of `vn_read` and `vn_readv` make reads only. -/
theorem calls_readSegments {Q : StoreCall → Prop}
    (hget : ∀ cf key, Q (.get cf key)) (ino E offset len turns i b : Nat)
    (out : Bytes) :
    Calls Q (readSegments ino E offset len turns i b out) := by
  induction turns generalizing i b out with
  | zero => exact trivial
  | succ turns ih =>
      refine (Calls.perform (hget _ _)).bind fun status => ?_
      exact (Calls.ofExcept _).bind fun _ => ih _ _ _

theorem calls_readvSegments {Q : StoreCall → Prop}
    (hget : ∀ cf key, Q (.get cf key)) (ino E offset len turns i b : Nat)
    (iov : List Bytes) (cur : IovCursor) :
    Calls Q (readvSegments ino E offset len turns i b iov cur) := by
  induction turns generalizing i b iov cur with
  | zero => exact trivial
  | succ turns ih =>
      refine (Calls.perform (hget _ _)).bind fun status => ?_
      exact (Calls.ofExcept _).bind fun _ => ih _ _ _ _

theorem callsOwn_touchAtime (file : ViveFile) :
    CallsOwn (touchAtime file) := by
  rw [touchAtime]
  split
  · exact trivial
  · exact (Calls.perform trivial).bind fun _ => trivial

/-- `vn_fsync` persists a dirty inode. -/
theorem callsOwn_fsync (file : ViveFile) : CallsOwn (vnFsync file) := by
  have hcommit : ∀ file, CallsOwn (vnFsync.syncCommit file) := fun file =>
    calls_onStatus (.perform trivial) (callsOwn_rollback _)
      ((Calls.perform trivial).bind fun _ => callsOwn_rollback _)
  refine (Calls.perform trivial).bind fun _ => ?_
  split
  · exact calls_onStatus (callsOwn_persistTx _) (callsOwn_rollback _)
      (hcommit _)
  · exact hcommit _

theorem callsOwn_checked {x : Fs Status} (hx : CallsOwn x) :
    CallsOwn (checkedCall x) := by
  exact calls_onStatus hx trivial trivial

/-- Formatting puts the superblock and the seed under long keys. -/
theorem callsOwn_mkfs (codec : SuperblockCodec) :
    CallsOwn (vnMkfsVivefs codec) := by
  have hput : ∀ {key v : Bytes}, key.length ≠ 8 →
      CallsOwn (Fs.put .metaCf key v) := fun hkey =>
    .perform (ownRecord_long hkey)
  refine (Calls.perform trivial).bind fun _ => ?_
  refine (callsOwn_checked (hput (by decide))).bind fun _ => ?_
  refine (callsOwn_checked (hput (by decide))).bind fun _ => ?_
  refine (callsOwn_checked (Calls.perform trivial)).bind fun _ => ?_
  refine (Calls.perform trivial).bind fun _ => ?_
  exact (Calls.perform trivial).bind fun _ => trivial

/-- Mounting only reads. -/
theorem callsOwn_mount (codec : SuperblockCodec) :
    CallsOwn (vnMount codec) := by
  refine (Calls.perform trivial).bind fun now => ?_
  refine (Calls.perform trivial).bind fun status => ?_
  cases status with
  | notFound | failed => exact trivial
  | ok v =>
      refine (Calls.ofExcept _).bind fun seed => ?_
      refine (Calls.perform trivial).bind fun status => ?_
      cases status with
      | notFound | failed => exact trivial
      | ok v =>
          dsimp only
          split
          · exact trivial
          · split
            · exact trivial
            · split <;> exact trivial

/-- Every function of the API owns what it puts. -/
theorem Api.callsOwn {α : Type} {p : Fs α} (hp : Api p) : CallsOwn p := by
  cases hp with
  | create => exact callsOwn_create _ _ _ _ _
  | lookup => exact callsOwn_lookup _ _ _
  | unlink => exact callsOwn_unlink _ _
  | beginIterate => exact (Calls.perform trivial).bind fun _ => trivial
  | nextInode => exact callsOwn_nextInode _ _
  | openFile => exact callsOwn_openFile _ _ _ _
  | openByInode => exact callsOwn_openByInode _ _
  | write file inBuf offset =>
      rw [vnWrite]
      split
      · exact trivial
      · refine (Calls.perform trivial).bind fun _ => ?_
        exact (calls_writeSegments (fun _ _ => trivial) (fun _ _ => trivial)
          _ _ _).bind fun _ =>
          callsOwn_finishWrite _ _ _
  | writev file iov offset =>
      rw [vnWritev]
      split
      · exact trivial
      · refine (Calls.perform trivial).bind fun _ => ?_
        exact (callsOwn_writevSegments _ _ _ _ _ _ _ _).bind fun _ =>
          callsOwn_finishWrite _ _ _
  | read file outBuf offset =>
      rw [vnRead]
      split
      · exact trivial
      · refine (calls_readSegments (fun _ _ => trivial)
          _ _ _ _ _ _ _ _).bind fun _ => ?_
        exact (callsOwn_touchAtime _).bind fun _ => trivial
  | readv file iov offset =>
      rw [vnReadv]
      split
      · exact trivial
      · refine (calls_readvSegments (fun _ _ => trivial)
          _ _ _ _ _ _ _ _ _).bind fun _ => ?_
        exact (callsOwn_touchAtime _).bind fun _ => trivial
  | fsync => exact callsOwn_fsync _
  | close => exact (callsOwn_fsync _).bind fun _ => trivial
  | persist inode =>
      refine (Calls.perform trivial).bind fun _ => ?_
      refine calls_onStatus (callsOwn_persistTx _) (callsOwn_rollback _) ?_
      exact calls_onStatus (.perform trivial) (callsOwn_rollback _)
        (callsOwn_rollback _)
  | umount => exact (Calls.perform trivial).bind fun _ => trivial

end Calls

-- ========================================================= the histories

/-- What a function that owns its puts leaves of the invariant. -/
theorem World.OwnsRecords.exec (hw : w.OwnsRecords) {α : Type} {p : Fs α}
    (hp : CallsOwn p) {a : α} (hx : p.exec w = .ok (a, w')) :
    w'.OwnsRecords :=
  hp.run_invariant (fun _ _ _ _ hc hs hx => hs.handle hc hx) hw hx

/-- Records stand under their own numbers in every store that was lived
in. -/
theorem Lived.ownsRecords {codec : SuperblockCodec} (hw : Lived codec w) :
    w.OwnsRecords := by
  induction hw with
  | @mkfs w w' r hdb hdurable htx hrun =>
      have hempty : Store.empty.OwnsRecords := fun key v hv => by cases hv
      refine World.OwnsRecords.exec ⟨?_, ?_, ?_⟩ (callsOwn_mkfs codec) hrun
      · rwa [hdb]
      · rwa [hdurable]
      · rw [World.batch, htx]
        exact fun op hop => by cases hop
  | call hw hp hrun ih => exact ih.exec hp.callsOwn hrun
  | outside hw script clock ih => exact ⟨ih.db, ih.durable, ih.batch⟩
  | crash hw ih =>
      exact ⟨ih.durable, ih.durable, fun op hop => by cases hop⟩
  | mount hw hrun ih =>
      have hmounted := ih.exec (callsOwn_mount codec) hrun
      exact ⟨hmounted.db, hmounted.durable, hmounted.batch⟩

end ViveNas
