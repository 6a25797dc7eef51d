/-
The extent size of inodes, over whole runs.

Every inode has the extent size `VIVEFS_EXTENT_SIZE` from the moment it
is created, and carries it through its record and back; all but the root
inode, which `vn_mount` makes up and leaves at zero. So as long as
nobody opens the root inode, or persists it, every handle and every
record has the one size and no call divides by zero. A handle on the
root inode has size zero, and the first write through it is a division
by zero.

# The invariant

`SizedSys` says it of the store, the inodes in memory and the handles
together. A batch keeps the records sized if each of its puts does
(`WriteOp.PutsSized`), so a call is checked by the batch it commits.
-/
import ViveNas.Proofs.Divisors
import ViveNas.Proofs.Reclaim

namespace ViveNas

open LittleEndian

-- ================================================================ sizes

/-- The inode has the extent size the merge operator counts on. -/
def ExtentSized (n : ViveInode) : Prop :=
  n.iExtentSize.toNat = vivefsExtentSize

theorem ExtentSized.ne_zero {n : ViveInode} (h : ExtentSized n) :
    n.iExtentSize.toNat ≠ 0 := by
  rw [h]
  exact Nat.ne_of_gt extentSize_pos

/-- A copy that keeps the extent size is sized too; what else it edits does
not matter. -/
theorem ExtentSized.of_same {m n : ViveInode} (h : ExtentSized m)
    (hsame : n.iExtentSize = m.iExtentSize) : ExtentSized n := by
  rw [ExtentSized, hsame]
  exact h

/-- `vn_create_file` sets the size. -/
theorem extentSized_newInode (ino : Nat) (mode uid gid : UInt16)
    (now : UInt64) : ExtentSized (newInode ino mode uid gid now) := by
  rw [ExtentSized, newInode_iExtentSize, extentSize_eq]

/-- Every record of the store is of such an inode. -/
def RecordsSized (db : Store) : Prop :=
  ∀ key n, key ≠ superblockKey →
    db.metaCf[key]? = some (ViveInode.toBytes n) → ExtentSized n

/-- A write that puts no other record. -/
def WriteOp.PutsSized : WriteOp → Prop
  | .put .metaCf _ v => ∀ n, v = ViveInode.toBytes n → ExtentSized n
  | _ => True

/-- Putting a sized inode's record, under whatever key. -/
theorem putsSized_record {key : Bytes} {n : ViveInode} (h : ExtentSized n) :
    (WriteOp.put .metaCf key n.toBytes).PutsSized := by
  intro m hm
  rw [← ViveInode.toBytes_inj hm]
  exact h

/-- A number is not a record. -/
theorem putsSized_number {key : Bytes} (m : Nat) :
    (WriteOp.put .metaCf key (leBytes 8 m)).PutsSized := by
  intro n hn
  have hlen := congrArg List.length hn
  rw [leBytes_length, n.toBytes_length] at hlen
  exact absurd hlen (by decide)

/-- The records are in meta_cf, so other columns' writes are free. -/
theorem putsSized_of_notMeta {op : WriteOp} (h : op.NotMeta) :
    op.PutsSized := by
  cases op with
  | put cf k v =>
      cases cf with
      | metaCf => exact absurd rfl h
      | dataCf => trivial
      | defaultCf => trivial
  | merge k v => trivial
  | delete cf k => trivial

/-- One such write keeps the records sized ... -/
theorem RecordsSized.applyOp {db : Store} (h : RecordsSized db)
    {op : WriteOp} (hop : op.PutsSized) : RecordsSized (db.applyOp op) := by
  intro key n hkey hrec
  rw [Store.applyOp_meta] at hrec
  cases op with
  | put cf k v =>
      cases cf with
      | metaCf =>
          rw [WriteOp.onMeta] at hrec
          split at hrec
          · exact hop n (Option.some.inj hrec)
          · exact h key n hkey hrec
      | dataCf => exact h key n hkey hrec
      | defaultCf => exact h key n hkey hrec
  | merge k v => exact h key n hkey hrec
  | delete cf k =>
      cases cf with
      | metaCf =>
          rw [WriteOp.onMeta] at hrec
          split at hrec
          · cases hrec
          · exact h key n hkey hrec
      | dataCf => exact h key n hkey hrec
      | defaultCf => exact h key n hkey hrec

/-- ... and so does a batch of them. -/
theorem RecordsSized.applyBatch {db : Store} (h : RecordsSized db)
    {batch : List WriteOp} (hb : ∀ op ∈ batch, op.PutsSized) :
    RecordsSized (db.applyBatch batch) := by
  induction batch generalizing db with
  | nil => exact h
  | cons op batch ih =>
      exact ih (h.applyOp (hb op (List.mem_cons_self ..)))
        fun q hq => hb q (List.mem_cons_of_mem _ hq)

-- ------------------------------------------------------- the batches

theorem putsSized_createOps (parent : Int) (name : FileName) (seed : Nat)
    (mode uid gid : UInt16) (now : UInt64) :
    ∀ op ∈ createOps parent name seed (newInode seed mode uid gid now),
      op.PutsSized := by
  intro op hop
  simp only [createOps, List.mem_cons, List.not_mem_nil, or_false] at hop
  rcases hop with rfl | rfl | rfl
  · exact putsSized_number seed
  · exact putsSized_record (extentSized_newInode seed mode uid gid now)
  · exact putsSized_number (seed + 1)

theorem putsSized_truncOps {n : ViveInode} (h : ExtentSized n)
    (extents : Nat) : ∀ op ∈ truncOps n extents, op.PutsSized := by
  intro op hop
  rcases List.mem_append.mp hop with hdel | hput
  · exact putsSized_of_notMeta (deleteOps_notMeta (by decide) _ _ _ op hdel)
  · obtain rfl := List.mem_singleton.mp hput
    exact putsSized_record (h.of_same rfl)

theorem putsSized_wrote {f : ViveFile} (h : ExtentSized f.inode)
    (ino E offset : Nat) (data : Bytes) (now : UInt64) (endOff : Nat) :
    ∀ op ∈ writeOps ino E offset data ++ growOps f now endOff,
      op.PutsSized := by
  intro op hop
  rcases List.mem_append.mp hop with hop | hop
  · exact putsSized_of_notMeta (writeOps_notMeta op hop)
  · rw [growOps] at hop
    split at hop
    · obtain rfl := List.mem_singleton.mp hop
      exact putsSized_record (h.of_same (wroteFile_iExtentSize ..))
    · cases hop

theorem putsSized_syncOps {f : ViveFile} (h : ExtentSized f.inode) :
    ∀ op ∈ syncOps f, op.PutsSized := by
  intro op hop
  rw [syncOps] at hop
  split at hop
  · obtain rfl := List.mem_singleton.mp hop
    exact putsSized_record h
  · cases hop

theorem putsSized_unlinkOps (parent : Int) (name : FileName)
    (ino extents : Nat) :
    ∀ op ∈ unlinkOps parent name ino extents, op.PutsSized := by
  intro op hop
  rcases List.mem_append.mp hop with hdel | hentry
  · exact putsSized_of_notMeta (deleteOps_notMeta (by decide) _ _ _ op hdel)
  · obtain rfl := List.mem_singleton.mp hentry
    trivial

-- =============================================================== states

variable {codec : SuperblockCodec} {s s' : Sys} {c : Nat} {call : Call}
  {r : Int}

/-- All records and all handles have the one extent size, and so has every
inode in memory but the root's. -/
structure SizedSys (s : Sys) : Prop where
  records : RecordsSized s.world.db
  memory : ∀ addr n, s.inodes addr = some n →
    n.iNo.toNat = vnRootIno ∨ ExtentSized n
  handles : ∀ fd ref n, s.files fd = some ref →
    s.inodes ref.addr = some n → ExtentSized n

namespace SizedSys

variable (h : SizedSys s)
include h

theorem file {fd addr : Nat} {f : ViveFile}
    (hfile : s.file fd = some (addr, f)) : ExtentSized f.inode := by
  obtain ⟨href, hinode⟩ := file_eq_some hfile
  exact h.handles fd _ f.inode href hinode

/-- A new world whose records have the size. -/
theorem withWorld {w : World} (hw : RecordsSized w.db) :
    SizedSys { s with world := w } where
  records := hw
  memory := h.memory
  handles := h.handles

theorem commit (opt : WriteOpt) {b : List WriteOp}
    (hb : ∀ op ∈ b, op.PutsSized) :
    SizedSys { s with world := s.world.committed opt b } :=
  h.withWorld (h.records.applyBatch hb)

theorem sync {b : List WriteOp} (hb : ∀ op ∈ b, op.PutsSized) :
    SizedSys { s with world := s.world.synced b } :=
  h.withWorld (h.records.applyBatch hb)

theorem setInode (addr : Option Nat) {n : ViveInode} (hn : ExtentSized n) :
    SizedSys (s.setInode addr (some n)) := by
  cases addr with
  | none => exact h
  | some a =>
      refine ⟨h.records, ?_, fun fd ref m href hm => ?_⟩
      · exact Partial.forall_update
          (fun m hm => Or.inr (Option.some.inj hm ▸ hn))
          fun b _ m hm => h.memory b m hm
      · replace hm : Function.update s.inodes a (some n) ref.addr
          = some m := hm
        rw [Function.update_apply] at hm
        split at hm
        · exact Option.some.inj hm ▸ hn
        · exact h.handles fd ref m href hm

theorem setFile {fd addr : Nat} {f : ViveFile} (hf : ExtentSized f.inode) :
    SizedSys (s.setFile fd addr f) := by
  have hset := h.setInode (some addr) hf
  refine ⟨h.records, hset.memory, fun fd' ref m href hm => ?_⟩
  replace href : Function.update s.files fd
    (some ⟨addr, f.iNo, f.noatime, f.dirty⟩) fd' = some ref := href
  rw [Function.update_apply] at href
  split at href
  · cases href
    replace hm : Function.update s.inodes addr (some f.inode) addr
      = some m := hm
    rw [Function.update_self] at hm
    exact Option.some.inj hm ▸ hf
  · exact hset.handles fd' ref m href hm

end SizedSys

-- ------------------------------------------------------------- one call

/-- The call does not open the root inode, and persists no root inode and
none whose extent size its caller has edited. -/
def RootUnopened (s : Sys) (call : Call) : Prop :=
  Admissible s call ∧
    match call with
    | .openByInode _ addr _ =>
        ∀ n, s.inodes addr = some n → n.iNo.toNat ≠ vnRootIno
    | .persist addr inode =>
        ∀ old, s.inodes addr = some old →
          old.iNo.toNat ≠ vnRootIno ∧ inode.iExtentSize = old.iExtentSize
    | _ => True

/-- Such a call keeps the sizes. -/
theorem Effect.sized (heff : Effect s call r s') (inv : SysInv codec s c)
    (h : SizedSys s) (hok : RootUnopened s call) : SizedSys s' := by
  induction heff generalizing c with
  | createTaken hm hseed hkey => exact h.withWorld h.records
  | createFresh hm hfree hseed hkey =>
      refine SizedSys.setInode ?_ _ (extentSized_newInode _ _ _ _ _)
      exact h.withWorld (h.records.applyBatch
        (putsSized_createOps _ _ _ _ _ _ _))
  | lookupNone hkey => exact h
  | lookupFound hfree hkey hrec =>
      have hn := h.records _ _ (inv.entry_value hkey).ne_superblockKey hrec
      exact h.setInode _ (hn.of_same rfl)
  | openNull hw hnone =>
      rcases hw with rfl | rfl
      · exact h
      · exact h.withWorld h.records
  | openPlain hfree hflag hkey hrec =>
      have hn := h.records _ _ (inodeKey_ne_superblockKey _) hrec
      exact h.setFile (hn.of_same rfl)
  | openTrunc hfree hflag hkey hrec hown hcount =>
      have hn := h.records _ _ (inodeKey_ne_superblockKey _) hrec
      refine SizedSys.setFile ?_ (hn.of_same rfl)
      refine h.commit _ (putsSized_truncOps ?_ _)
      exact hn
  | openCreate hflag hkey hcreate hopen ihc iho =>
      obtain ⟨c₁, -, inv₁⟩ := hcreate.inv inv (Call.Plain.admissible trivial)
      have h₁ := ihc inv h ⟨Call.Plain.admissible trivial, trivial⟩
      exact iho inv₁ h₁ ⟨Call.Plain.admissible trivial, trivial⟩
  | byInodePlain hinode hflag =>
      have hn := (h.memory _ _ hinode).resolve_left (hok.2 _ hinode)
      exact h.setFile (hn.of_same rfl)
  | byInodeTrunc hinode hflag hrec hcount =>
      have hn := (h.memory _ _ hinode).resolve_left (hok.2 _ hinode)
      refine SizedSys.setFile ?_ (hn.of_same rfl)
      exact h.commit _ (putsSized_truncOps hn _)
  | byInodeLost => exact h.withWorld h.records
  | wrote hcall hfile hE hend =>
      have hf := h.file hfile
      refine SizedSys.setFile ?_ (hf.of_same (wroteFile_iExtentSize ..))
      exact h.commit _ (putsSized_wrote hf _ _ _ _ _ _)
  | didRead hfile =>
      exact h.setFile ((h.file hfile).of_same (touched_iExtentSize ..))
  | synced hfile =>
      have hf := h.file hfile
      exact (h.sync (putsSized_syncOps hf)).setFile hf
  | closed hfile =>
      have hsync := h.sync (putsSized_syncOps (h.file hfile))
      refine ⟨hsync.records, h.memory, fun fd ref n href hn => ?_⟩
      simp only [Function.update_apply] at href
      split at href
      · cases href
      · exact h.handles fd ref n href hn
  | persisted hinode =>
      obtain ⟨hroot, hsame⟩ := hok.2 _ hinode
      have hn := ((h.memory _ _ hinode).resolve_left hroot).of_same hsame
      refine SizedSys.setInode ?_ _ hn
      refine h.commit _ fun op hop => ?_
      obtain rfl := List.mem_singleton.mp hop
      exact putsSized_record hn
  | unlinkNone hkey => exact h
  | unlinkLast hkey hrec hlinks hcount =>
      exact h.commit _ (putsSized_unlinkOps _ _ _ _)
  | unlinkMore hkey hrec hlinks =>
      have hn := h.records _ _ (inv.entry_value hkey).ne_superblockKey hrec
      refine h.commit _ fun op hop => ?_
      obtain rfl := List.mem_singleton.mp hop
      exact putsSized_record (n := lowered _) (hn.of_same rfl)
  | umounted => exact ⟨h.records, nofun, nofun⟩
  | mounted hm hseed hrange =>
      refine ⟨h.records, fun addr n hn => ?_, nofun⟩
      simp only [Function.update_apply] at hn
      split at hn
      · have hroot : (UInt64.ofNat vnRootIno).toNat = vnRootIno := by decide
        rw [← Option.some.inj hn]
        exact Or.inl hroot
      · cases hn

/-- A formatted store has no record, and nothing is in memory. -/
theorem Formatted.sized (h : Formatted codec s) : SizedSys s := by
  obtain ⟨hdb, -⟩ := h.world_eq
  obtain ⟨-, -, -, -, hinodes, hfiles⟩ := h
  refine ⟨fun key n hkey hrec => ?_, fun _ _ hn => ?_, fun _ _ _ hf => ?_⟩
  · rw [hdb, formattedStore_meta] at hrec
    split at hrec
    · have hnumber : (WriteOp.put .metaCf key (leBytes 8 _)).PutsSized :=
        putsSized_number vnFirstUserIno
      exact hnumber n (Option.some.inj hrec)
    · rw [if_neg hkey.symm] at hrec
      cases hrec
  · rw [hinodes] at hn
    cases hn
  · rw [hfiles] at hf
    cases hf

/-- The invariant, along a whole run. -/
theorem run_sized {tr : List Event} (hrun : SysRun codec RootUnopened tr s) :
    (∃ c, SysInv codec s c) ∧ SizedSys s := by
  refine hrun.invariant
    (I := fun _ s => (∃ c, SysInv codec s c) ∧ SizedSys s)
    (fun s h => ⟨⟨_, h.inv⟩, h.sized⟩) ?_
  rintro tr s e s' ⟨⟨c, inv⟩, h⟩ (⟨clock⟩ | ⟨hok, hstep⟩)
  · exact ⟨⟨c, inv.withWorld inv.calm inv.shape inv.seed inv.counter⟩,
      h.withWorld h.records⟩
  · have heff := step_effect inv hok.1 hstep
    obtain ⟨c', -, inv'⟩ := heff.inv inv hok.1
    exact ⟨⟨c', inv'⟩, heff.sized inv h hok⟩

-- ============================================================== divisors

/-- A create divides by nothing. -/
theorem noZero_vnCreateFile (inv : SysInv codec s c) (parent : Int)
    (name : FileName) (mode uid gid : UInt16) :
    NoZeroDivisor ((vnCreateFile parent name mode uid gid).exec s.world) := by
  by_cases hseed : s.world.inodeSeed + 1 < 2 ^ 63
  case neg =>
    rw [exec_vnCreateFile_overflow hseed]
    exact nofun
  case pos =>
    cases hkey : s.world.db.metaCf[fileKey parent name]? with
    | some v =>
        rw [exec_vnCreateFile_exists inv.calm hseed mode uid gid hkey]
        exact noZero_ok _
    | none =>
        rw [exec_vnCreateFile_fresh inv.calm hseed mode uid gid hkey]
        exact noZero_ok _

/-- Opening by number divides by the extent size of the record it finds. -/
theorem noZero_openByNumber (inv : SysInv codec s c)
    (h : RecordsSized s.world.db) (ino : Nat) (flags : UInt32) :
    NoZeroDivisor ((openByNumber ino flags).exec s.world) := by
  cases hrec : s.world.db.metaCf[inodeKey ino]? with
  | none =>
      rw [openByNumber, exec_bind_ok (exec_getMeta inv.calm _), hrec]
      exact noZero_ok _
  | some raw =>
      cases hd : deserializeInode raw with
      | error e =>
          have hrun : (openByNumber ino flags).exec s.world = .error e := by
            rw [openByNumber, exec_bind_ok (exec_getMeta inv.calm _), hrec]
            exact exec_bind_error (exec_lift_error hd)
          rw [hrun]
          exact (noZero_deserializeInode raw).of_error hd
      | ok n' =>
          obtain ⟨n, rfl, -⟩ := (inv.record_value hrec).record hd
          have hn := h _ n (inodeKey_ne_superblockKey ino) hrec
          have hopen : DivSafe
              (vnOpenFileByInode { n with refCnt := 1 } flags) := by
            refine divSafe_vnOpenFileByInode ?_ flags
            exact hn.ne_zero
          rw [exec_openByNumber_record inv.calm flags hrec]
          exact DivSafe.exec (hopen.bind fun _ => divSafe_pure _) s.world

/-- An open divides only to truncate, by the record's extent size. -/
theorem noZero_vnOpenFile (inv : SysInv codec s c) (hm : s.mounted = true)
    (h : RecordsSized s.world.db) (parent : Int) (name : FileName)
    (flags : UInt32) (mode : UInt16) :
    NoZeroDivisor ((vnOpenFile parent name flags mode).exec s.world) := by
  cases hkey : s.world.db.metaCf[fileKey parent name]? with
  | some v =>
      rw [exec_vnOpenFile_found inv.calm flags mode hkey
        (inv.entry_value hkey).eight_le]
      exact noZero_openByNumber inv h _ flags
  | none =>
      cases hflag : hasFlag flags oCreat with
      | false =>
          rw [exec_vnOpenFile_absent inv.calm mode hflag hkey]
          exact noZero_ok _
      | true =>
          by_cases hseed : s.world.inodeSeed + 1 < 2 ^ 63
          case neg =>
            rw [exec_vnOpenFile_creat inv.calm mode hflag hkey,
              exec_bind_error (exec_vnCreateFile_overflow hseed mode 0 0)]
            exact nofun
          case pos =>
            -- the record it opens is the one it has just created
            rw [exec_vnOpenFile_create inv.calm hseed mode hflag hkey]
            exact noZero_openByNumber
              (inv.create parent name mode 0 0 hm hseed)
              (h.applyBatch (putsSized_createOps _ _ _ _ _ _ _)) _ flags

/-- An unlink divides by the extent size of the record it found. -/
theorem noZero_vnUnlink (inv : SysInv codec s c)
    (h : RecordsSized s.world.db) (parent : Int) (name : FileName) :
    NoZeroDivisor ((vnUnlink parent name).exec s.world) := by
  rcases inv.lookup_cases parent name with
    ⟨e, hrun⟩ | ⟨-, hrun⟩ | ⟨v, n, hkey, hrec, hlen, hnum, -⟩
  · rw [vnUnlink, exec_bind_error hrun]
    exact ((divSafe_vnLookupInodeNo parent name true).exec _).of_error hrun
  · rw [vnUnlink, exec_bind_ok hrun]
    exact noZero_ok _
  · have hn := h v n (inv.entry_value hkey).ne_superblockKey hrec
    by_cases hlinks : n.iLinksCount = 1
    · cases hcount : extentCount n with
      | error e =>
          rw [exec_vnUnlink_fault inv.calm hkey hlen hrec hnum hlinks hcount]
          exact (noZero_extentCount hn.ne_zero).of_error hcount
      | ok extents =>
          rw [exec_vnUnlink_last inv.calm hkey hlen hrec hnum hlinks hcount]
          exact noZero_ok _
    · rw [exec_vnUnlink_more inv.calm hkey hlen hrec hnum hlinks]
      exact noZero_ok _

/-- A call on a handle divides by what its operation divides by. -/
theorem noZero_onFile {fd : Nat} {op : ViveFile → Fs (Int × ViveFile)}
    (hop : ∀ addr f, s.file fd = some (addr, f) →
      NoZeroDivisor ((op f).exec s.world)) :
    NoZeroDivisor (s.onFile fd op) := by
  rw [Sys.onFile]
  split
  case h_1 => exact noZero_error (by decide)
  case h_2 addr f hfile =>
    exact (hop addr f hfile).bind fun _ => noZero_ok _

/-- Every call divides by the size of a handle, of a record or of an inode
it is given, and these are sized. -/
theorem noZero_stepMounted (inv : SysInv codec s c) (hm : s.mounted = true)
    (h : SizedSys s) (hok : RootUnopened s call) :
    NoZeroDivisor (s.stepMounted call) := by
  cases call with
  | create addr parent name mode uid gid =>
      rw [Sys.stepMounted]
      split
      case isFalse => exact noZero_error (by decide)
      case isTrue =>
        exact (noZero_vnCreateFile inv _ _ _ _ _).bind fun _ => noZero_ok _
  | lookup addr parent name =>
      rw [Sys.stepMounted]
      split
      case isFalse => exact noZero_error (by decide)
      case isTrue =>
        exact ((divSafe_vnLookupInodeNo _ _ _).exec s.world).bind
          fun _ => noZero_ok _
  | openFile fd addr parent name flags mode =>
      rw [Sys.stepMounted]
      split
      case isFalse => exact noZero_error (by decide)
      case isTrue =>
        exact (noZero_vnOpenFile inv hm h.records _ _ _ _).bind
          fun _ => noZero_ok _
  | openByInode fd addr flags =>
      rw [Sys.stepMounted]
      split
      case h_1 => exact noZero_error (by decide)
      case h_2 inode hinode =>
        have hn := (h.memory _ _ hinode).resolve_left (hok.2 _ hinode)
        split
        case isFalse => exact noZero_error (by decide)
        case isTrue =>
          exact ((divSafe_vnOpenFileByInode hn.ne_zero _).exec s.world).bind
            fun _ => noZero_ok _
  | write fd inBuf offset =>
      refine noZero_onFile fun addr f hfile => ?_
      exact (divSafe_vnWrite (h.file hfile).ne_zero _ _).exec s.world
  | writev fd iov offset =>
      refine noZero_onFile fun addr f hfile => ?_
      exact (divSafe_vnWritev (h.file hfile).ne_zero _ _).exec s.world
  | read fd outBuf offset =>
      refine noZero_onFile fun addr f hfile => ?_
      refine DivSafe.exec (Prog.Dies.bind ?_ fun _ => divSafe_pure _) s.world
      exact divSafe_vnRead (h.file hfile).ne_zero _ _
  | fsync fd =>
      refine noZero_onFile fun addr f hfile => ?_
      rw [exec_vnFsync inv.calm f]
      exact noZero_ok _
  | close fd =>
      rw [Sys.stepMounted]
      split
      case h_1 => exact noZero_error (by decide)
      case h_2 addr f hfile =>
        rw [exec_vnCloseFile inv.calm f]
        exact noZero_ok _
  | persist addr inode =>
      rw [Sys.stepMounted]
      split
      case h_1 => exact noZero_error (by decide)
      case h_2 old hinode =>
        rw [exec_vnPersistInode inv.calm inode]
        exact noZero_ok _
  | unlink parent name =>
      exact (noZero_vnUnlink inv h.records parent name).bind
        fun _ => noZero_ok _
  | umount =>
      rw [Sys.stepMounted, vnUmount,
        exec_bind_ok (exec_flushWAL inv.calm)]
      exact noZero_ok _
  | mount addr => exact noZero_error (by decide)

theorem noZero_step (inv : SysInv codec s c) (h : SizedSys s)
    (hok : RootUnopened s call) : NoZeroDivisor (s.step codec call) := by
  unfold Sys.step
  split
  case isTrue hm => exact noZero_stepMounted inv hm h hok
  case isFalse hm =>
    split
    case h_1 addr =>
      rw [exec_vnMount inv.calm inv.seed inv.high inv.shape.superblock]
      exact noZero_ok _
    case h_2 => exact nofun

-- ============================================================ every state

/-- The state has one extent size throughout, and nothing divides by
zero: no call that leaves the root inode unopened, and no scattered read
through a handle. -/
structure UniformExtentSize (codec : SuperblockCodec) (s : Sys) : Prop where
  handles : ∀ fd addr f, s.file fd = some (addr, f) →
    f.inode.iExtentSize.toNat = vivefsExtentSize
  records : ∀ key n, key ≠ superblockKey →
    s.world.db.metaCf[key]? = some (ViveInode.toBytes n) →
    n.iExtentSize.toNat = vivefsExtentSize
  divisors : ∀ call, RootUnopened s call →
    s.step codec call ≠ .error .divByZero
  scattered : ∀ fd addr f iov offset, s.file fd = some (addr, f) →
    (vnReadv f iov offset).exec s.world ≠ .error .divByZero

/-- In every state of every run that leaves the root inode unopened, the
extent size is uniform. -/
theorem extent_size_uniform (codec : SuperblockCodec) (tr : List Event)
    (s : Sys) (hrun : SysRun codec RootUnopened tr s) :
    UniformExtentSize codec s := by
  obtain ⟨⟨c, inv⟩, h⟩ := run_sized hrun
  exact {
    handles := fun fd addr f hfile => h.file hfile
    records := h.records
    divisors := fun call hok => noZero_step inv h hok
    scattered := fun fd addr f iov offset hfile =>
      (divSafe_vnReadv (h.file hfile).ne_zero iov offset).exec s.world }

/-- Calls on names and handles cannot open the root inode. -/
theorem Call.Plain.rootUnopened (h : call.Plain)
    (hnot : ∀ fd addr flags, call ≠ .openByInode fd addr flags) :
    RootUnopened s call := by
  refine ⟨h.admissible, ?_⟩
  cases call with
  | openByInode fd addr flags => exact absurd rfl (hnot fd addr flags)
  | persist addr inode => exact h.elim
  | _ => trivial

/-- A file system with one byte in one file, whose handle is still open. -/
theorem extent_size_uniform_oneByte :
    UniformExtentSize plainCodec writtenSys := by
  have hrun : ∃ tr, SysRun plainCodec RootUnopened tr writtenSys :=
    run_writtenSys (fun s => Call.Plain.rootUnopened trivial nofun)
      (Call.Plain.rootUnopened trivial nofun)
      (Call.Plain.rootUnopened trivial nofun) ⟨nameable_write.1, trivial⟩
  obtain ⟨tr, hrun⟩ := hrun
  exact extent_size_uniform plainCodec tr writtenSys hrun

-- --------------------------------------------------------- the root inode

/-- An open of an inode in memory, without truncation. -/
theorem step_openByInode (hm : s.mounted = true) {fd addr : Nat}
    {inode : ViveInode} (hinode : s.inodes addr = some inode)
    (hfd : s.files fd = none) {flags : UInt32}
    (hflag : hasFlag flags oTrunc = false) :
    s.step codec (.openByInode fd addr flags)
      = .ok (inode.iNo.toNat, s.setFile fd addr (newFile inode flags)) := by
  have hfree : (s.files fd).isNone = true := by rw [hfd]; rfl
  rw [step_of_mounted hm]
  simp only [Sys.stepMounted, hinode]
  rw [if_pos hfree, exec_openByInode_plain inode hflag]
  exact congrArg (fun s => Except.ok (_, s)) setInode_setFile

/-- The root inode as a mount leaves it. -/
def mountedRoot : ViveInode := { rootInode 0 with refCnt := 2 }

/-- It is opened as handle 0, right after the mount. -/
def rootOpenSys : Sys :=
  (mountedSys plainCodec 0 0).setFile 0 0 (newFile mountedRoot 0)

/-- After the mount nothing stops a caller from opening the root inode. -/
theorem run_rootOpenSys : SysRun plainCodec Admissible
    [.call (.openByInode 0 0 0) 2 false, .call (.mount 0) 0 false]
    rootOpenSys := by
  have hmounted : SysRun plainCodec Admissible _ (mountedSys plainCodec 0 0) :=
    run_mountedSys 0 fun _ => Call.Plain.admissible trivial
  have hflag : hasFlag 0 oTrunc = false := by decide
  have hinode : (mountedSys plainCodec 0 0).inodes 0 = some mountedRoot := rfl
  have hopened : (mountedSys plainCodec 0 0).step plainCodec
      (.openByInode 0 0 0) = .ok (mountedRoot.iNo.toNat, rootOpenSys) :=
    step_openByInode rfl hinode rfl hflag
  exact .step hmounted (.call (Call.Plain.admissible trivial) hopened)

/-- The handle `vn_open_file_by_inode` gives on the root inode has extent
size zero, and a write or a read through it divides by zero. -/
theorem root_handle_divides_by_zero :
    ∃ tr s, SysRun plainCodec Admissible tr s
      ∧ ∃ f, s.file 0 = some (0, f) ∧ f.inode.iExtentSize.toNat = 0
        ∧ s.step plainCodec (.write 0 [7] 0) = .error .divByZero
        ∧ s.step plainCodec (.read 0 [0] 0) = .error .divByZero
        ∧ ¬ UniformExtentSize plainCodec s := by
  refine ⟨_, rootOpenSys, run_rootOpenSys, _, rfl, rfl, rfl, rfl, ?_⟩
  intro h
  have hsize : 0 = vivefsExtentSize := h.handles 0 0 _ rfl
  exact absurd hsize (Nat.ne_of_lt extentSize_pos)

end ViveNas
