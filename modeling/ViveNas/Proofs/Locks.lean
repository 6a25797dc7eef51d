/-
Who waits for whom.

A caller about to write or lock a key waits for the caller that has the
key's lock. The functions of the API take their locks in one order: the
extents by their index, then in meta_cf an entry, an inode's record and
the seed. `vn_open_file_by_inode` with O_TRUNC does not: it locks the
record first and the extents after it, while a `vn_write` that makes the
file grow goes the other way. So callers who wait for each other in a
circle have such an opening among them, and without one there is always a
caller at the end of the line who can go on (`waiting_ends_or_truncates`).
With one the circle can close: `truncation_can_circle` runs the opening
and the write into each other.

# Method

`Locking` says how a call moves the list of a caller's locks, whatever
the others do; `LocksUp` that a program asks for them upwards only. The
circle is a run, written out call by call from the two functions' first
calls (`truncation_text`, `growing_text`).
-/
import ViveNas.Lib.LockOrder
import ViveNas.Proofs.Alternate
import ViveNas.Proofs.Pending
import ViveNas.Proofs.Serving

namespace ViveNas

open LittleEndian

variable {A : Type} {F : Lasting A} {codec : SuperblockCodec} {α β : Type}

-- ============================================================== the order

/-- The rank of a key of meta_cf among such keys. A name has no NUL byte,
a record's key has one as long as numbers are plain. -/
def metaRank (key : Bytes) : Nat :=
  if key = inodeSeedKey then 2 else if 0 ∈ key then 1 else 0

/-- A lock's rank: the extents' indices, then meta_cf. -/
def lockRank : Cf × Bytes → Nat
  | (.metaCf, key) => 2 ^ 64 + metaRank key
  | (_, key) => leNat (key.take 8)

theorem leNat_take_lt (key : Bytes) : leNat (key.take 8) < 2 ^ 64 := by
  have hlen : (key.take 8).length ≤ 8 := List.length_take_le 8 key
  calc leNat (key.take 8) < 256 ^ (key.take 8).length := leNat_lt _
    _ ≤ 256 ^ 8 := Nat.pow_le_pow_right (by decide) hlen
    _ = 2 ^ 64 := by decide

theorem lockRank_lt (lock : Cf × Bytes) : lockRank lock < 2 ^ 64 + 3 := by
  obtain ⟨cf, key⟩ := lock
  cases cf with
  | metaCf =>
      show 2 ^ 64 + metaRank key < 2 ^ 64 + 3
      unfold metaRank
      split
      · omega
      · split <;> omega
  | defaultCf | dataCf =>
      exact Nat.lt_of_lt_of_le (leNat_take_lt key) (Nat.le_add_right ..)

/-- An extent's key starts with its index. -/
theorem lockRank_extent {cf : Cf} (hcf : cf ≠ .metaCf) (ino : Nat) {i : Nat}
    (hi : i < 2 ^ 64) : lockRank (cf, vnExtentKey i ino) = i := by
  have hkey : leNat ((vnExtentKey i ino).take 8) = i := by
    rw [vnExtentKey, List.take_left' (leBytes_length 8 i),
      leNat_leBytes_of_lt hi]
  cases cf with
  | metaCf => exact absurd rfl hcf
  | defaultCf | dataCf => exact hkey

/-- meta_cf comes after all extents ... -/
theorem le_lockRank_meta (key : Bytes) : 2 ^ 64 ≤ lockRank (.metaCf, key) :=
  Nat.le_add_right ..

/-- ... and in it entries come first, -/
theorem lockRank_entry (parent : Int) (name : FileName) :
    lockRank (.metaCf, fileKey parent name) = 2 ^ 64 := by
  show 2 ^ 64 + metaRank _ = 2 ^ 64
  unfold metaRank
  rw [if_neg (fileKey_ne_inodeSeedKey parent name),
    if_neg (zero_notMem_fileKey parent name), Nat.add_zero]

/-- then the records of plain numbers, -/
theorem lockRank_record {ino : Nat} (h : ino < plainNos) :
    lockRank (.metaCf, inodeKey ino) = 2 ^ 64 + 1 := by
  show 2 ^ 64 + metaRank _ = 2 ^ 64 + 1
  unfold metaRank
  rw [if_neg (inodeKey_ne_inodeSeedKey ino), if_pos (zero_mem_inodeKey h)]

/-- and the seed last. -/
theorem lockRank_seed : lockRank (.metaCf, inodeSeedKey) = 2 ^ 64 + 2 := by
  show 2 ^ 64 + metaRank _ = 2 ^ 64 + 2
  unfold metaRank
  rw [if_pos rfl]

-- ============================================================== the calls

/-- A caller's locks. -/
abbrev Locks := List (Cf × Bytes)

/-- How a call moves its caller's locks. -/
def Locking : (c : StoreCall) → Locks → c.Resp → Locks → Prop
  | .commit, l, r, l' => (r = .ok ∧ l' = []) ∨ (r = .failed ∧ l' = l)
  | .rollback, _, _, l' => l' = []
  | .generateInodeNo, l, r, l' => l' = l ∧ r < plainNos
  | c, l, _, l' => l' = l ∨ ∃ key, c.lockOf = some key ∧ l' = key :: l

/-- The locks do not rank above `key`, and it is the only one of its
rank. -/
def Under (key : Cf × Bytes) (l : Locks) : Prop :=
  ∀ k ∈ l, k = key ∨ lockRank k < lockRank key

/-- An opening that truncates. -/
def Task.Truncates : Task → Prop
  | .openFile _ _ flags _ => hasFlag flags oTrunc = true
  | .openByInode _ flags => hasFlag flags oTrunc = true
  | _ => False

variable {task : Task} {P : α → Locks → Prop} {l l' : Locks}
  {key key' : Cf × Bytes}

/-- The program asks for locks upwards only, unless it truncates. -/
abbrev LocksUp (task : Task) (p : Fs α) (P : α → Locks → Prop)
    (l : Locks) : Prop :=
  p.Safe Locking
    (fun c l => ¬ task.Truncates → ∀ key, c.lockOf = some key → Under key l)
    P l

theorem under_nil (key : Cf × Bytes) : Under key [] := by
  intro k hk
  cases hk

/-- A lock that is granted twice is in order. -/
theorem Under.cons (h : Under key l) : Under key (key :: l) := by
  intro k hk
  rcases List.mem_cons.mp hk with rfl | hk
  · exact Or.inl rfl
  · exact h k hk

/-- A later lock is above all that an earlier one was. -/
theorem Under.trans (h : Under key l)
    (hlt : lockRank key < lockRank key') : Under key' l := by
  intro k hk
  rcases h k hk with rfl | hk
  · exact Or.inr hlt
  · exact Or.inr (Nat.lt_trans hk hlt)

/-- All locks rank below `b`. -/
def Below (b : Nat) (l : Locks) : Prop := ∀ k ∈ l, lockRank k < b

theorem below_nil (b : Nat) : Below b [] := by
  intro k hk
  cases hk

theorem Below.mono {b b' : Nat} (h : Below b l) (hb : b ≤ b') :
    Below b' l := fun k hk => Nat.lt_of_lt_of_le (h k hk) hb

/-- What is below a bound is below a lock from there on. -/
theorem Below.under {b : Nat} (h : Below b l) (hb : b ≤ lockRank key) :
    Under key l := fun k hk => Or.inr (Nat.lt_of_lt_of_le (h k hk) hb)

theorem Under.below (h : Under key l) : Below (lockRank key + 1) l := by
  intro k hk
  rcases h k hk with rfl | hlt
  · exact Nat.lt_succ_self _
  · exact Nat.lt_succ_of_lt hlt

/-- A call that asks for a lock may get it. -/
theorem Locking.ask {c : StoreCall} {r : c.Resp} (hc : c.lockOf = some key)
    (hl : Under key l) (h : Locking c l r l') : Under key l' := by
  have hask (h : l' = l ∨ ∃ k, c.lockOf = some k ∧ l' = k :: l) :
      Under key l' := by
    rcases h with rfl | ⟨k, hk, rfl⟩
    · exact hl
    · cases Option.some.inj (hc.symm.trans hk)
      exact hl.cons
  cases c with
  | getForUpdate cf k | put cf k v | putSeed | merge k v | delete cf k =>
      exact hask h
  | get cf k | beginTransaction opt | commit | rollback | flushWAL
  | seekMeta target | generateInodeNo | time => cases hc

/-- Calls that leave the locks alone. -/
def StoreCall.Lockless : StoreCall → Prop
  | .get _ _ => True
  | .beginTransaction _ => True
  | .flushWAL => True
  | .seekMeta _ => True
  | .generateInodeNo => True
  | .time => True
  | _ => False

/-- Calls that take no lock leave the list as it is. -/
theorem Locking.lockless {c : StoreCall} {r : c.Resp} (hc : c.Lockless)
    (h : Locking c l r l') : l' = l := by
  cases c with
  | generateInodeNo => exact h.1
  | get cf k | beginTransaction opt | flushWAL | seekMeta target | time =>
      rcases h with h | ⟨k, hk, -⟩
      · exact h
      · cases hk
  | getForUpdate cf k | put cf k v | putSeed | merge k v | delete cf k
  | commit | rollback => exact hc.elim

theorem StoreCall.Lockless.lockOf {c : StoreCall} (hc : c.Lockless) :
    c.lockOf = none := by
  cases c with
  | get cf k | beginTransaction opt | flushWAL | seekMeta target
  | generateInodeNo | time => rfl
  | getForUpdate cf k | put cf k v | putSeed | merge k v | delete cf k
  | commit | rollback => exact hc.elim

-- =========================================================== the programs

/-- A part that leaves the locks alone, stepped over. -/
theorem locksUp_lockless {x : Fs β} {f : β → Fs α}
    (hx : x.Calls StoreCall.Lockless) (hf : ∀ b, LocksUp task (f b) P l) :
    LocksUp task (x >>= f) P l := by
  refine Prog.Safe.bind ((Prog.Calls.safe (I := (· = l)) ?_ ?_ hx rfl).mono
    fun b l' h => by rw [h]; exact hf b)
  · intro c l' hc _ _ key hkey
    rw [hc.lockOf] at hkey
    cases hkey
  · exact fun c l₁ r l₂ hc h₁ h => (h.lockless hc).trans h₁

/-- A call that asks for a lock. -/
theorem locksUp_ask {c : StoreCall} {f : c.Resp → Fs α}
    (hc : c.lockOf = some key) (hl : Under key l)
    (hf : ∀ r l', Under key l' → LocksUp task (f r) P l') :
    LocksUp task (Prog.perform c >>= f) P l := by
  refine Prog.safe_perform (fun _ k hk => ?_) fun r l' h =>
    hf r l' (h.ask hc hl)
  cases Option.some.inj (hc.symm.trans hk)
  exact hl

/-- Calls that ask for no lock. -/
def StoreCall.Unlocked : StoreCall → Prop
  | .getForUpdate _ _ => False
  | .put _ _ _ => False
  | .putSeed => False
  | .merge _ _ => False
  | .delete _ _ => False
  | _ => True

theorem StoreCall.Unlocked.lockOf {c : StoreCall} (hc : c.Unlocked) :
    c.lockOf = none := by
  cases c with
  | getForUpdate cf k | put cf k v | putSeed | merge k v | delete cf k =>
      exact hc.elim
  | get cf k | beginTransaction opt | commit | rollback | flushWAL
  | seekMeta target | generateInodeNo | time => rfl

/-- The program asks for no lock. -/
abbrev Unlocked (p : Fs α) : Prop := p.Calls StoreCall.Unlocked

/-- A program without locks asks for them in any order. -/
theorem locksUp_unlocked {p : Fs α} (hp : Unlocked p) :
    LocksUp task p (fun _ _ => True) l :=
  Prog.Calls.safe (I := fun _ => True)
    (fun c l hc _ _ key hkey => by rw [hc.lockOf] at hkey; cases hkey)
    (fun _ _ _ _ _ _ _ => trivial) hp trivial

/-- An opening that truncates may do anything. -/
theorem locksUp_truncates (h : task.Truncates) (p : Fs α) :
    LocksUp task p (fun _ _ => True) l := by
  induction p generalizing l with
  | ret a => exact trivial
  | raise e => exact trivial
  | call c k ih => exact ⟨fun hno => absurd h hno, fun r l' _ => ih r⟩

theorem unlocked_rollback (a : α) :
    Unlocked (Fs.rollback >>= fun _ => (pure a : Fs α)) :=
  (Prog.Calls.perform trivial).bind fun _ => trivial

/-- A commit at the end. -/
theorem unlocked_commit {f : Status → Fs α} (hfailed : Unlocked (f .failed))
    (hok : Unlocked (f .ok)) : Unlocked (Fs.commit >>= f) := by
  refine (Prog.Calls.perform trivial).bind fun s => ?_
  cases s with
  | failed => exact hfailed
  | ok => exact hok

/-- A write that asks for a lock, and an exit if it fails. -/
theorem locksUp_onStatus {x : Fs Status} {f : Status → Fs α}
    (hx : LocksUp task x (fun _ => Under key) l)
    (hfailed : Unlocked (f .failed))
    (hok : ∀ l', Under key l' → LocksUp task (f .ok) (fun _ _ => True) l') :
    LocksUp task (x >>= f) (fun _ _ => True) l := by
  refine Prog.Safe.bind (hx.mono fun s l' hl => ?_)
  cases s with
  | failed => exact locksUp_unlocked hfailed
  | ok => exact hok l' hl

/-- A put asks for its key and has it afterwards, or not. -/
theorem locksUp_put {cf : Cf} {k v : Bytes} (hl : Under (cf, k) l) :
    LocksUp task (Fs.put cf k v) (fun _ => Under (cf, k)) l :=
  locksUp_ask rfl hl fun _ _ h => h

theorem locksUp_putSeed (hl : Under (.metaCf, inodeSeedKey) l) :
    LocksUp task Fs.putSeed (fun _ => Under (.metaCf, inodeSeedKey)) l :=
  locksUp_ask rfl hl fun _ _ h => h

-- ----------------------------------------------------------- the metadata

/-- A create takes the entry, the record and the seed. -/
theorem locksUp_vnCreateFile (parent : Int) (name : FileName)
    (mode uid gid : UInt16) : LocksUp task
      (vnCreateFile parent name mode uid gid) (fun _ _ => True) [] := by
  have hfailed (code : Int) : Unlocked (createFailed code) :=
    unlocked_rollback (-code, none)
  refine Prog.safe_perform (fun _ k hk => by cases hk) fun ino l' h => ?_
  obtain ⟨rfl, hplain⟩ := h
  refine locksUp_lockless (.perform trivial) fun now => ?_
  refine locksUp_lockless (.perform trivial) fun _ => ?_
  refine locksUp_ask rfl (under_nil _) fun status l' hl => ?_
  have hrecord : lockRank (.metaCf, inodeKey
      (newInode ino mode uid gid now).iNo.toNat) = 2 ^ 64 + 1 := by
    rw [newInode_iNo (Nat.lt_trans hplain (by decide)),
      lockRank_record hplain]
  have hname : lockRank (.metaCf, fileKey parent name) < lockRank
      (.metaCf, inodeKey (newInode ino mode uid gid now).iNo.toNat) := by
    rw [lockRank_entry, hrecord]
    exact Nat.lt_succ_self _
  have hseed : lockRank (.metaCf, inodeKey
      (newInode ino mode uid gid now).iNo.toNat)
        < lockRank (.metaCf, inodeSeedKey) := by
    rw [hrecord, lockRank_seed]
    exact Nat.lt_succ_self _
  cases status with
  | ok v => exact locksUp_unlocked (hfailed eexist)
  | notFound | failed =>
      refine locksUp_onStatus (locksUp_put hl) (hfailed eio) fun l' hl => ?_
      refine locksUp_onStatus (locksUp_put (hl.trans hname)) (hfailed eio)
        fun l' hl => ?_
      refine locksUp_onStatus (locksUp_putSeed (hl.trans hseed))
        (hfailed eio) fun l' hl => ?_
      exact locksUp_unlocked (unlocked_commit (hfailed eio) trivial)

/-- The record by itself. -/
theorem locksUp_persistTx (inode : ViveInode) (hl : Below (2 ^ 64) l) :
    LocksUp task (vnPersistInodeTx inode)
      (fun _ => Under (.metaCf, inodeKey inode.iNo.toNat)) l :=
  locksUp_put (hl.under (le_lockRank_meta _))

theorem unlocked_unlinkCommit : Unlocked unlinkCommit :=
  unlocked_commit (unlocked_rollback _) trivial

/-- The deletes of `vn_unlink`. -/
theorem locksUp_deleteExtents (ino : Nat) {n i : Nat} (hi : i + n ≤ 2 ^ 64)
    (hl : Below i l) : LocksUp task (deleteExtents .defaultCf ino n i)
      (fun _ => Below (i + n)) l := by
  induction n generalizing i l with
  | zero => exact hl
  | succ n ih =>
      have hrank : lockRank (.defaultCf, vnExtentKey i ino) = i :=
        lockRank_extent (fun h => by cases h) ino (by omega)
      refine locksUp_ask rfl (hl.under (Nat.le_of_eq hrank.symm))
        fun _ l' hl' => ?_
      have hnext : Below (i + 1) l' := by
        rw [← hrank]
        exact hl'.below
      exact (ih (by omega) hnext).mono fun _ l' h => by
        rwa [Nat.add_right_comm] at h

/-- An unlink takes extents of default_cf by their index and then the
entry, or the record alone if there are links left. -/
theorem locksUp_vnUnlink (parent : Int) (name : FileName) :
    LocksUp task (vnUnlink parent name) (fun _ _ => True) [] := by
  refine locksUp_lockless (calls_vnLookupInodeNo (fun _ _ => trivial) _ _ _)
    fun found => ?_
  obtain ⟨ino, inode⟩ := found
  dsimp only
  split
  case isTrue => exact trivial
  case isFalse =>
    cases inode with
    | none => exact trivial
    | some inode =>
        refine locksUp_lockless (.perform trivial) fun _ => ?_
        split
        · refine Prog.safe_ofExcept fun extents hcount => ?_
          have hn := extentCount_lt hcount
          refine Prog.Safe.bind ((locksUp_deleteExtents _ (by omega)
            (below_nil 0)).mono fun _ l' hl => ?_)
          refine locksUp_ask rfl ((hl.mono (by omega)).under
            (le_lockRank_meta _)) fun _ l' _ => ?_
          exact locksUp_unlocked unlocked_unlinkCommit
        · refine locksUp_onStatus (locksUp_persistTx _ (below_nil _))
            (unlocked_rollback _) fun l' _ => ?_
          exact locksUp_unlocked unlocked_unlinkCommit

theorem unlocked_syncCommit (file : ViveFile) :
    Unlocked (vnFsync.syncCommit file) :=
  unlocked_commit (unlocked_rollback _)
    ((Prog.Calls.perform trivial).bind fun _ => unlocked_rollback _)

/-- A sync takes the record only. -/
theorem locksUp_vnFsync (file : ViveFile) :
    LocksUp task (vnFsync file) (fun _ _ => True) [] := by
  refine locksUp_lockless (.perform trivial) fun _ => ?_
  split
  · refine locksUp_onStatus (locksUp_persistTx _ (below_nil _))
      (unlocked_rollback _) fun l' _ => ?_
    exact locksUp_unlocked (unlocked_syncCommit _)
  · exact locksUp_unlocked (unlocked_syncCommit _)

theorem locksUp_vnPersistInode (inode : ViveInode) :
    LocksUp task (vnPersistInode inode) (fun _ _ => True) [] := by
  refine locksUp_lockless (.perform trivial) fun _ => ?_
  refine locksUp_onStatus (locksUp_persistTx _ (below_nil _))
    (unlocked_rollback _) fun l' _ => ?_
  exact locksUp_unlocked (unlocked_commit (unlocked_rollback _)
    (unlocked_rollback _))

-- ------------------------------------------------------------ the extents

/-- A turn of a write takes the next extent. -/
theorem locksUp_writeSegment (ino E off : Nat) (data : Bytes) {i : Nat}
    (hi : i < 2 ^ 64) (hl : Below i l) :
    LocksUp task (writeSegment ino E i off data) (fun _ => Below (i + 1))
      l := by
  have hrank : lockRank (.dataCf, vnExtentKey i ino) = i :=
    lockRank_extent (fun h => by cases h) ino hi
  have hunder := hl.under (Nat.le_of_eq hrank.symm)
  have hnext {l' : Locks} (h : Under (.dataCf, vnExtentKey i ino) l') :
      Below (i + 1) l' := by
    rw [← hrank]
    exact h.below
  rw [writeSegment]
  split
  · exact locksUp_ask rfl hunder fun _ _ h => hnext h
  · exact locksUp_ask rfl hunder fun _ _ h => hnext h

/-- The loop goes up from extent to extent: its bound moves with the index. -/
theorem locksUp_writeSegments (ino E offset : Nat) (data : Bytes)
    {turns i : Nat} (b : Nat) (hi : i + turns ≤ 2 ^ 64) (hl : Below i l) :
    LocksUp task (writeSegments ino E offset data turns i b)
      (fun _ => Below (i + turns)) l := by
  induction turns generalizing i b l with
  | zero => exact hl
  | succ turns ih =>
      refine Prog.safe_ofExcept fun d _ => ?_
      refine Prog.Safe.bind ((locksUp_writeSegment _ _ _ _ (by omega)
        hl).mono fun _ l' h => ?_)
      refine (ih _ (by omega) h).mono fun _ l' h => ?_
      rwa [Nat.add_right_comm] at h

theorem locksUp_writevSegments (ino E offset : Nat) (iov : List Bytes)
    {turns i : Nat} (b : Nat) (cur : IovCursor) (hi : i + turns ≤ 2 ^ 64)
    (hl : Below i l) :
    LocksUp task (writevSegments ino E offset iov turns i b cur)
      (fun _ => Below (i + turns)) l := by
  induction turns generalizing i b cur l with
  | zero => exact hl
  | succ turns ih =>
      rw [writevSegments]
      split
      · exact trivial
      · refine Prog.safe_ofExcept fun x _ => ?_
        refine Prog.Safe.bind ((locksUp_writeSegment _ _ _ _ (by omega)
          hl).mono fun _ l' h => ?_)
        refine (ih _ _ (by omega) h).mono fun _ l' h => ?_
        rwa [Nat.add_right_comm] at h

/-- The record comes after all extents. -/
theorem locksUp_finishWrite (file : ViveFile) (offset len : Nat)
    (hl : Below (2 ^ 64) l) :
    LocksUp task (finishWrite file offset len) (fun _ _ => True) l := by
  refine locksUp_lockless (.perform trivial) fun now => ?_
  dsimp only
  split
  · refine locksUp_onStatus (locksUp_persistTx _ hl) (unlocked_rollback _)
      fun l' _ => ?_
    exact locksUp_unlocked (unlocked_commit (unlocked_rollback _) trivial)
  · exact locksUp_unlocked (unlocked_commit (unlocked_rollback _) trivial)

theorem asInt64_lt {v : Nat} (h : v < 2 ^ 64) : asInt64 v < 2 ^ 63 := by
  unfold asInt64
  split <;> omega

/-- The extent loop stays within 64 bits, if it turns at all. -/
theorem extentTurns_bound (E offset len : Nat) :
    extentTurns E offset len = 0
      ∨ startExt E offset + extentTurns E offset len ≤ 2 ^ 64 := by
  have hlt : u64 (offset + len + E - 1) / E < 2 ^ 64 := by
    refine Nat.lt_of_le_of_lt (Nat.div_le_self _ _) ?_
    rw [u64]
    exact Nat.mod_lt _ (by decide)
  have hend : endExt E offset len < 2 ^ 63 := asInt64_lt hlt
  unfold extentTurns
  omega

/-- What `vn_write` and `vn_writev` do around their loops. -/
theorem locksUp_around {file : ViveFile} (loop : Nat → Fs Unit)
    {E offset len size : Nat} (hnone : loop 0 = pure ())
    (hloop : startExt E offset + extentTurns E offset size ≤ 2 ^ 64 →
      LocksUp task (loop (extentTurns E offset size))
        (fun _ => Below (startExt E offset + extentTurns E offset size))
        []) :
    LocksUp task (Fs.beginTransaction .dataOpt >>= fun _ =>
      loop (extentTurns E offset size) >>= fun _ =>
        finishWrite file offset len) (fun _ _ => True) [] := by
  refine locksUp_lockless (.perform trivial) fun _ => ?_
  rcases extentTurns_bound E offset size with hzero | hbound
  · rw [hzero, hnone]
    exact locksUp_finishWrite file offset len (below_nil _)
  · refine Prog.Safe.bind ((hloop hbound).mono fun _ l' hl => ?_)
    exact locksUp_finishWrite file offset len (hl.mono hbound)

/-- Both loops start at an index below 2^63 and cannot wrap. -/
theorem locksUp_vnWrite (file : ViveFile) (inBuf : Bytes) (offset : Nat) :
    LocksUp task (vnWrite file inBuf offset) (fun _ _ => True) [] := by
  rw [vnWrite]
  split
  · exact trivial
  · exact locksUp_around
      (fun turns => writeSegments _ _ offset inBuf turns _ 0) rfl
      fun hbound => locksUp_writeSegments _ _ _ _ 0 hbound (below_nil _)

theorem locksUp_vnWritev (file : ViveFile) (iov : List Bytes)
    (offset : Nat) :
    LocksUp task (vnWritev file iov offset) (fun _ _ => True) [] := by
  rw [vnWritev]
  split
  · exact trivial
  · exact locksUp_around
      (fun turns => writevSegments _ _ offset iov turns _ 0 ⟨0, 0⟩)
      rfl fun hbound => locksUp_writevSegments _ _ _ _ 0 ⟨0, 0⟩ hbound
        (below_nil _)

-- ----------------------------------------------------------- the openings

/-- An opening without O_TRUNC takes no lock. -/
theorem locksUp_vnOpenFileByInode {inode : ViveInode} {flags : UInt32}
    (hflag : hasFlag flags oTrunc = false) :
    LocksUp task (vnOpenFileByInode inode flags) (fun _ _ => True) l := by
  rw [vnOpenFileByInode, hflag]
  exact trivial

theorem locksUp_openByNumber {ino : Nat} {flags : UInt32}
    (hflag : hasFlag flags oTrunc = false) :
    LocksUp task (openByNumber ino flags) (fun _ _ => True) l := by
  refine locksUp_lockless (.perform trivial) fun status => ?_
  cases status with
  | notFound => exact trivial
  | ok v | failed =>
      refine Prog.safe_ofExcept fun inode _ => ?_
      exact Prog.Safe.bind ((locksUp_vnOpenFileByInode hflag).mono
        fun _ _ _ => trivial)

/-- With O_CREAT it may create before, which is in order by itself. -/
theorem locksUp_vnOpenFile (parent : Int) (name : FileName)
    {flags : UInt32} (mode : UInt16) (hflag : hasFlag flags oTrunc = false) :
    LocksUp task (vnOpenFile parent name flags mode) (fun _ _ => True)
      [] := by
  refine locksUp_lockless (.perform trivial) fun status => ?_
  cases status with
  | notFound =>
      dsimp only
      split
      · refine Prog.Safe.bind ((locksUp_vnCreateFile _ _ _ _ _).mono
          fun made _ _ => ?_)
        obtain ⟨ino, inode⟩ := made
        dsimp only
        split
        · exact trivial
        · exact locksUp_openByNumber hflag
      · exact trivial
  | ok v | failed =>
      refine Prog.safe_ofExcept fun ino _ => ?_
      exact locksUp_openByNumber hflag

theorem locksUp_answer {p : Fs β} {f : β → α}
    (hp : LocksUp task p (fun _ _ => True) l) :
    LocksUp task (p >>= fun b => (pure (f b) : Fs α)) (fun _ _ => True) l :=
  Prog.Safe.bind (hp.mono fun _ _ _ => trivial)

/-- Every function of the API, on its own. -/
theorem locksUp_prog (task : Task) :
    LocksUp task task.prog (fun _ _ => True) [] := by
  have hreads {t : Task} (h : t.Reads) : Unlocked t.prog :=
    calls_of_reads (fun _ _ => trivial) (fun _ => trivial) trivial h
  by_cases htrunc : task.Truncates
  · exact locksUp_truncates htrunc _
  cases task with
  | lookup _ _ _ | rename _ _ _ _ | listDir _ _ _ | read _ _ _
  | readv _ _ _ => exact locksUp_unlocked (hreads trivial)
  | create parent name mode uid gid =>
      exact locksUp_answer (locksUp_vnCreateFile _ _ _ _ _)
  | unlink parent name => exact locksUp_answer (locksUp_vnUnlink _ _)
  | openFile parent name flags mode =>
      exact locksUp_answer (locksUp_vnOpenFile _ _ _
        (Bool.eq_false_iff.mpr htrunc))
  | openByInode inode flags =>
      exact locksUp_answer (locksUp_vnOpenFileByInode
        (Bool.eq_false_iff.mpr htrunc))
  | write file inBuf offset => exact locksUp_answer (locksUp_vnWrite _ _ _)
  | writev file iov offset => exact locksUp_answer (locksUp_vnWritev _ _ _)
  | fsync file => exact locksUp_answer (locksUp_vnFsync _)
  | close file => exact locksUp_answer (locksUp_answer (locksUp_vnFsync _))
  | persist inode => exact locksUp_answer (locksUp_vnPersistInode _)

-- ============================================================== the table

/-- The callers' own lists and the lock table say the same. -/
def LocksAre (s : Shared)
    (g : Nat → Option (Pool.Client (Option Tx) Task Locks)) : Prop :=
  ∀ i key, s.locks key = some i ↔ ∃ x, g i = some x ∧ key ∈ x.loc

section Table

variable {s s' : Shared} {i : Nat} {tx : Option Tx}
  {g : Nat → Option (Pool.Client (Option Tx) Task Locks)}
  {x : Pool.Client (Option Tx) Task Locks}

/-- A caller's entry replaced: the others' locks have to stay, its own to
be what its new list says. -/
theorem LocksAre.update (h : LocksAre s g)
    {y : Option (Pool.Client (Option Tx) Task Locks)}
    (hothers : ∀ j key, j ≠ i →
      (s'.locks key = some j ↔ s.locks key = some j))
    (hown : ∀ key, s'.locks key = some i ↔ ∃ x, y = some x ∧ key ∈ x.loc) :
    LocksAre s' (Function.update g i y) := by
  intro j key
  by_cases hj : j = i
  · subst hj
    rw [Function.update_self]
    exact hown key
  · rw [Function.update_of_ne hj, hothers j key hj]
    exact h j key

/-- The list of a caller who is there. -/
theorem listed_some : (∃ y, some x = some y ∧ key ∈ y.loc) ↔ key ∈ x.loc := by
  constructor
  · intro h
    obtain ⟨y, hy, hkey⟩ := h
    cases hy
    exact hkey
  · exact fun hkey => ⟨x, rfl, hkey⟩

/-- With no lock taken and no caller there, the two agree. -/
theorem locksAre_none (h : s.locks = fun _ => none) :
    LocksAre s fun _ => none := by
  intro i key
  rw [h]
  constructor
  · intro hkey
    cases hkey
  · intro hx
    obtain ⟨x, hx, -⟩ := hx
    cases hx

/-- A caller's own locks, by its list. -/
theorem LocksAre.own (h : LocksAre s g) (hg : g i = some x)
    (key : Cf × Bytes) : s.locks key = some i ↔ key ∈ x.loc := by
  rw [h i key, hg]
  exact listed_some

/-- A step that leaves the lock table leaves what the callers hold. -/
theorem LocksAre.same (h : LocksAre s g) (hg : g i = some x)
    (hlocks : s'.locks = s.locks) :
    LocksAre s' (Function.update g i (some ⟨x.job, tx, x.loc⟩)) := by
  refine h.update (fun j key _ => by rw [hlocks]) fun key => ?_
  rw [hlocks, h.own hg key, listed_some]

/-- A granted lock goes to the front of its caller's list. -/
theorem LocksAre.lock (h : LocksAre s g) (hg : g i = some x)
    (hgrant : s.Grants i key) : LocksAre (s.lock i key)
      (Function.update g i (some ⟨x.job, tx, key :: x.loc⟩)) := by
  refine h.update (fun j k hj => ?_) fun k => ?_
  · refine ⟨fun hk => ?_, Shared.lock_of_ne hj hgrant⟩
    by_cases hkey : k = key
    · subst hkey
      rw [s.lock_self i k] at hk
      exact absurd (Option.some.inj hk).symm hj
    · exact (Function.update_of_ne hkey ..).symm.trans hk
  · rw [listed_some, List.mem_cons]
    by_cases hkey : k = key
    · subst hkey
      exact ⟨fun _ => Or.inl rfl, fun _ => s.lock_self i k⟩
    · have hsame : (s.lock i key).locks k = s.locks k :=
        Function.update_of_ne hkey ..
      rw [hsame, h.own hg k]
      exact ⟨Or.inr, fun hk => hk.resolve_left hkey⟩

/-- All of a caller's locks given back. -/
theorem LocksAre.release (h : LocksAre s g)
    (hlocks : s'.locks = (s.release i).locks)
    {y : Option (Pool.Client (Option Tx) Task Locks)}
    (hy : ∀ x, y = some x → x.loc = []) :
    LocksAre s' (Function.update g i y) := by
  have hkey (key : Cf × Bytes) : s'.locks key
      = if s.locks key = some i then none else s.locks key := by
    rw [hlocks]
    rfl
  refine h.update (fun j key hj => ?_) fun key => ?_
  · rw [hkey]
    split
    next hown =>
      rw [hown]
      exact ⟨fun hno => (by cases hno),
        fun heq => absurd (Option.some.inj heq).symm hj⟩
    next => exact Iff.rfl
  · rw [hkey]
    constructor
    · intro hown
      split at hown
      next => cases hown
      next hne => exact absurd hown hne
    · intro hlisted
      obtain ⟨x, hx, hmem⟩ := hlisted
      rw [hy x hx] at hmem
      cases hmem

/-- A call that asks for a lock gets it or does not. -/
theorem LocksAre.ask {c : StoreCall} (h : LocksAre s g)
    (hg : g i = some x) (hc : c.lockOf = some key)
    (hs : (s.Grants i key ∧ s' = s.lock i key) ∨ s' = s) :
    ∃ l', (l' = x.loc ∨ ∃ k, c.lockOf = some k ∧ l' = k :: x.loc)
      ∧ LocksAre s' (Function.update g i (some ⟨x.job, tx, l'⟩)) := by
  rcases hs with ⟨hgrant, rfl⟩ | rfl
  · exact ⟨key :: x.loc, Or.inr ⟨key, hc, rfl⟩, h.lock hg hgrant⟩
  · exact ⟨x.loc, Or.inl rfl, h.same hg rfl⟩

theorem grants_of_writes {tx' : Option Tx} {op : WriteOp} {r : Status}
    (h : s.Writes i tx key op r s' tx') :
    (s.Grants i key ∧ s' = s.lock i key) ∨ s' = s := by
  obtain ⟨-, hgrant, hs, -⟩ | ⟨-, hs, -⟩ := h
  · exact Or.inl ⟨hgrant, hs⟩
  · exact Or.inr hs

/-- A call moves its caller's list as it moves the table. -/
theorem LocksAre.call {c : StoreCall} {r : c.Resp} (h : LocksAre s g)
    (hg : g i = some x) (hreply : reply i c s x.priv r s' tx)
    (hok : Proper F s (.call i x.job c r)) : ∃ l', Locking c x.loc r l'
      ∧ LocksAre s' (Function.update g i (some ⟨x.job, tx, l'⟩)) := by
  have hsame (hs : s'.locks = s.locks) :
      LocksAre s' (Function.update g i (some ⟨x.job, tx, x.loc⟩)) :=
    h.same hg hs
  cases c with
  | get cf k | seekMeta target =>
      exact ⟨x.loc, Or.inl rfl, hsame (by rw [hreply.2.1])⟩
  | beginTransaction opt | time =>
      exact ⟨x.loc, Or.inl rfl, hsame (by rw [hreply.1])⟩
  | generateInodeNo =>
      obtain ⟨rfl, -, rfl, -⟩ := hreply
      exact ⟨x.loc, ⟨rfl, hok⟩, hsame rfl⟩
  | flushWAL =>
      refine ⟨x.loc, Or.inl rfl, hsame ?_⟩
      obtain ⟨-, rfl, -⟩ | ⟨-, rfl, -⟩ := hreply <;> rfl
  | getForUpdate cf k =>
      refine h.ask hg rfl ?_
      obtain ⟨hgrant, -, hs, -⟩ | ⟨-, hs, -⟩ := hreply
      · exact Or.inl ⟨hgrant, hs⟩
      · exact Or.inr hs
  | put cf k v | putSeed | merge k v | delete cf k =>
      exact h.ask hg rfl (grants_of_writes hreply)
  | rollback =>
      refine ⟨[], rfl, h.release (by rw [hreply.1]) fun y hy => ?_⟩
      cases hy
      rfl
  | commit =>
      obtain ⟨rfl, rfl, -⟩ | ⟨rfl, rfl, -⟩ := hreply
      · have hlocks : (s.commitTx i x.priv).locks = (s.release i).locks := by
          unfold Shared.commitTx
          split <;> rfl
        refine ⟨[], Or.inl ⟨rfl, rfl⟩, h.release hlocks fun y hy => ?_⟩
        cases hy
        rfl
      · exact ⟨x.loc, Or.inr ⟨rfl, rfl⟩, hsame rfl⟩

end Table

/-- The invariant: the lists are what the lock table says, and whoever asks
for a lock, unless to truncate, has only lower ones. -/
theorem locks_modular (F : Lasting A) (codec : SuperblockCodec) :
    Pool.Modular (service codec) (Proper F) (fun _ => ([] : Locks))
      (fun _ => Locking)
      (fun task c l => ¬ task.Truncates →
        ∀ key, c.lockOf = some key → Under key l)
      (fun _ _ _ => True) (fun _ s g => LocksAre s g) (fun _ _ => True) where
  refl _ := trivial
  safe s i task _ := locksUp_prog task
  spawn := by
    intro tr s g i task inv hg _
    refine inv.update (fun _ _ _ => Iff.rfl) fun key => ?_
    rw [inv i key, hg, listed_some]
    constructor
    · intro hx
      obtain ⟨x, hx, -⟩ := hx
      cases hx
    · intro hkey
      cases hkey
  call := by
    intro tr s g i x c r s' tx inv hg _ hreply hok
    exact ⟨trivial, inv.call hg hreply hok⟩
  ret := by
    intro tr s g i x a inv _ _ _
    exact ⟨trivial, inv.release rfl fun y hy => (by cases hy)⟩
  abort := by
    intro tr s g i x inv _ _
    exact ⟨trivial, inv.release rfl fun y hy => (by cases hy)⟩
  reset := by
    intro tr s g s' _ hreset _
    obtain ⟨db, clock, ctx, w, -, -, rfl⟩ := hreset
    exact ⟨trivial, locksAre_none rfl⟩

-- ============================================================ who waits

/-- Who has which lock, and which one each caller is about to ask for. -/
def Service.lockTable (n : Service) : LockOrder.Table Nat (Cf × Bytes) where
  holder := n.shared.locks
  asks i key := ∃ t c k, n.threads i = some t ∧ t.rest = .call c k
    ∧ c.lockOf = some key

section Waiting

variable {tr : List ServiceLabel} {n : Service}

/-- It holds in every state of every run. -/
theorem locks_of_run (hrun : ServiceRun codec (Proper F) tr n) :
    ∃ g, LocksAre n.shared g ∧ Pool.Describes (fun _ => Locking)
      (fun (task : Task) c l => ¬ task.Truncates →
        ∀ key, c.lockOf = some key → Under key l)
      (fun _ _ _ => True) g n.threads := by
  refine Pool.run_modular (locks_modular F codec) (fun n hn => ?_) hrun
  refine ⟨hn.1, locksAre_none ?_⟩
  obtain ⟨-, clock, r, w, -, db, clock', ctx, w', -, -, hshared⟩ := hn
  rw [hshared]

/-- Callers who wait for each other: the line of them ends at one who does
not wait, or at an opening that truncates. -/
theorem waiting_ends_or_truncates (hrun : ServiceRun codec (Proper F) tr n)
    {i j : Nat} (hwait : n.lockTable.Waits i j) :
    ∃ k t, n.threads k = some t
      ∧ Relation.TransGen n.lockTable.Waits i k
      ∧ (t.job.Truncates ∨ ∀ l, ¬ n.lockTable.Waits k l) := by
  obtain ⟨g, inv, hd⟩ := locks_of_run hrun
  obtain ⟨k, ⟨key, hkey⟩, hchain, hend⟩ :=
    LockOrder.Table.waiting_ends lockRank_lt hwait
  obtain ⟨x, hg, -⟩ := (inv k key).mp hkey
  rcases hd k with ⟨-, hnone⟩ | ⟨t, l, ht, hgt, hsafe⟩
  · rw [hnone] at hg
    cases hg
  · refine ⟨k, t, ht, hchain, ?_⟩
    rcases hend with hno | hfree
    · left
      by_contra htrunc
      apply hno
      intro key₁ key₂ m hholds hasks hother hne
      obtain ⟨t', c, rest, ht', hrest, hlock⟩ := hasks
      cases ht.symm.trans ht'
      rw [hrest] at hsafe
      have hmem : key₁ ∈ l := (inv.own hgt key₁).mp hholds
      rcases hsafe.1 htrunc key₂ hlock key₁ hmem with rfl | hlt
      · exact absurd (Option.some.inj (hother.symm.trans hholds)) hne
      · exact hlt
    · exact Or.inr hfree

/-- Two callers persist the root's inode, and the second waits. -/
theorem run_twoPersists : ∃ tr n, ServiceRun plainCodec (Proper attributes)
    tr n ∧ n.lockTable.Waits 1 0 := by
  have hgiven : (Task.persist (rootInode 0)).Given attributes
      (freshService plainCodec).shared.db := by
    refine ⟨fun n hn => ?_, fun f hf => ?_⟩
    · cases hn
      exact Or.inl ⟨rfl, rfl⟩
    · cases hf
  have hspawn : ServiceRun plainCodec (Proper attributes)
      [.spawn 0 (.persist (rootInode 0))] _ :=
    .step (.init freshService_fresh) (.spawn rfl hgiven)
  have hbegin := hspawn.step
    (.call (i := 0) (r := ()) rfl rfl ⟨rfl, rfl⟩ trivial)
  have hput := hbegin.step (.call (i := 0) rfl rfl
    (Or.inl ⟨rfl, Or.inl rfl, rfl, rfl⟩) trivial)
  have hspawn' := hput.step (.spawn (i := 1) rfl hgiven)
  have hbegin' := hspawn'.step
    (.call (i := 1) (r := ()) rfl rfl ⟨rfl, rfl⟩ trivial)
  refine ⟨_, _, hbegin', by decide,
    (.metaCf, inodeKey (rootInode 0).iNo.toNat),
    ⟨_, _, _, rfl, rfl, rfl⟩, ?_⟩
  unfold Service.lockTable
  dsimp only
  exact Shared.lock_self ..

theorem waiting_ends_or_truncates_twoPersists : ∃ tr n k t,
    ServiceRun plainCodec (Proper attributes) tr n
      ∧ n.lockTable.Waits 1 0 ∧ n.threads k = some t
      ∧ Relation.TransGen n.lockTable.Waits 1 k
      ∧ (t.job.Truncates ∨ ∀ l, ¬ n.lockTable.Waits k l) := by
  obtain ⟨tr, n, hrun, hwait⟩ := run_twoPersists
  obtain ⟨k, t, ht, hchain, hend⟩ := waiting_ends_or_truncates hrun hwait
  exact ⟨tr, n, k, t, hrun, hwait, ht, hchain, hend⟩

end Waiting

-- ============================================================= a circle

/-- An opening that truncates asks for the record's lock, and with it for
the first extent's. -/
theorem truncation_text {inode : ViveInode} {flags : UInt32} {extents : Nat}
    (hflag : hasFlag flags oTrunc = true)
    (hcount : extentCount inode = .ok (extents + 1)) :
    ∃ k₁ k₂, (Task.openByInode inode flags).prog
        = .call (.beginTransaction .metaOpt) k₁
      ∧ k₁ () = .call (.getForUpdate .metaCf (inodeKey inode.iNo.toNat)) k₂
      ∧ ∀ v, ∃ k₃, k₂ (.ok v)
        = .call (.delete .dataCf (vnExtentKey 0 inode.iNo.toNat)) k₃ := by
  rw [Task.prog, vnOpenFileByInode, if_pos hflag]
  refine ⟨_, _, rfl, rfl, fun v => ?_⟩
  dsimp only
  rw [hcount]
  exact ⟨_, rfl⟩

/-- The one call of a write inside the first extent is a merge. -/
theorem writeSegments_first {ino E offset : Nat} {data : Bytes}
    (hE : E ≤ 2 ^ 32) (hin : offset + data.length < E) :
    writeSegments ino E offset data 1 0 0 = (do
      let _ ← Fs.merge (vnExtentKey 0 ino) (vnExtentHead offset ++ data)
      return ()) := by
  have hmod : (offset + 0) % E = offset := Nat.mod_eq_of_lt (by omega)
  have hlen : segmentLen E offset data.length 0 = data.length := by
    rw [segmentLen, segmentStart, hmod, sub64_of_le (by omega) (by omega),
      sub64_of_le (by omega) (by omega)]
    omega
  have hbuf : readBuf data 0 data.length = .ok data := by
    rw [readBuf, if_pos (by omega), List.drop_zero, List.take_length]
  rw [writeSegments, hlen, hbuf, segmentStart, hmod]
  show (writeSegment ino E 0 offset data >>= fun _ => pure ()) = _
  rw [writeSegment, if_pos (by omega)]
  rfl

/-- A write in the first extent that makes the file grow asks for the
extent's lock, and with it for the record's. -/
theorem growing_text {file : ViveFile} {data : Bytes} {offset : Nat}
    (hpos : 0 < data.length)
    (hin : offset + data.length < file.inode.iExtentSize.toNat)
    (hgrow : file.inode.iSize.toNat < offset + data.length) :
    ∃ v k₁ k₂ k₃, (Task.write file data offset).prog
        = .call (.beginTransaction .dataOpt) k₁
      ∧ k₁ () = .call (.merge (vnExtentKey 0 file.iNo.toNat) v) k₂
      ∧ k₂ .ok = .call .time k₃
      ∧ ∀ now, ∃ u k₄, k₃ now
        = .call (.put .metaCf (inodeKey file.inode.iNo.toNat) u) k₄ := by
  have hE := Nat.le_of_lt file.inode.iExtentSize.toNat_lt
  have hstart : startExt file.inode.iExtentSize.toNat offset = 0 :=
    Nat.div_eq_of_lt (by omega)
  have hend : u64 (offset + data.length) = offset + data.length :=
    u64_of_lt (by omega)
  rw [Task.prog, vnWrite, if_neg (by omega), extentTurns_first hE hpos hin,
    hstart, writeSegments_first hE hin]
  refine ⟨_, _, _, _, rfl, rfl, rfl, fun now => ?_⟩
  dsimp only [Prog.bind]
  rw [hend, if_pos hgrow]
  exact ⟨_, _, rfl⟩

section Circle

variable {tr : List ServiceLabel} {n : Service}

/-- Where nobody is, two callers can come who wait for each other: one
opens a file that has an extent, by its inode and to truncate it, and the
other makes it grow within its first extent. -/
theorem truncation_can_circle (hrun : ServiceRun codec (Proper F) tr n)
    (hthreads : n.threads = fun _ => none)
    (hlocks : n.shared.locks = fun _ => none) {inode : ViveInode}
    {flags : UInt32} {extents : Nat} {v : Bytes}
    (hopen : (Task.openByInode inode flags).Given F n.shared.db)
    (hflag : hasFlag flags oTrunc = true)
    (hrec : n.shared.db.metaCf[inodeKey inode.iNo.toNat]? = some v)
    (hcount : extentCount inode = .ok (extents + 1)) {file : ViveFile}
    {data : Bytes} {offset : Nat}
    (hwrite : (Task.write file data offset).Given F n.shared.db)
    (hsame : file.inode.iNo = inode.iNo) (hpos : 0 < data.length)
    (hin : offset + data.length < file.inode.iExtentSize.toNat)
    (hgrow : file.inode.iSize.toNat < offset + data.length) :
    ∃ tr' n', ServiceRun codec (Proper F) (tr' ++ tr) n'
      ∧ n'.lockTable.Waits 0 1 ∧ n'.lockTable.Waits 1 0 := by
  obtain ⟨s, th⟩ := n
  obtain rfl : th = fun _ => none := hthreads
  obtain ⟨k₁, k₂, htext, hbegin, hlocked⟩ := truncation_text hflag hcount
  obtain ⟨k₃, hdelete⟩ := hlocked v
  obtain ⟨u, l₁, l₂, l₃, htext', hbegin', hmerge, htimed⟩ :=
    growing_text hpos hin hgrow
  obtain ⟨u', l₄, hput⟩ := htimed 0
  have hno : file.iNo = inode.iNo := (hwrite.file file rfl).trans hsame
  rw [hno] at hbegin'
  rw [hsame] at hput
  have hne : ((.dataCf, vnExtentKey 0 inode.iNo.toNat) : Cf × Bytes)
      ≠ (.metaCf, inodeKey inode.iNo.toNat) := by
    intro h
    cases h
  -- the opening has the record
  have hreply : reply 0 (.getForUpdate .metaCf (inodeKey inode.iNo.toNat)) s
      (some ⟨.metaOpt, []⟩) (.ok v)
      (s.lock 0 (.metaCf, inodeKey inode.iNo.toNat))
      (some ⟨.metaOpt, []⟩) :=
    Or.inl ⟨Or.inl (congrFun hlocks _), congrArg Except.ok hrec, rfl, rfl⟩
  have hrun₁ := hrun.step (.spawn (i := 0) rfl hopen)
  have hrun₂ := hrun₁.step (.call (i := 0) (r := ()) rfl htext ⟨rfl, rfl⟩
    trivial)
  have hrun₃ := hrun₂.step (.call (i := 0) rfl hbegin hreply trivial)
  -- the write has the extent
  have hreply' : reply 1 (.merge (vnExtentKey 0 inode.iNo.toNat) u)
      (s.lock 0 (.metaCf, inodeKey inode.iNo.toNat)) (some ⟨.dataOpt, []⟩)
      .ok ((s.lock 0 (.metaCf, inodeKey inode.iNo.toNat)).lock 1
        (.dataCf, vnExtentKey 0 inode.iNo.toNat))
      (txPush (.merge (vnExtentKey 0 inode.iNo.toNat) u)
        (some ⟨.dataOpt, []⟩)) := by
    refine Or.inl ⟨rfl, Or.inl ?_, rfl, rfl⟩
    exact (Function.update_of_ne hne (some 0) s.locks).trans
      (congrFun hlocks _)
  have hrun₄ := hrun₃.step (.spawn (i := 1) rfl hwrite)
  have hrun₅ := hrun₄.step (.call (i := 1) (r := ()) rfl htext' ⟨rfl, rfl⟩
    trivial)
  have hrun₆ := hrun₅.step (.call (i := 1) rfl hbegin' hreply' trivial)
  have hrun₇ := hrun₆.step (.call (i := 1) (r := 0) rfl hmerge ⟨rfl, rfl⟩
    trivial)
  refine ⟨[_, _, _, _, _, _, _], _, hrun₇, ⟨by decide, _,
    ⟨_, _, _, rfl, hdelete, rfl⟩, ?_⟩, ⟨by decide, _,
    ⟨_, _, _, rfl, hput, rfl⟩, ?_⟩⟩
  · exact Function.update_self ..
  · exact (Function.update_of_ne hne.symm (some 1) (s.lock 0 _).locks).trans
      (Shared.lock_self ..)

/-- So it can happen to the first file. -/
theorem truncation_circles_firstFile : ∃ tr n,
    ServiceRun plainCodec (Proper attributes) tr n
      ∧ n.lockTable.Waits 0 1 ∧ n.lockTable.Waits 1 0 := by
  obtain ⟨tr, n, hrun, hidle⟩ := run_firstTask attributes plainCodec
  have hrec : n.shared.db.metaCf[inodeKey vnFirstUserIno]?
      = some firstInode.toBytes := by
    rw [hidle.agrees.db]
    exact oneFileSys_record 0 0
  have hE : firstInode.iExtentSize.toNat = 65536 :=
    newInode_iExtentSize vnFirstUserIno 0 0 0 0
  have hhanded (size : UInt64) (refs : UInt32) : Handed attributes n.shared.db
      { firstInode with iSize := size, refCnt := refs } :=
    Or.inr ⟨fileNo_first, hE.trans extentSize_eq.symm, firstInode, hrec, rfl⟩
  have hopen : (Task.openByInode { firstInode with iSize := 1 }
      oTrunc).Given attributes n.shared.db := by
    refine ⟨fun n hn => ?_, fun f hf => ?_⟩
    · cases hn
      exact hhanded 1 _
    · cases hf
  have hwrite : (Task.write (newFile firstInode 0) [7] 0).Given attributes
      n.shared.db := by
    refine ⟨fun n hn => ?_, fun f hf => ?_⟩
    · cases hn
      exact hhanded 0 _
    · cases hf
      rfl
  have hcount : extentCount { firstInode with iSize := 1 } = .ok (0 + 1) := by
    rw [extentCount_ok (by rw [hE]; decide) (by decide), hE]
    rfl
  have hin : 0 + ([7] : Bytes).length
      < (newFile firstInode 0).inode.iExtentSize.toNat := by
    rw [show (newFile firstInode 0).inode.iExtentSize.toNat = 65536 from hE]
    decide
  obtain ⟨tr', n', hrun', hwaits⟩ := truncation_can_circle hrun hidle.threads
    hidle.locks hopen (by decide) hrec hcount hwrite rfl (by decide) hin
    (by decide)
  exact ⟨_, n', hrun', hwaits⟩

end Circle

end ViveNas
