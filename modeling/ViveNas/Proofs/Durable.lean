/-
What `vn_fsync` makes durable, and what it says about it.

Commits with `data_opt` are visible at once and survive a crash only
from the next `FlushWAL` on. A sync whose record, commit and flush
succeed leaves everything that is committed, the handle's inode
included, in the durable store (`fsync_survives`). Its return code says
nothing: it is -EIO on every path.

# When the code is honest

`acknowledged` is the file the calls on a handle have promised, and
`FsyncHonest` asks that a sync returns 0 exactly when its calls succeed,
and then with that file safe. As it never returns 0, it is honest
exactly if one of them failed (`fsync_honest_iff_fails`).
-/
import ViveNas.Proofs.Clean
import ViveNas.Proofs.Extent
import ViveNas.Lib.FlatFile

namespace ViveNas

variable {codec : SuperblockCodec} {w w' : World} {file : ViveFile}

-- ======================================================= what is durable

/-- The world after a crash: what was durable, and no transaction. -/
def World.crashed (w : World) : World := { w with db := w.durable, tx := none }

/-- The record's `Put`, if the handle is dirty, the commit and the flush of
a sync all succeed. -/
def SyncSucceeds (w : World) (file : ViveFile) : Prop :=
  ∀ i < syncCalls file + 1, w.outcomeAt i = true

/-- A sync whose calls succeed: after a crash the store is what was
committed, and the handle's inode is on record if the sync wrote it or it
was there before. -/
theorem fsync_survives (hnum : file.inode.iNo = file.iNo)
    (hok : SyncSucceeds w file) :
    ∃ w', (vnFsync file).exec w
        = .ok ((-eio, { file with dirty := false }), w')
      ∧ w'.crashed.db = w.db.applyBatch (syncOps file)
      ∧ (Recorded w'.crashed file ↔ file.dirty = true ∨ Recorded w file) := by
  obtain ⟨w', hrun, hdb, hflush⟩ := exec_vnFsync_committed file
    fun i hi => hok i (by omega)
  have hcrash : w'.crashed.db = w.db.applyBatch (syncOps file) :=
    (hflush (hok _ (by omega))).trans hdb
  refine ⟨w', hrun, hcrash, ?_⟩
  by_cases hdirty : file.dirty = true
  · refine iff_of_true (.of_toBytes hnum ?_) (Or.inl hdirty)
    rw [hcrash, syncOps, if_pos hdirty, Store.applyBatch_singleton,
      Store.applyOp_meta, WriteOp.onMeta, if_pos rfl]
  · rw [syncOps, if_neg hdirty, Store.applyBatch_nil] at hcrash
    constructor
    · exact fun hrec => Or.inr (hrec.of_db hcrash.symm)
    · intro h
      exact (h.resolve_left hdirty).of_db hcrash

-- ============================================================ the number

/-- A write leaves the handle on its number, whether it is acknowledged
or not. -/
theorem write_number {file' : ViveFile} {data : Bytes} {offset : Nat}
    {r : Int} (hlen : data.length < 2 ^ 64)
    (hx : (vnWrite file data offset).exec w = .ok ((r, file'), w'))
    (hnum : file.inode.iNo = file.iNo) : file'.inode.iNo = file'.iNo := by
  by_cases hE : file.inode.iExtentSize.toNat = 0
  · rw [vnWrite, if_pos hE] at hx
    cases hx
  · have hpos : 0 < file.inode.iExtentSize.toNat := by omega
    obtain hok | hno := outcomes_cases w
      (closingCalls file (u64 (offset + data.length)))
      (extentTurns file.inode.iExtentSize.toNat offset data.length)
    · obtain ⟨k, hrun⟩ := exec_vnWrite_acked file hpos hlen hok
      rw [hrun] at hx
      cases hx
      exact wroteFile_number hnum _ _
    · obtain ⟨k, hrun⟩ := exec_vnWrite_refused file hpos hlen hno
      rw [hrun] at hx
      cases hx
      exact wroteFile_number hnum _ _

theorem touched_number (hnum : file.inode.iNo = file.iNo) (now : UInt64) :
    (touched file now).inode.iNo = (touched file now).iNo := by
  rw [touched]
  split <;> exact hnum

/-- So does every call. -/
theorem call_number {file' : ViveFile} {c : HandleCall} {r : Int}
    (hsized : c.Sized) (hx : (c.run file).exec w = .ok ((r, file'), w'))
    (hnum : file.inode.iNo = file.iNo) : file'.inode.iNo = file'.iNo := by
  cases c with
  | write data offset => exact write_number (hsized _ _ rfl) hx hnum
  | writev iov offset =>
      have hlen := hsized _ _ rfl
      exact write_number hlen (vnWrite_of_vnWritev hlen hx) hnum
  | read buf offset =>
      obtain ⟨⟨n, out, file₁⟩, w₁, hread, hret⟩ := exec_bind_inv hx
      cases hret
      obtain ⟨-, now, rfl⟩ := read_returns hread
      exact touched_number hnum now
  | readv iov offset =>
      obtain ⟨⟨n, out, file₁⟩, w₁, hread, hret⟩ := exec_bind_inv hx
      cases hret
      obtain ⟨-, now, rfl⟩ := readv_returns hread
      exact touched_number hnum now
  | fsync =>
      obtain hok | hno := outcomes_cases w (syncCalls file) 0
      · simp only [Nat.zero_add] at hok
        obtain ⟨w₁, hrun, -⟩ := exec_vnFsync_committed file hok
        cases hrun.symm.trans hx
        exact hnum
      · simp only [Nat.zero_add] at hno
        obtain ⟨k, hrun⟩ := exec_vnFsync_refused file hno
        cases hrun.symm.trans hx
        exact hnum

/-- ... and every run of calls, with any outcomes. -/
theorem run_number {s₀ s : World × ViveFile} (hopen : OpenedBy codec s₀)
    {tr : List (HandleCall × Int)}
    (hrun : Trace.Run (· = s₀) (HandleStep fun _ _ _ => True) tr s) :
    s.2.inode.iNo = s.2.iNo := by
  refine hrun.invariant (I := fun _ s => s.2.inode.iNo = s.2.iNo) ?_ ?_
  · rintro s rfl
    exact hopen.inv.number
  · rintro tr s l s' hnum hstep
    cases hstep with
    | call script clock hsized hok hcall =>
        exact call_number hsized hcall hnum

-- ===================================================== what is promised

/-- The bytes of a file when its handle was opened. -/
def openedBytes (s : World × ViveFile) : Bytes :=
  (List.range s.2.inode.iSize.toNat).map (content s.1.db s.2.iNo.toNat)

/-- The file that the acknowledged writes of a run, newest first, make of
`f`. -/
def acknowledged (f : Bytes) : List (HandleCall × Int) → Bytes
  | [] => f
  | (c, r) :: tr =>
      match c.written with
      | some (data, offset) =>
          if r = data.length then
            FlatFile.write 0 (acknowledged f tr) offset data
          else acknowledged f tr
      | none => acknowledged f tr

/-- The store holds the file `f` under the number `ino`: its record has the
size, and its extents the bytes. -/
def HoldsFile (s : Store) (ino : Nat) (f : Bytes) : Prop :=
  (∃ v n, s.metaCf[inodeKey ino]? = some v ∧ deserializeInode v = .ok n
      ∧ n.iSize.toNat = f.length)
    ∧ ∀ x < f.length, content s ino x = FlatFile.byte 0 f x

/-- A sync returns 0 exactly when its calls succeed, and whenever it
returns 0 the file `f` is there after a crash. -/
def FsyncHonest (w : World) (file : ViveFile) (f : Bytes) : Prop :=
  ∃ r file' w', (vnFsync file).exec w = .ok ((r, file'), w')
    ∧ (r = 0 ↔ SyncSucceeds w file)
    ∧ (r = 0 → HoldsFile w'.crashed.db file.iNo.toNat f)

/-- Every sync returns -EIO. -/
theorem exec_vnFsync_eio (w : World) (file : ViveFile) :
    ∃ file' w', (vnFsync file).exec w = .ok ((-eio, file'), w') := by
  obtain hok | hno := outcomes_cases w (syncCalls file) 0
  · simp only [Nat.zero_add] at hok
    obtain ⟨w', hrun, -⟩ := exec_vnFsync_committed file hok
    exact ⟨_, w', hrun⟩
  · simp only [Nat.zero_add] at hno
    obtain ⟨k, hrun⟩ := exec_vnFsync_refused file hno
    exact ⟨_, _, hrun⟩

theorem fsyncHonest_iff (w : World) (file : ViveFile) (f : Bytes) :
    FsyncHonest w file f ↔ ¬ SyncSucceeds w file := by
  obtain ⟨file', w', hrun⟩ := exec_vnFsync_eio w file
  have hne : (-eio : Int) ≠ 0 := by decide
  constructor
  · rintro ⟨r, file₁, w₁, hx, hcode, -⟩ hok
    rw [hrun] at hx
    cases hx
    exact hne (hcode.mpr hok)
  · intro hno
    exact ⟨_, file', w', hrun, iff_of_false hne hno, fun h => absurd h hne⟩

/-- After every run on one handle, with any outcomes: a sync keeps its
promise exactly when one of its calls fails. When they all succeed it
returns -EIO, and yet a crash leaves all that was committed, with the
handle's inode on record if it was dirty or was on record before. -/
theorem fsync_honest_iff_fails {s₀ : World × ViveFile}
    (hopen : OpenedBy codec s₀) {tr : List (HandleCall × Int)}
    (hrun : Trace.Run (· = s₀) (HandleStep fun _ _ _ => True) tr (w, file))
    (script : List Bool) (clock : UInt64) :
    (FsyncHonest (w.at script clock) file
        (acknowledged (openedBytes s₀) tr)
      ↔ ¬ SyncSucceeds (w.at script clock) file)
    ∧ (SyncSucceeds (w.at script clock) file →
      ∃ w', (vnFsync file).exec (w.at script clock)
          = .ok ((-eio, { file with dirty := false }), w')
        ∧ w'.crashed.db = w.db.applyBatch (syncOps file)
        ∧ (Recorded w'.crashed file
          ↔ file.dirty = true ∨ Recorded w file)) :=
  ⟨fsyncHonest_iff _ _ _, fsync_survives (run_number hopen hrun)⟩

/-- The one-byte write of the file and then a sync. If the sync's commit
fails it says so; if nothing fails it says so too, and a crash leaves the
file's inode with its byte counted. -/
theorem fsync_honest_iff_fails_oneByte :
    ∃ w, Trace.Run (· = ((oneFileSys plainCodec 0 0).world, oneFile))
        (HandleStep fun _ _ _ => True) [(.write [7] 0, 1)]
        (w, wroteFile oneFile 0 1)
      ∧ FsyncHonest (w.at [false] 0) (wroteFile oneFile 0 1)
        (acknowledged (openedBytes ((oneFileSys plainCodec 0 0).world,
          oneFile)) [(.write [7] 0, 1)])
      ∧ ∃ w', (vnFsync (wroteFile oneFile 0 1)).exec (w.at [] 0)
          = .ok ((-eio, { wroteFile oneFile 0 1 with dirty := false }), w')
        ∧ Recorded w'.crashed (wroteFile oneFile 0 1) := by
  obtain ⟨w, hstep⟩ := step_oneByte
  have hclean : (wroteFile oneFile 0 1).dirty = false := by decide
  have hrec := (run_handleInv (.step (.init openedBy_oneFile) hstep)).clean
    hclean
  have hrun : Trace.Run (· = ((oneFileSys plainCodec 0 0).world, oneFile))
      (HandleStep fun _ _ _ => True) [(.write [7] 0, 1)]
      (w, wroteFile oneFile 0 1) := by
    cases hstep with
    | call script clock hsized hok hcall =>
        exact .step (.init rfl) (.call script clock hsized trivial hcall)
  have hout : (w.at [false] 0).outcomeAt 0 ≠ true := Bool.false_ne_true
  have hfails := fsync_honest_iff_fails openedBy_oneFile hrun [false] 0
  have hworks := fsync_honest_iff_fails openedBy_oneFile hrun [] 0
  obtain ⟨w', hexec, -, hcrash⟩ := hworks.2 fun _ _ => rfl
  exact ⟨w, hrun,
    hfails.1.mpr fun hok => hout (hok 0 (Nat.succ_pos _)),
    w', hexec, hcrash.mpr (Or.inr hrec)⟩

/-- A sync of a file just opened, all of whose calls succeed, fails. -/
theorem fsync_not_honest :
    ¬ FsyncHonest ((oneFileSys plainCodec 0 0).world.at [] 0) oneFile
      (openedBytes ((oneFileSys plainCodec 0 0).world, oneFile)) := by
  rw [fsyncHonest_iff, not_not]
  exact fun _ _ => rfl

end ViveNas
