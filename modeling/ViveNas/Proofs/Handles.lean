/-
Several handles on one file, and the size their calls commit.

Every `vn_open_file` deserialises an inode of its own. A write compares
its end with the size in that private copy, and writes the whole private
record back when it is past it; a sync writes it back whenever anything
marked it dirty. So a handle that has not seen the file grow can put a
smaller size back.

# The condition

`Careful` is what a step has to meet for the committed size to stay the
greatest end of all writes: a write that grows its handle's copy must
end no lower than the committed size, and a sync that writes the copy
back must not have a smaller one. `session_keeps_size` says that runs of
careful steps keep the size, and that a step that is not careful loses
it at once.
-/
import ViveNas.Proofs.System
import ViveNas.Proofs.Batches

namespace ViveNas

open LittleEndian

variable {codec : SuperblockCodec} {s s' : Sys} {parent : Int}
  {name : FileName} {ino m : Nat} {call : Call} {r : Int}

-- ======================================================== the file's size

/-- The size in an inode's committed record. -/
def committedSize (db : Store) (ino : Nat) : Option Nat :=
  db.metaCf[inodeKey ino]?.map fun v => (ViveInode.ofBytes v).iSize.toNat

theorem committedSize_record {db : Store} {n : ViveInode}
    (h : db.metaCf[inodeKey ino]? = some n.toBytes) :
    committedSize db ino = some n.iSize.toNat := by
  rw [committedSize, h, Option.map_some, ViveInode.ofBytes_toBytes]

/-- The name leads to the inode `ino`, whose record gives it `size`. -/
structure FileAt (db : Store) (parent : Int) (name : FileName)
    (ino size : Nat) : Prop where
  entry : ∃ v, db.metaCf[fileKey parent name]? = some v
    ∧ leNat (v.take 8) = ino
  record : ∃ n : ViveInode, db.metaCf[inodeKey ino]? = some n.toBytes
    ∧ n.iNo.toNat = ino ∧ n.iSize.toNat = size

theorem FileAt.committedSize {db : Store} (h : FileAt db parent name ino m) :
    committedSize db ino = some m := by
  obtain ⟨n, hn, -, hsize⟩ := h.record
  rw [committedSize_record hn, hsize]

/-- The record replaced by another one of the same number. -/
theorem FileAt.update {db db' : Store} (h : FileAt db parent name ino m)
    {n : ViveInode} (hn : n.iNo.toNat = ino)
    (hmeta : ∀ key : Bytes, db'.metaCf[key]?
      = if inodeKey ino = key then some n.toBytes else db.metaCf[key]?) :
    FileAt db' parent name ino n.iSize.toNat where
  entry := by
    obtain ⟨v, hv, hnum⟩ := h.entry
    rw [hmeta]
    split
    · exact ⟨n.toBytes, rfl, by rw [n.leNat_take_toBytes, hn]⟩
    · exact ⟨v, hv, hnum⟩
  record := ⟨n, by rw [hmeta, if_pos rfl], hn, rfl⟩

theorem FileAt.congr {db db' : Store} (h : FileAt db parent name ino m)
    (hmeta : ∀ key : Bytes, db'.metaCf[key]? = db.metaCf[key]?) :
    FileAt db' parent name ino m where
  entry := by
    obtain ⟨v, hv, hnum⟩ := h.entry
    exact ⟨v, by rw [hmeta, hv], hnum⟩
  record := by
    obtain ⟨n, hn, hrest⟩ := h.record
    exact ⟨n, by rw [hmeta, hn], hrest⟩

-- ============================================================== sessions

/-- The calls of a session on one file: opens by its name that do not
truncate, and anything on a handle. -/
def SessionCall (parent : Int) (name : FileName) : Call → Prop
  | .openFile _ _ p n flags _ =>
      p = parent ∧ n = name ∧ hasFlag flags oTrunc = false
  | .write _ data offset => offset + data.length < 2 ^ 63
  | .writev _ iov offset => offset + iov.flatten.length < 2 ^ 63
  | .read .. => True
  | .fsync _ => True
  | .close _ => True
  | _ => False

/-- The size there should be after a call that returned `r`, if it was
`m` before: a write that returned its length reaches its end. -/
def Call.expected (call : Call) (m : Nat) (r : Int) : Nat :=
  match call.writes with
  | some (_, data, offset) =>
      if r = data.length then max m (offset + data.length) else m
  | none => m

/-- The states of a session that started at `s₀` with size `m₀`, each
with the size there should be. -/
inductive SessionRun (codec : SuperblockCodec) (parent : Int)
    (name : FileName) (ok : Sys → Call → Prop) (s₀ : Sys) (m₀ : Nat) :
    Sys → Nat → Prop where
  | start : SessionRun codec parent name ok s₀ m₀ s₀ m₀
  | tick {s : Sys} {m : Nat} (clock : UInt64)
      (h : SessionRun codec parent name ok s₀ m₀ s m) :
      SessionRun codec parent name ok s₀ m₀
        { s with world := { s.world with clock := clock } } m
  | call {s s' : Sys} {m : Nat} {call : Call} {r : Int}
      (h : SessionRun codec parent name ok s₀ m₀ s m)
      (hcall : SessionCall parent name call) (hok : ok s call)
      (hstep : s.step codec call = .ok (r, s')) :
      SessionRun codec parent name ok s₀ m₀ s' (call.expected m r)

/-- A step that loses no size, told from the state before it. -/
structure Careful (ino : Nat) (s : Sys) (call : Call) : Prop where
  write : ∀ size fd addr f data offset,
    committedSize s.world.db ino = some size →
    s.file fd = some (addr, f) → call.writes = some (fd, data, offset) →
    f.inode.iSize.toNat < offset + data.length →
    size ≤ offset + data.length
  sync : ∀ size fd addr f,
    committedSize s.world.db ino = some size →
    s.file fd = some (addr, f) → call = .fsync fd ∨ call = .close fd →
    f.dirty = true → size ≤ f.inode.iSize.toNat

-- =========================================================== the invariant

/-- What a session keeps: every handle is on the file, with a copy of the
size that is not ahead of it. -/
structure SessionInv (codec : SuperblockCodec) (parent : Int)
    (name : FileName) (ino : Nat) (s : Sys) (m : Nat) : Prop where
  base : ∃ c, SysInv codec s c
  mounted : s.mounted = true
  file : FileAt s.world.db parent name ino m
  handles : ∀ fd ref, s.files fd = some ref → ∃ n,
    s.inodes ref.addr = some n ∧ n.iNo.toNat = ino ∧ n.iSize.toNat ≤ m

/-- Session calls promise what callers have to. -/
theorem SessionCall.admissible (h : SessionCall parent name call) :
    Admissible s call := by
  refine ⟨fun fd data offset hcall => ?_, fun addr inode old hcall => ?_⟩
  · cases call with
    | write fd' data' offset' => cases hcall; exact h
    | writev fd' iov offset' => cases hcall; exact h
    | _ => cases hcall
  · subst hcall
    exact h.elim

namespace SessionInv

variable (inv : SessionInv codec parent name ino s m)
include inv

theorem handle {fd addr : Nat} {f : ViveFile}
    (hfile : s.file fd = some (addr, f)) :
    f.inode.iNo.toNat = ino ∧ f.inode.iSize.toNat ≤ m := by
  obtain ⟨href, hinode⟩ := file_eq_some hfile
  obtain ⟨n, hn, hnum, hsize⟩ := inv.handles fd _ href
  obtain rfl := Option.some.inj (hinode.symm.trans hn)
  exact ⟨hnum, hsize⟩

/-- A handle stored, with everything else's size still within bounds. -/
theorem setFile {fd addr m' : Nat} {f : ViveFile} {w : World}
    (hno : f.inode.iNo.toNat = ino) (hsize : f.inode.iSize.toNat ≤ m')
    (hm : m ≤ m') :
    ∀ fd' ref, ({ s with world := w }.setFile fd addr f).files fd'
      = some ref → ∃ n,
        ({ s with world := w }.setFile fd addr f).inodes ref.addr = some n
          ∧ n.iNo.toNat = ino ∧ n.iSize.toNat ≤ m' := by
  intro fd' ref href
  have hinode : ∀ a, (∃ n, s.inodes a = some n ∧ n.iNo.toNat = ino
      ∧ n.iSize.toNat ≤ m) ∨ a = addr →
      ∃ n, Function.update s.inodes addr (some f.inode) a = some n
        ∧ n.iNo.toNat = ino ∧ n.iSize.toNat ≤ m' := by
    intro a ha
    by_cases heq : a = addr
    · exact ⟨f.inode, by rw [heq, Function.update_self], hno, hsize⟩
    · obtain ⟨n, hn, hnum, hle⟩ := ha.resolve_right heq
      exact ⟨n, by rw [Function.update_of_ne heq, hn], hnum, by omega⟩
  simp only [Sys.setFile, Function.update_apply] at href
  split at href
  · obtain rfl := Option.some.inj href
    exact hinode addr (Or.inr rfl)
  · exact hinode ref.addr (Or.inl (inv.handles fd' ref href))

end SessionInv

-- ============================================================== the steps

theorem careful_write_iff {fd addr offset : Nat} {data : Bytes}
    {f : ViveFile} (hcs : committedSize s.world.db ino = some m)
    (hfile : s.file fd = some (addr, f))
    (hcall : call.writes = some (fd, data, offset)) :
    Careful ino s call ↔ (f.inode.iSize.toNat < offset + data.length →
      m ≤ offset + data.length) := by
  constructor
  · intro h
    exact h.write m fd addr f data offset hcs hfile hcall
  · intro h
    refine ⟨?_, ?_⟩
    · intro size fd' addr' f' data' offset' hcs' hfile' hcall'
      cases hcall.symm.trans hcall'
      cases hfile.symm.trans hfile'
      cases hcs.symm.trans hcs'
      exact h
    · rintro size fd' addr' f' - - (rfl | rfl)
      · cases hcall
      · cases hcall

theorem careful_sync_iff {fd addr : Nat} {f : ViveFile}
    (hcs : committedSize s.world.db ino = some m)
    (hfile : s.file fd = some (addr, f))
    (hcall : call = .fsync fd ∨ call = .close fd) :
    Careful ino s call ↔ (f.dirty = true → m ≤ f.inode.iSize.toNat) := by
  constructor
  · intro h
    exact h.sync m fd addr f hcs hfile hcall
  · intro h
    refine ⟨?_, ?_⟩
    · intro size fd' addr' f' data' offset' _ _ hcall'
      rcases hcall with rfl | rfl
      · cases hcall'
      · cases hcall'
    · intro size fd' addr' f' hcs' hfile' hcall'
      have hfd : fd' = fd := by
        rcases hcall with rfl | rfl <;> rcases hcall' with h' | h' <;> cases h'
          <;> rfl
      subst hfd
      cases hfile.symm.trans hfile'
      cases hcs.symm.trans hcs'
      exact h

/-- A call that neither writes nor syncs is careful. -/
theorem careful_of_quiet (hwrites : call.writes = none)
    (hsync : ∀ fd, call ≠ .fsync fd ∧ call ≠ .close fd) :
    Careful ino s call := by
  refine ⟨?_, ?_⟩
  · intro size fd addr f data offset _ _ hcall
    rw [hwrites] at hcall
    cases hcall
  · rintro size fd addr f - - (hcall | hcall)
    · exact absurd hcall (hsync fd).1
    · exact absurd hcall (hsync fd).2

section Steps

variable (inv : SessionInv codec parent name ino s m)
include inv

/-- A step that writes a handle's record back if `P` holds: the size is
kept exactly when that record has the size there should be. -/
theorem session_record {P : Prop} [Decidable P] {n : ViveInode} {m' : Nat}
    (hbase : ∃ c, SysInv codec s' c) (hm : s'.mounted = true)
    (hn : n.iNo.toNat = ino) (hsame : ¬ P → m' = m)
    (hmeta : ∀ key : Bytes, s'.world.db.metaCf[key]?
      = if P ∧ inodeKey ino = key then some n.toBytes
        else s.world.db.metaCf[key]?)
    (hhandles : ∀ fd ref, s'.files fd = some ref → ∃ n,
      s'.inodes ref.addr = some n ∧ n.iNo.toNat = ino
        ∧ n.iSize.toNat ≤ m') :
    (committedSize s'.world.db ino = some m' ↔ (P → n.iSize.toNat = m'))
      ∧ ((P → n.iSize.toNat = m') →
        SessionInv codec parent name ino s' m') := by
  by_cases hP : P
  · have hfile := inv.file.update hn fun key => by
      rw [hmeta key]
      simp only [hP, true_and]
    refine ⟨?_, ?_⟩
    · rw [hfile.committedSize, Option.some.injEq]
      exact ⟨fun h _ => h, fun h => h hP⟩
    · intro hsize
      exact ⟨hbase, hm, hsize hP ▸ hfile, hhandles⟩
  · have hfile : FileAt s'.world.db parent name ino m' := by
      rw [hsame hP]
      exact inv.file.congr fun key => by
        rw [hmeta key, if_neg fun h => hP h.1]
    exact ⟨iff_of_true hfile.committedSize fun h => absurd h hP,
      fun _ => ⟨hbase, hm, hfile, hhandles⟩⟩

/-- A step that leaves the store alone. -/
theorem session_quiet (hbase : ∃ c, SysInv codec s' c)
    (hm : s'.mounted = true) (hwrites : call.writes = none)
    (hsync : ∀ fd, call ≠ .fsync fd ∧ call ≠ .close fd)
    (hdb : s'.world.db = s.world.db)
    (hhandles : ∀ fd ref, s'.files fd = some ref → ∃ n,
      s'.inodes ref.addr = some n ∧ n.iNo.toNat = ino ∧ n.iSize.toNat ≤ m) :
    (committedSize s'.world.db ino = some (call.expected m r)
      ↔ Careful ino s call)
    ∧ (Careful ino s call →
      SessionInv codec parent name ino s' (call.expected m r)) := by
  have hexp : call.expected m r = m := by
    rw [Call.expected, hwrites]
  have hfile : FileAt s'.world.db parent name ino m := hdb ▸ inv.file
  rw [hexp]
  exact ⟨iff_of_true hfile.committedSize (careful_of_quiet hwrites hsync),
    fun _ => ⟨hbase, hm, hfile, hhandles⟩⟩

/-- A write of either kind. -/
theorem session_wrote {fd addr offset : Nat} {data : Bytes} {f : ViveFile}
    (hcall : call.writes = some (fd, data, offset))
    (hfile : s.file fd = some (addr, f))
    (hend : offset + data.length < 2 ^ 63)
    (hbase : ∃ c, SysInv codec ({ s with
      world := s.world.committed .dataOpt
        (writeOps f.iNo.toNat f.inode.iExtentSize.toNat offset data
          ++ growOps f s.world.clock (offset + data.length)) }.setFile fd addr
      (wroteFile f s.world.clock (offset + data.length))) c) :
    (committedSize (s.world.db.applyBatch
          (writeOps f.iNo.toNat f.inode.iExtentSize.toNat offset data
            ++ growOps f s.world.clock (offset + data.length))) ino
        = some (call.expected m data.length)
      ↔ Careful ino s call)
    ∧ (Careful ino s call → SessionInv codec parent name ino
      ({ s with
        world := s.world.committed .dataOpt
          (writeOps f.iNo.toNat f.inode.iExtentSize.toNat offset data
            ++ growOps f s.world.clock (offset + data.length)) }.setFile fd
        addr (wroteFile f s.world.clock (offset + data.length)))
      (call.expected m data.length)) := by
  obtain ⟨hno, hle⟩ := inv.handle hfile
  have hexp : call.expected m data.length = max m (offset + data.length) := by
    rw [Call.expected, hcall]
    exact if_pos rfl
  have hsize := wroteFile_iSize f s.world.clock
    (show offset + data.length < 2 ^ 64 by omega)
  have hnum : (wroteFile f s.world.clock
      (offset + data.length)).inode.iNo.toNat = ino := by
    rw [wroteFile_iNo, hno]
  rw [hexp, careful_write_iff inv.file.committedSize hfile hcall]
  have hkept := session_record inv hbase inv.mounted hnum
    (fun hsmall => show max m (offset + data.length) = m by omega)
    (fun key => hno ▸ writeOps_meta s.world.db f s.world.clock _ key)
    (inv.setFile hnum (by omega) (by omega))
  rw [hsize] at hkept
  have hcond : (f.inode.iSize.toNat < offset + data.length →
        max f.inode.iSize.toNat (offset + data.length)
          = max m (offset + data.length))
      ↔ (f.inode.iSize.toNat < offset + data.length →
        m ≤ offset + data.length) := by omega
  rw [hcond] at hkept
  exact hkept

/-- A sync, which stores the handle back or drops it. -/
theorem session_synced {fd addr : Nat} {f : ViveFile}
    (hcall : call = .fsync fd ∨ call = .close fd)
    (hfile : s.file fd = some (addr, f)) (hbase : ∃ c, SysInv codec s' c)
    (hm : s'.mounted = true)
    (hdb : s'.world.db = s.world.db.applyBatch (syncOps f))
    (hhandles : ∀ fd ref, s'.files fd = some ref → ∃ n,
      s'.inodes ref.addr = some n ∧ n.iNo.toNat = ino ∧ n.iSize.toNat ≤ m) :
    (committedSize s'.world.db ino = some (call.expected m r)
      ↔ Careful ino s call)
    ∧ (Careful ino s call →
      SessionInv codec parent name ino s' (call.expected m r)) := by
  obtain ⟨hno, hle⟩ := inv.handle hfile
  have hexp : call.expected m r = m := by
    rcases hcall with rfl | rfl <;> rfl
  rw [hexp, careful_sync_iff inv.file.committedSize hfile hcall]
  have hkept := session_record inv hbase hm hno (fun _ => rfl)
    (fun key => by
      rw [hdb]
      exact hno ▸ syncOps_meta s.world.db f key)
    hhandles
  have hcond : (f.dirty = true → f.inode.iSize.toNat = m)
      ↔ (f.dirty = true → m ≤ f.inode.iSize.toNat) :=
    forall_congr' fun _ => ⟨fun h => by omega, fun h => by omega⟩
  rw [hcond] at hkept
  exact hkept

end Steps

/-- One call of a session: it keeps the size if and only if it is
careful. -/
theorem session_step (inv : SessionInv codec parent name ino s m)
    (hcall : SessionCall parent name call)
    (hstep : s.step codec call = .ok (r, s')) :
    (committedSize s'.world.db ino = some (call.expected m r)
      ↔ Careful ino s call)
    ∧ (Careful ino s call →
      SessionInv codec parent name ino s' (call.expected m r)) := by
  obtain ⟨c, base⟩ := inv.base
  have hadm := hcall.admissible (s := s)
  have heff := step_effect base hadm hstep
  obtain ⟨c', -, base'⟩ := heff.inv base hadm
  cases heff with
  | openNull hw hnone =>
      refine session_quiet inv ⟨c', base'⟩ inv.mounted rfl
        (fun fd => ⟨nofun, nofun⟩) ?_ inv.handles
      rcases hw with rfl | rfl <;> rfl
  | openPlain hfree hflag hkey hrec =>
      obtain ⟨rfl, rfl, -⟩ := hcall
      obtain ⟨v, hv, hvnum⟩ := inv.file.entry
      obtain ⟨n, hn, hnno, hnsize⟩ := inv.file.record
      cases hv.symm.trans hkey
      rw [hvnum, hn, Option.some.injEq] at hrec
      obtain rfl := ViveInode.toBytes_inj hrec
      exact session_quiet inv ⟨c', base'⟩ inv.mounted rfl
        (fun fd => ⟨nofun, nofun⟩) rfl
        (inv.setFile hnno (Nat.le_of_eq hnsize) (Nat.le_refl m))
  | openTrunc hfree hflag hkey hrec hown hcount =>
      obtain ⟨-, -, hplain⟩ := hcall
      rw [hplain] at hflag
      cases hflag
  | openCreate hflag hkey hcreate hopen =>
      obtain ⟨rfl, rfl, -⟩ := hcall
      obtain ⟨v, hv, -⟩ := inv.file.entry
      cases hv.symm.trans hkey
  | wrote hwrites hfile hE hend =>
      exact session_wrote inv hwrites hfile hend ⟨c', base'⟩
  | didRead hfile =>
      obtain ⟨hno, hle⟩ := inv.handle hfile
      refine session_quiet inv ⟨c', base'⟩ inv.mounted rfl
        (fun fd => ⟨nofun, nofun⟩) rfl (inv.setFile ?_ ?_ (Nat.le_refl m))
      · rw [touched_inode_iNo, hno]
      · rw [touched_iSize]
        exact hle
  | synced hfile =>
      obtain ⟨hno, hle⟩ := inv.handle hfile
      exact session_synced inv (Or.inl rfl) hfile ⟨c', base'⟩ inv.mounted rfl
        (inv.setFile hno hle (Nat.le_refl m))
  | closed hfile =>
      refine session_synced inv (Or.inr rfl) hfile ⟨c', base'⟩ inv.mounted rfl
        ?_
      exact Partial.forall_update (fun ref href => by cases href)
        fun fd _ ref href => inv.handles fd ref href
  | _ => exact hcall.elim

-- ============================================================== the runs

theorem session_start (hreach : Reachable codec Admissible s)
    (hm : s.mounted = true) (hnone : ∀ fd, s.files fd = none)
    (hfile : FileAt s.world.db parent name ino m) :
    SessionInv codec parent name ino s m where
  base := reachable_inv (fun _ _ h => h) hreach
  mounted := hm
  file := hfile
  handles fd ref href := by
    rw [hnone fd] at href
    cases href

theorem session_run {s₀ : Sys} {m₀ : Nat}
    (inv : SessionInv codec parent name ino s₀ m₀)
    (hrun : SessionRun codec parent name (Careful ino) s₀ m₀ s m) :
    SessionInv codec parent name ino s m := by
  induction hrun with
  | start => exact inv
  | tick clock _ ih =>
      obtain ⟨c, base⟩ := ih.base
      exact ⟨⟨c, base.withWorld base.calm base.shape base.seed base.counter⟩,
        ih.mounted, ih.file, ih.handles⟩
  | call _ hcall hok hstep ih => exact (session_step ih hcall hstep).2 hok

/-- A session of careful steps keeps the committed size at the greatest
end of its writes, and its next step keeps it if and only if that step is
careful too. -/
theorem session_keeps_size {s₀ : Sys} {m₀ : Nat}
    (hreach : Reachable codec Admissible s₀) (hm : s₀.mounted = true)
    (hnone : ∀ fd, s₀.files fd = none)
    (hfile : FileAt s₀.world.db parent name ino m₀)
    (hrun : SessionRun codec parent name (Careful ino) s₀ m₀ s m) :
    committedSize s.world.db ino = some m
      ∧ ∀ call r s', SessionCall parent name call →
        s.step codec call = .ok (r, s') →
        (committedSize s'.world.db ino = some (call.expected m r)
          ↔ Careful ino s call) := by
  have inv := session_run (session_start hreach hm hnone hfile) hrun
  exact ⟨inv.file.committedSize, fun call r s' hcall hstep =>
    (session_step inv hcall hstep).1⟩

-- ============================================================ an example

section Example

variable (clock : UInt64) (addr : Nat)

theorem oneFileSys_fileAt :
    FileAt (oneFileSys codec clock addr).world.db vnRootIno nameA
      vnFirstUserIno 0 where
  entry := ⟨_, oneFileSys_entry clock addr, by decide⟩
  record := ⟨_, oneFileSys_record clock addr, newInode_iNo (by decide) ..,
    rfl⟩

/-- A handle on that file, as each open makes it. -/
def emptyHandle (clock : UInt64) : ViveFile :=
  opened (newInode vnFirstUserIno 0 0 0 clock) 0

theorem emptyHandle_extentSize :
    (emptyHandle clock).inode.iExtentSize.toNat = vivefsExtentSize := by
  show (UInt32.ofNat vivefsExtentSize).toNat = vivefsExtentSize
  rw [extentSize_eq]
  decide

variable {clock addr}

/-- An open of that file while nothing has been written to it. -/
theorem step_open_first (hcalm : Calm s.world) (hm : s.mounted = true)
    (hdb : s.world.db = (oneFileSys codec clock addr).world.db)
    (fd addr' : Nat) (haddr : s.inodes addr' = none)
    (hfd : s.files fd = none) :
    s.step codec (.openFile fd addr' vnRootIno nameA 0 0)
      = .ok (12, s.setFile fd addr' (emptyHandle clock)) := by
  have hnum : leNat ((leBytes 8 vnFirstUserIno).take 8) = vnFirstUserIno := by
    decide
  have hkey : s.world.db.metaCf[fileKey vnRootIno nameA]?
      = some (leBytes 8 vnFirstUserIno) := by
    rw [hdb]
    exact oneFileSys_entry clock addr
  have hrec : s.world.db.metaCf[inodeKey
      (leNat ((leBytes 8 vnFirstUserIno).take 8))]?
        = some (newInode vnFirstUserIno 0 0 0 clock).toBytes := by
    rw [hdb, hnum]
    exact oneFileSys_record clock addr
  exact step_openFile hcalm hm haddr hfd 0 hkey (by decide)
    (show hasFlag 0 oTrunc = false by decide) hrec

end Example

/-- The state once two handles are open on the file, as 0 and 1. -/
def twoHandles : Sys :=
  ((oneFileSys plainCodec 0 0).setFile 0 1 (emptyHandle 0)).setFile 1 2
    (emptyHandle 0)

/-- Opening them, in a session of any kind that admits the two opens. -/
theorem run_twoHandles {ok : Sys → Call → Prop}
    (hok : ∀ s fd addr, ok s (.openFile fd addr vnRootIno nameA 0 0)) :
    SessionRun plainCodec vnRootIno nameA ok (oneFileSys plainCodec 0 0) 0
      twoHandles 0 := by
  have hcalm : Calm (oneFileSys plainCodec 0 0).world := rfl
  have hcall : ∀ fd addr, SessionCall vnRootIno nameA
      (.openFile fd addr vnRootIno nameA 0 0) := fun _ _ => ⟨rfl, rfl, rfl⟩
  have hfirst := step_open_first (s := oneFileSys plainCodec 0 0) hcalm rfl
    rfl 0 1 rfl rfl
  have hsecond := step_open_first
    (s := (oneFileSys plainCodec 0 0).setFile 0 1 (emptyHandle 0)) hcalm rfl
    rfl 1 2 rfl rfl
  exact .call (.call .start (hcall 0 1) (hok _ 0 1) hfirst) (hcall 1 2)
    (hok _ 1 2) hsecond

/-- The state once handle 1 has written two bytes. -/
def grownByOne : Sys :=
  { twoHandles with
    world := twoHandles.world.committed .dataOpt
      (writeOps 12 (emptyHandle 0).inode.iExtentSize.toNat 0 [1, 2]
        ++ growOps (emptyHandle 0) 0 2) }.setFile 1 2
    (wroteFile (emptyHandle 0) 0 2)

/-- That write, in a session of any kind that admits it. -/
theorem run_grownByOne {ok : Sys → Call → Prop}
    (hok : ∀ s fd addr, ok s (.openFile fd addr vnRootIno nameA 0 0))
    (hwrite : ok twoHandles (.write 1 [1, 2] 0)) :
    SessionRun plainCodec vnRootIno nameA ok (oneFileSys plainCodec 0 0) 0
      grownByOne 2 := by
  have hcalm : Calm twoHandles.world := rfl
  have hfile : twoHandles.file 1 = some (2, emptyHandle 0) := rfl
  have hcall : SessionCall vnRootIno nameA (.write 1 [1, 2] 0) :=
    show 0 + 2 < 2 ^ 63 by decide
  have hstep : twoHandles.step plainCodec (.write 1 [1, 2] 0)
      = .ok (2, grownByOne) :=
    step_write hcalm rfl hfile
      (by rw [emptyHandle_extentSize]; exact extentSize_pos) [1, 2] 0
      (by decide)
  exact .call (run_twoHandles hok) hcall hwrite hstep

/-- A careful session: two opens, and a write that grows the file. -/
theorem session_keeps_size_grownByOne :
    SessionRun plainCodec vnRootIno nameA (Careful vnFirstUserIno)
        (oneFileSys plainCodec 0 0) 0 grownByOne 2
      ∧ committedSize grownByOne.world.db vnFirstUserIno = some 2 := by
  have hreach : Reachable plainCodec Admissible (oneFileSys plainCodec 0 0) :=
    ⟨_, run_oneFileSys 0 (fun _ => Call.Plain.admissible trivial)
      (fun _ => Call.Plain.admissible trivial)⟩
  have hat : FileAt twoHandles.world.db vnRootIno nameA vnFirstUserIno 0 :=
    oneFileSys_fileAt 0 0
  have hfile : twoHandles.file 1 = some (2, emptyHandle 0) := rfl
  have hwrites : (Call.write 1 [1, 2] 0).writes = some (1, [1, 2], 0) := rfl
  have hrun : SessionRun plainCodec vnRootIno nameA (Careful vnFirstUserIno)
      (oneFileSys plainCodec 0 0) 0 grownByOne 2 :=
    run_grownByOne
      (fun s fd addr => careful_of_quiet rfl fun fd => ⟨nofun, nofun⟩)
      ((careful_write_iff hat.committedSize hfile hwrites).mpr
        fun _ => Nat.zero_le _)
  exact ⟨hrun, (session_keeps_size hreach rfl (fun _ => rfl) hat hrun).1⟩

/-- Handle 0, which was open all along, then writes one byte: the size
two is lost. -/
theorem session_loses_size :
    ∃ s, SessionRun plainCodec vnRootIno nameA (fun _ _ => True)
        (oneFileSys plainCodec 0 0) 0 s 2
      ∧ committedSize s.world.db vnFirstUserIno = some 1 := by
  have hcalm : Calm grownByOne.world := rfl
  have hfile : grownByOne.file 0 = some (1, emptyHandle 0) := rfl
  have hcall : SessionCall vnRootIno nameA (.write 0 [3] 0) :=
    show 0 + 1 < 2 ^ 63 by decide
  have hstep : grownByOne.step plainCodec (.write 0 [3] 0) = _ :=
    step_write hcalm rfl hfile
      (by rw [emptyHandle_extentSize]; exact extentSize_pos) [3] 0 (by decide)
  refine ⟨_, .call (run_grownByOne (fun _ _ _ => trivial) trivial) hcall
    trivial hstep, ?_⟩
  have hrec : (grownByOne.world.db.applyBatch
      (writeOps 12 (emptyHandle 0).inode.iExtentSize.toNat 0 [3]
        ++ growOps (emptyHandle 0) 0 1)).metaCf[inodeKey vnFirstUserIno]?
      = _ := writeOps_meta _ (emptyHandle 0) 0 1 _
  rw [if_pos ⟨by decide, by decide⟩] at hrec
  exact committedSize_record hrec

end ViveNas
