/-
Runs of the whole file system: what one call can do, and what holds in
every state a run reaches.

# Effects

`Effect` says once what each call does to the store, the inodes and the
handles; `step_effect` shows that it says everything. The invariants of
this file and of the later ones are read off it, constructor by
constructor.

# The invariant

`SysInv` is the one all of them rest on: every number in the store, in
memory or in an extent's key is below the committed seed.

Its lemmas go by what happens to the memory: a handle is opened
(`SysInv.openOn`), an inode is put back or recorded, a file is written
or closed. `Effect.inv` names the one that applies to each effect.
-/
import ViveNas.System
import ViveNas.Proofs.Shape

namespace ViveNas

open LittleEndian

variable {codec : SuperblockCodec} {s s' : Sys} {c : Nat} {call : Call}
  {r : Int}

-- ============================================================ admissible

/-- A write's arguments, for either kind of write. -/
def Call.writes : Call → Option (Nat × Bytes × Nat)
  | .write fd data offset => some (fd, data, offset)
  | .writev fd iov offset => some (fd, iov.flatten, offset)
  | _ => none

/-- What callers promise: a write ends within `off_t`, and an inode is
persisted under the number and with the link count it came with. -/
def Admissible (s : Sys) (call : Call) : Prop :=
  (∀ fd data offset, call.writes = some (fd, data, offset) →
    offset + data.length < 2 ^ 63)
  ∧ ∀ addr inode old, call = .persist addr inode →
    s.inodes addr = some old →
    inode.iNo = old.iNo ∧ inode.iLinksCount = old.iLinksCount

/-- Neither a write nor a persist: nothing to promise. -/
def Call.Plain : Call → Prop
  | .write .. | .writev .. | .persist .. => False
  | _ => True

theorem Call.Plain.admissible (h : call.Plain) : Admissible s call := by
  constructor
  · intro fd data offset hwrites
    cases call <;> first | exact h.elim | cases hwrites
  · rintro addr inode old rfl
    exact h.elim

-- =============================================================== effects

/-- The name is not there, or its record is lost. -/
def Unnamed (db : Store) (parent : Int) (name : FileName) : Prop :=
  db.metaCf[fileKey parent name]? = none
    ∨ ∃ v, db.metaCf[fileKey parent name]? = some v ∧ db.metaCf[v]? = none

/-- There is no record to open under the number. -/
def NoRecord (db : Store) (ino : Nat) : Prop :=
  db.metaCf[inodeKey ino]? = none
    ∨ ∃ n : ViveInode, db.metaCf[inodeKey ino]? = some n.toBytes
      ∧ db.metaCf[inodeKey n.iNo.toNat]? = none

/-- An open by name finds nothing to open. -/
def NothingToOpen (db : Store) (parent : Int) (name : FileName)
    (flags : UInt32) : Prop :=
  (db.metaCf[fileKey parent name]? = none ∧ hasFlag flags oCreat = false)
    ∨ ∃ v, db.metaCf[fileKey parent name]? = some v
      ∧ NoRecord db (leNat (v.take 8))

/-- What one call does. -/
inductive Effect : Sys → Call → Int → Sys → Prop where
  | createTaken {s : Sys} {addr : Option Nat} {parent : Int}
      {name : FileName} {mode uid gid : UInt16} {v : Bytes}
      (hm : s.mounted = true)
      (hseed : s.world.inodeSeed + 1 < 2 ^ 63)
      (hkey : s.world.db.metaCf[fileKey parent name]? = some v) :
      Effect s (.create addr parent name mode uid gid) (-eexist)
        { s with world := s.world.drawn.idle }
  | createFresh {s : Sys} {addr : Option Nat} {parent : Int}
      {name : FileName} {mode uid gid : UInt16}
      (hm : s.mounted = true) (hfree : s.freeAddr addr = true)
      (hseed : s.world.inodeSeed + 1 < 2 ^ 63)
      (hkey : s.world.db.metaCf[fileKey parent name]? = none) :
      Effect s (.create addr parent name mode uid gid) s.world.inodeSeed
        ({ s with
          world := s.world.drawn.committed .metaOpt
            (createOps parent name s.world.inodeSeed
              (newInode s.world.inodeSeed mode uid gid
                s.world.clock)) }.setInode addr
          (some (newInode s.world.inodeSeed mode uid gid s.world.clock)))
  | lookupNone {s : Sys} {addr : Nat} {parent : Int} {name : FileName}
      (hkey : Unnamed s.world.db parent name) :
      Effect s (.lookup addr parent name) (-1) s
  | lookupFound {s : Sys} {addr : Nat} {parent : Int} {name : FileName}
      {v : Bytes} {n : ViveInode} (hfree : s.freeAddr (some addr) = true)
      (hkey : s.world.db.metaCf[fileKey parent name]? = some v)
      (hrec : s.world.db.metaCf[v]? = some n.toBytes) :
      Effect s (.lookup addr parent name) (leNat (v.take 8))
        (s.setInode (some addr) (some { n with refCnt := 1 }))
  | openNull {s : Sys} {fd addr : Nat} {parent : Int} {name : FileName}
      {flags : UInt32} {mode : UInt16} {w : World}
      (hw : w = s.world ∨ w = s.world.idle)
      (hnone : NothingToOpen s.world.db parent name flags) :
      Effect s (.openFile fd addr parent name flags mode) (-1)
        { s with world := w }
  | openPlain {s : Sys} {fd addr : Nat} {parent : Int} {name : FileName}
      {flags : UInt32} {mode : UInt16} {v : Bytes} {n : ViveInode}
      (hfree : s.freeAddr (some addr) = true)
      (hflag : hasFlag flags oTrunc = false)
      (hkey : s.world.db.metaCf[fileKey parent name]? = some v)
      (hrec : s.world.db.metaCf[inodeKey (leNat (v.take 8))]?
        = some n.toBytes) :
      Effect s (.openFile fd addr parent name flags mode) n.iNo.toNat
        (s.setFile fd addr (opened n flags))
  | openTrunc {s : Sys} {fd addr : Nat} {parent : Int} {name : FileName}
      {flags : UInt32} {mode : UInt16} {v u : Bytes} {n : ViveInode}
      {extents : Nat} (hfree : s.freeAddr (some addr) = true)
      (hflag : hasFlag flags oTrunc = true)
      (hkey : s.world.db.metaCf[fileKey parent name]? = some v)
      (hrec : s.world.db.metaCf[inodeKey (leNat (v.take 8))]?
        = some n.toBytes)
      (hown : s.world.db.metaCf[inodeKey n.iNo.toNat]? = some u)
      (hcount : extentCount n = .ok extents) :
      Effect s (.openFile fd addr parent name flags mode) n.iNo.toNat
        ({ s with
          world := s.world.committed .metaOpt
            (truncOps { n with refCnt := 1 } extents) }.setFile fd addr
          (opened { n with iSize := 0 } flags))
  | openCreate {s s₁ s' : Sys} {fd addr : Nat} {parent : Int}
      {name : FileName} {flags : UInt32} {mode : UInt16} {ino r : Int}
      (hflag : hasFlag flags oCreat = true)
      (hkey : s.world.db.metaCf[fileKey parent name]? = none)
      (hcreate : Effect s (.create none parent name mode 0 0) ino s₁)
      (hopen : Effect s₁ (.openFile fd addr parent name flags mode) r s') :
      Effect s (.openFile fd addr parent name flags mode) r s'
  | byInodePlain {s : Sys} {fd addr : Nat} {flags : UInt32}
      {inode : ViveInode} (hinode : s.inodes addr = some inode)
      (hflag : hasFlag flags oTrunc = false) :
      Effect s (.openByInode fd addr flags) inode.iNo.toNat
        (s.setFile fd addr (newFile inode flags))
  | byInodeTrunc {s : Sys} {fd addr : Nat} {flags : UInt32} {v : Bytes}
      {inode : ViveInode} {extents : Nat}
      (hinode : s.inodes addr = some inode)
      (hflag : hasFlag flags oTrunc = true)
      (hrec : s.world.db.metaCf[inodeKey inode.iNo.toNat]? = some v)
      (hcount : extentCount inode = .ok extents) :
      Effect s (.openByInode fd addr flags) inode.iNo.toNat
        ({ s with
          world := s.world.committed .metaOpt
            (truncOps inode extents) }.setFile fd addr
          (newFile { inode with iSize := 0 } flags))
  | byInodeLost {s : Sys} {fd addr : Nat} {flags : UInt32} :
      Effect s (.openByInode fd addr flags) (-1)
        { s with world := s.world.idle }
  | wrote {s : Sys} {call : Call} {fd addr offset : Nat} {data : Bytes}
      {f : ViveFile} (hcall : call.writes = some (fd, data, offset))
      (hfile : s.file fd = some (addr, f))
      (hE : 0 < f.inode.iExtentSize.toNat)
      (hend : offset + data.length < 2 ^ 63) :
      Effect s call data.length
        ({ s with
          world := s.world.committed .dataOpt
            (writeOps f.iNo.toNat f.inode.iExtentSize.toNat offset data
              ++ growOps f s.world.clock (offset + data.length)) }.setFile
          fd addr (wroteFile f s.world.clock (offset + data.length)))
  | didRead {s : Sys} {fd addr offset n : Nat} {outBuf : Bytes}
      {f : ViveFile} (hfile : s.file fd = some (addr, f)) :
      Effect s (.read fd outBuf offset) n
        (s.setFile fd addr (touched f s.world.clock))
  | synced {s : Sys} {fd addr : Nat} {f : ViveFile}
      (hfile : s.file fd = some (addr, f)) :
      Effect s (.fsync fd) (-eio)
        ({ s with world := s.world.synced (syncOps f) }.setFile fd addr
          { f with dirty := false })
  | closed {s : Sys} {fd addr : Nat} {f : ViveFile}
      (hfile : s.file fd = some (addr, f)) :
      Effect s (.close fd) 0
        { s with
          world := s.world.synced (syncOps f)
          files := Function.update s.files fd none }
  | persisted {s : Sys} {addr : Nat} {inode old : ViveInode}
      (hinode : s.inodes addr = some old) :
      Effect s (.persist addr inode) 0
        ({ s with
          world := s.world.committed .dataOpt
            [.put .metaCf (inodeKey inode.iNo.toNat)
              inode.toBytes] }.setInode (some addr) (some inode))
  | unlinkNone {s : Sys} {parent : Int} {name : FileName}
      (hkey : Unnamed s.world.db parent name) :
      Effect s (.unlink parent name) (-enoent) s
  | unlinkLast {s : Sys} {parent : Int} {name : FileName} {v : Bytes}
      {n : ViveInode} {extents : Nat}
      (hkey : s.world.db.metaCf[fileKey parent name]? = some v)
      (hrec : s.world.db.metaCf[v]? = some n.toBytes)
      (hlinks : n.iLinksCount = 1)
      (hcount : extentCount n = .ok extents) :
      Effect s (.unlink parent name) 0
        { s with
          world := s.world.committed .metaOpt
            (unlinkOps parent name n.iNo.toNat extents) }
  | unlinkMore {s : Sys} {parent : Int} {name : FileName} {v : Bytes}
      {n : ViveInode}
      (hkey : s.world.db.metaCf[fileKey parent name]? = some v)
      (hrec : s.world.db.metaCf[v]? = some n.toBytes)
      (hlinks : n.iLinksCount ≠ 1) :
      Effect s (.unlink parent name) 0
        { s with
          world := s.world.committed .metaOpt
            [.put .metaCf (inodeKey n.iNo.toNat) (lowered n).toBytes] }
  | umounted {s : Sys} :
      Effect s .umount 0
        ⟨{ s.world with durable := s.world.db }, false, fun _ => none,
          fun _ => none⟩
  | mounted {s : Sys} {addr seed : Nat}
      (hm : s.mounted = false)
      (hseed : s.world.db.metaCf[inodeSeedKey]? = some (leBytes 8 seed))
      (hrange : seed < 2 ^ 63) :
      Effect s (.mount addr) 0
        { world := { s.world with inodeSeed := seed }
          mounted := true
          inodes := Function.update (fun _ => none) addr
            (some { rootInode s.world.clock with refCnt := 2 })
          files := fun _ => none }

-- =========================================================== the invariant

/-- Below `c`, the committed seed, lies every number in use. -/
structure SysInv (codec : SuperblockCodec) (s : Sys) (c : Nat) : Prop where
  calm : Calm s.world
  shape : StoreShape codec s.world.db c
  seed : s.world.db.metaCf[inodeSeedKey]? = some (leBytes 8 c)
  low : vnFirstUserIno ≤ c
  high : c < 2 ^ 63
  counter : s.mounted = true →
    c ≤ s.world.inodeSeed ∧ s.world.inodeSeed < 2 ^ 63
  inodes : ∀ addr n, s.inodes addr = some n → n.iNo.toNat < c
  files : ∀ fd ref, s.files fd = some ref →
    ∃ n, s.inodes ref.addr = some n ∧ n.iNo = ref.iNo

theorem file_eq_some {fd addr : Nat} {f : ViveFile}
    (h : s.file fd = some (addr, f)) :
    s.files fd = some ⟨addr, f.iNo, f.noatime, f.dirty⟩
      ∧ s.inodes addr = some f.inode := by
  rw [Sys.file] at h
  split at h
  · cases h
  · next ref href =>
    split at h
    · cases h
    · next inode hinode =>
      rw [Option.some.injEq, Prod.mk.injEq] at h
      obtain ⟨rfl, rfl⟩ := h
      exact ⟨href, hinode⟩

namespace SysInv

variable (inv : SysInv codec s c)
include inv

theorem entry_value {parent : Int} {name : FileName} {v : Bytes}
    (hkey : s.world.db.metaCf[fileKey parent name]? = some v) :
    MetaValue c v :=
  inv.shape.values _ v hkey (fileKey_ne_superblockKey parent name)

theorem record_value {ino : Nat} {v : Bytes}
    (hkey : s.world.db.metaCf[inodeKey ino]? = some v) : MetaValue c v :=
  inv.shape.values _ v hkey (inodeKey_ne_superblockKey ino)

/-- A handle's number is its inode's. -/
theorem file_iNo {fd addr : Nat} {f : ViveFile}
    (h : s.file fd = some (addr, f)) :
    f.iNo = f.inode.iNo ∧ f.inode.iNo.toNat < c := by
  obtain ⟨href, hinode⟩ := file_eq_some h
  obtain ⟨n, hn, hino⟩ := inv.files fd _ href
  dsimp only at hn hino
  rw [hinode, Option.some.injEq] at hn
  exact ⟨by rw [hn, hino], inv.inodes addr _ hinode⟩

/-- A lookup finds no record, finds one, or dies on a value that is
none. -/
theorem lookup_cases (parent : Int) (name : FileName) :
    (∃ e, (vnLookupInodeNo parent name true).exec s.world = .error e)
    ∨ (Unnamed s.world.db parent name
      ∧ (vnLookupInodeNo parent name true).exec s.world
        = .ok ((-1, none), s.world))
    ∨ ∃ v n, s.world.db.metaCf[fileKey parent name]? = some v
      ∧ s.world.db.metaCf[v]? = some (ViveInode.toBytes n)
      ∧ 8 ≤ v.length ∧ leNat (v.take 8) < 2 ^ 63
      ∧ (vnLookupInodeNo parent name true).exec s.world
        = .ok ((leNat (v.take 8), some { n with refCnt := 1 }),
            s.world) := by
  cases hkey : s.world.db.metaCf[fileKey parent name]? with
  | none =>
      exact Or.inr (Or.inl ⟨Or.inl hkey,
        exec_vnLookup_absent inv.calm true hkey⟩)
  | some v =>
      have hv := inv.entry_value hkey
      have hhigh := inv.high
      have hnum := hv.number_le hhigh
      cases hrec : s.world.db.metaCf[v]? with
      | none =>
          exact Or.inr (Or.inl ⟨Or.inr ⟨v, hkey, hrec⟩,
            exec_vnLookup_lost inv.calm hkey hrec⟩)
      | some raw =>
          have hraw := inv.shape.values _ raw hrec hv.ne_superblockKey
          cases hd : deserializeInode raw with
          | error e =>
              left
              refine ⟨e, ?_⟩
              rw [vnLookupInodeNo, exec_bind_ok (exec_getMeta inv.calm _),
                hkey]
              refine (exec_bind_ok (exec_getMeta inv.calm v)).trans ?_
              rw [hrec]
              exact exec_bind_error (exec_lift_error hd)
          | ok n' =>
              obtain ⟨n, rfl, -⟩ := hraw.record hd
              have hrun := exec_vnLookup_inode inv.calm hkey hv.eight_le hrec
              rw [asInt64_of_lt (by omega)] at hrun
              exact Or.inr (Or.inr ⟨v, n, rfl, hrec, hv.eight_le, by omega,
                hrun⟩)

/-- Opening by number finds no record, dies on what is none, or opens a
record. -/
theorem openByNumber_cases (ino : Nat) (flags : UInt32) :
    (∃ e, (openByNumber ino flags).exec s.world = .error e)
    ∨ (∃ w, (w = s.world ∨ w = s.world.idle) ∧ NoRecord s.world.db ino
      ∧ (openByNumber ino flags).exec s.world = .ok (none, w))
    ∨ ∃ n, s.world.db.metaCf[inodeKey ino]? = some (ViveInode.toBytes n)
      ∧ ((hasFlag flags oTrunc = false
          ∧ (openByNumber ino flags).exec s.world
            = .ok (some (opened n flags), s.world))
        ∨ ∃ u extents, hasFlag flags oTrunc = true
          ∧ s.world.db.metaCf[inodeKey n.iNo.toNat]? = some u
          ∧ extentCount n = .ok extents
          ∧ (openByNumber ino flags).exec s.world
            = .ok (some (opened { n with iSize := 0 } flags),
                s.world.committed .metaOpt
                  (truncOps { n with refCnt := 1 } extents))) := by
  cases hrec : s.world.db.metaCf[inodeKey ino]? with
  | none =>
      refine Or.inr (Or.inl ⟨s.world, Or.inl rfl, Or.inl hrec, ?_⟩)
      rw [openByNumber, exec_bind_ok (exec_getMeta inv.calm _), hrec]
      rfl
  | some raw =>
      cases hd : deserializeInode raw with
      | error e =>
          refine Or.inl ⟨e, ?_⟩
          rw [openByNumber, exec_bind_ok (exec_getMeta inv.calm _), hrec]
          exact exec_bind_error (exec_lift_error hd)
      | ok n' =>
          obtain ⟨n, rfl, -⟩ := (inv.record_value hrec).record hd
          have hopen := exec_openByNumber_record inv.calm flags hrec
          rcases openByInode_cases inv.calm { n with refCnt := 1 } flags with
            ⟨e, hrun⟩ | ⟨hown, hrun⟩ | ⟨hflag, -⟩
              | ⟨u, extents, hflag, hown, hcount, -⟩
          · exact Or.inl ⟨e, hopen.trans (exec_bind_error hrun)⟩
          · exact Or.inr (Or.inl ⟨_, Or.inr rfl, Or.inr ⟨n, hrec, hown⟩,
              hopen.trans (exec_bind_ok hrun)⟩)
          · exact Or.inr (Or.inr ⟨n, rfl, Or.inl ⟨hflag,
              exec_openByNumber_plain inv.calm hflag hrec⟩⟩)
          · have hcount' : extentCount n = .ok extents :=
              (extentCount_congr rfl rfl).trans hcount
            exact Or.inr (Or.inr ⟨n, rfl, Or.inr ⟨u, extents, hflag, hown,
              hcount', exec_openByNumber_trunc inv.calm hflag hrec hown
                hcount'⟩⟩)

-- ------------------------------------------------------ moving one part

/-- A new world under the same handles. -/
theorem withWorld {w : World} (hcalm : Calm w)
    (hshape : StoreShape codec w.db c)
    (hseed : w.db.metaCf[inodeSeedKey]? = some (leBytes 8 c))
    (hcounter : s.mounted = true → c ≤ w.inodeSeed ∧ w.inodeSeed < 2 ^ 63) :
    SysInv codec { s with world := w } c where
  calm := hcalm
  shape := hshape
  seed := hseed
  low := inv.low
  high := inv.high
  counter := hcounter
  inodes := inv.inodes
  files := inv.files

/-- A committed batch that fits. -/
theorem commit (opt : WriteOpt) {b : List WriteOp}
    (hb : ∀ op ∈ b, op.Fits c) :
    SysInv codec { s with world := s.world.committed opt b } c :=
  inv.withWorld (inv.calm.committed opt b) (inv.shape.applyBatch hb)
    ((applyBatch_seed_of_fits hb).trans inv.seed) inv.counter

theorem sync {b : List WriteOp} (hb : ∀ op ∈ b, op.Fits c) :
    SysInv codec { s with world := s.world.synced b } c :=
  inv.withWorld (inv.calm.synced b) (inv.shape.applyBatch hb)
    ((applyBatch_seed_of_fits hb).trans inv.seed) inv.counter

/-- An inode at an address that is free or held the same number. -/
theorem setInode {addr : Nat} {n : ViveInode} (hn : n.iNo.toNat < c)
    (hold : ∀ old, s.inodes addr = some old → old.iNo = n.iNo) :
    SysInv codec (s.setInode (some addr) (some n)) c where
  calm := inv.calm
  shape := inv.shape
  seed := inv.seed
  low := inv.low
  high := inv.high
  counter := inv.counter
  inodes := by
    refine Partial.forall_update (fun m hm => ?_)
      fun a _ m hm => inv.inodes a m hm
    rw [← Option.some.inj hm]
    exact hn
  files fd ref href := by
    obtain ⟨m, hm, hino⟩ := inv.files fd ref href
    by_cases ha : ref.addr = addr
    · refine ⟨n, ?_, ?_⟩
      · show Function.update s.inodes addr (some n) ref.addr = some n
        rw [ha, Function.update_self]
      · rw [← hold m (ha ▸ hm), hino]
    · refine ⟨m, ?_, hino⟩
      show Function.update s.inodes addr (some n) ref.addr = some m
      rw [Function.update_of_ne ha]
      exact hm

/-- A handle on such an inode. -/
theorem setFile {fd addr : Nat} {f : ViveFile} (hf : f.iNo = f.inode.iNo)
    (hn : f.inode.iNo.toNat < c)
    (hold : ∀ old, s.inodes addr = some old → old.iNo = f.inode.iNo) :
    SysInv codec (s.setFile fd addr f) c where
  calm := inv.calm
  shape := inv.shape
  seed := inv.seed
  low := inv.low
  high := inv.high
  counter := inv.counter
  inodes := (inv.setInode hn hold).inodes
  files fd' ref href := by
    by_cases hfd : fd' = fd
    · subst hfd
      have href' : Function.update s.files fd'
          (some ⟨addr, f.iNo, f.noatime, f.dirty⟩) fd' = some ref := href
      rw [Function.update_self, Option.some.injEq] at href'
      subst href'
      refine ⟨f.inode, ?_, hf.symm⟩
      show Function.update s.inodes addr (some f.inode) addr = _
      rw [Function.update_self]
    · have href' : Function.update s.files fd
          (some ⟨addr, f.iNo, f.noatime, f.dirty⟩) fd' = some ref := href
      rw [Function.update_of_ne hfd] at href'
      exact (inv.setInode hn hold).files fd' ref href'

/-- A create that found its name free. -/
theorem create (parent : Int) (name : FileName) (mode uid gid : UInt16)
    (hm : s.mounted = true) (hseed : s.world.inodeSeed + 1 < 2 ^ 63) :
    SysInv codec
      { s with
        world := s.world.drawn.committed .metaOpt
          (createOps parent name s.world.inodeSeed
            (newInode s.world.inodeSeed mode uid gid s.world.clock)) }
      (s.world.inodeSeed + 1) := by
  obtain ⟨hcs, -⟩ := inv.counter hm
  have hlow := inv.low
  exact {
    calm := inv.calm
    shape := inv.shape.create hcs (by omega) parent name mode uid gid _
    seed := by
      show (s.world.db.applyBatch _).metaCf[inodeSeedKey]? = _
      rw [createOps_meta, if_pos rfl]
    low := by omega
    high := hseed
    counter := fun _ => ⟨Nat.le_refl _, hseed⟩
    inodes := fun addr n hn => by
      have := inv.inodes addr n hn
      omega
    files := inv.files }

end SysInv

-- ============================================================= inversion

/-- Storing "no inode" at a free place changes nothing. -/
theorem setInode_none {addr : Option Nat} (h : s.freeAddr addr = true) :
    s.setInode addr none = s := by
  cases addr with
  | none => rfl
  | some a =>
      have hnone : s.inodes a = none := Option.isNone_iff_eq_none.mp h
      have hsame : Function.update s.inodes a none = s.inodes := by
        rw [Function.update_eq_self_iff, hnone]
      rw [Sys.setInode, hsame]

/-- A handle stored over its own inode. -/
theorem setInode_setFile {fd addr : Nat} {f : ViveFile} :
    (s.setInode (some addr) (some f.inode)).setFile fd addr f
      = s.setFile fd addr f := by
  rw [Sys.setInode, Sys.setFile, Sys.setFile]
  dsimp only
  rw [Function.update_idem]

section Inversion

variable (inv : SysInv codec s c) (hm : s.mounted = true)
include inv hm

theorem effect_create {addr : Option Nat} {parent : Int} {name : FileName}
    {mode uid gid : UInt16}
    (hstep : s.stepMounted (.create addr parent name mode uid gid)
      = .ok (r, s')) :
    Effect s (.create addr parent name mode uid gid) r s' := by
  rw [Sys.stepMounted] at hstep
  split at hstep
  case isFalse => cases hstep
  case isTrue hfree =>
    by_cases hseed : s.world.inodeSeed + 1 < 2 ^ 63
    case neg =>
      rw [exec_vnCreateFile_overflow hseed] at hstep
      cases hstep
    case pos =>
      cases hkey : s.world.db.metaCf[fileKey parent name]? with
      | some v =>
          rw [exec_vnCreateFile_exists inv.calm hseed mode uid gid hkey,
            ok_bind] at hstep
          obtain ⟨rfl, rfl⟩ := Prod.mk.inj (Except.ok.inj hstep)
          have hsame := setInode_none
            (s := { s with world := s.world.drawn.idle }) hfree
          rw [hsame]
          exact .createTaken hm hseed hkey
      | none =>
          rw [exec_vnCreateFile_fresh inv.calm hseed mode uid gid hkey,
            ok_bind] at hstep
          obtain ⟨rfl, rfl⟩ := Prod.mk.inj (Except.ok.inj hstep)
          exact .createFresh hm hfree hseed hkey

omit hm in
theorem effect_lookup {addr : Nat} {parent : Int} {name : FileName}
    (hstep : s.stepMounted (.lookup addr parent name) = .ok (r, s')) :
    Effect s (.lookup addr parent name) r s' := by
  rw [Sys.stepMounted] at hstep
  split at hstep
  case isFalse => cases hstep
  case isTrue hfree =>
    rcases inv.lookup_cases parent name with
      ⟨e, hrun⟩ | ⟨hnone, hrun⟩ | ⟨v, n, hkey, hrec, -, -, hrun⟩
    · rw [hrun] at hstep
      cases hstep
    · rw [hrun, ok_bind] at hstep
      obtain ⟨rfl, rfl⟩ := Prod.mk.inj (Except.ok.inj hstep)
      rw [setInode_none (s := { s with world := s.world }) hfree]
      exact .lookupNone hnone
    · rw [hrun, ok_bind] at hstep
      obtain ⟨rfl, rfl⟩ := Prod.mk.inj (Except.ok.inj hstep)
      exact .lookupFound hfree hkey hrec

omit hm in
/-- An open of a name that is there. -/
theorem effect_openFound {fd addr : Nat} {parent : Int} {name : FileName}
    {flags : UInt32} {mode : UInt16} {v : Bytes}
    (hfree : s.freeAddr (some addr) = true)
    (hkey : s.world.db.metaCf[fileKey parent name]? = some v)
    {f : Option ViveFile} {w : World}
    (hrun : (openByNumber (leNat (v.take 8)) flags).exec s.world
      = .ok (f, w)) :
    Effect s (.openFile fd addr parent name flags mode)
      ({ s with world := w }.opened fd addr f).1
      ({ s with world := w }.opened fd addr f).2 := by
  rcases inv.openByNumber_cases (leNat (v.take 8)) flags with
    ⟨e, hrun'⟩ | ⟨w', hw, hnone, hrun'⟩ | ⟨n, hrec, ⟨hflag, hrun'⟩
      | ⟨u, extents, hflag, hown, hcount, hrun'⟩⟩
  · rw [hrun'] at hrun
    cases hrun
  · rw [hrun'] at hrun
    obtain ⟨rfl, rfl⟩ := Prod.mk.inj (Except.ok.inj hrun)
    exact .openNull hw (Or.inr ⟨v, hkey, hnone⟩)
  · rw [hrun'] at hrun
    obtain ⟨rfl, rfl⟩ := Prod.mk.inj (Except.ok.inj hrun)
    exact .openPlain hfree hflag hkey hrec
  · rw [hrun'] at hrun
    obtain ⟨rfl, rfl⟩ := Prod.mk.inj (Except.ok.inj hrun)
    exact .openTrunc hfree hflag hkey hrec hown hcount

theorem effect_openFile {fd addr : Nat} {parent : Int} {name : FileName}
    {flags : UInt32} {mode : UInt16}
    (hstep : s.stepMounted (.openFile fd addr parent name flags mode)
      = .ok (r, s')) :
    Effect s (.openFile fd addr parent name flags mode) r s' := by
  rw [Sys.stepMounted] at hstep
  split at hstep
  case isFalse => cases hstep
  case isTrue hfree =>
    cases hrun : (vnOpenFile parent name flags mode).exec s.world with
    | error e =>
        rw [hrun] at hstep
        cases hstep
    | ok p =>
        obtain ⟨f, w⟩ := p
        rw [hrun, ok_bind] at hstep
        obtain ⟨rfl, rfl⟩ := Prod.mk.inj (Except.ok.inj hstep)
        cases hkey : s.world.db.metaCf[fileKey parent name]? with
        | some v =>
            rw [exec_vnOpenFile_found inv.calm flags mode hkey
              (inv.entry_value hkey).eight_le] at hrun
            exact effect_openFound inv hfree.1 hkey hrun
        | none =>
            cases hflag : hasFlag flags oCreat with
            | false =>
                rw [exec_vnOpenFile_absent inv.calm mode hflag hkey] at hrun
                obtain ⟨rfl, rfl⟩ := Prod.mk.inj (Except.ok.inj hrun)
                exact .openNull (Or.inl rfl) (Or.inl ⟨hkey, hflag⟩)
            | true =>
                by_cases hseed : s.world.inodeSeed + 1 < 2 ^ 63
                case neg =>
                  rw [exec_vnOpenFile_creat inv.calm mode hflag hkey,
                    exec_bind_error
                      (exec_vnCreateFile_overflow hseed mode 0 0)] at hrun
                  cases hrun
                case pos =>
                  rw [exec_vnOpenFile_create inv.calm hseed mode hflag
                    hkey] at hrun
                  obtain ⟨v, hentry, hnum⟩ := createOps_entry s.world.db
                    parent name (show s.world.inodeSeed < 2 ^ 64 by omega) mode
                    0 0 s.world.clock
                  have inv₁ := inv.create parent name mode 0 0 hm hseed
                  exact .openCreate hflag hkey
                    (.createFresh hm rfl hseed hkey)
                    (effect_openFound inv₁ hfree.1 hentry
                      (by rw [hnum]; exact hrun))

omit hm in
theorem effect_openByInode {fd addr : Nat} {flags : UInt32}
    (hstep : s.stepMounted (.openByInode fd addr flags) = .ok (r, s')) :
    Effect s (.openByInode fd addr flags) r s' := by
  rw [Sys.stepMounted] at hstep
  split at hstep
  case h_1 => cases hstep
  case h_2 inode hinode =>
    split at hstep
    case isFalse => cases hstep
    case isTrue =>
      rcases openByInode_cases inv.calm inode flags with
        ⟨e, hrun⟩ | ⟨-, hrun⟩ | ⟨hflag, hrun⟩ | ⟨v, extents, hflag, hrec,
          hcount, hrun⟩
      · rw [hrun] at hstep
        cases hstep
      · rw [hrun, ok_bind] at hstep
        obtain ⟨rfl, rfl⟩ := Prod.mk.inj (Except.ok.inj hstep)
        have hsame : Function.update s.inodes addr (some inode)
            = s.inodes := by
          rw [Function.update_eq_self_iff, hinode]
        show Effect s _ _ { s with
          world := s.world.idle
          inodes := Function.update s.inodes addr (some inode) }
        rw [hsame]
        exact .byInodeLost
      · rw [hrun, ok_bind] at hstep
        obtain ⟨rfl, rfl⟩ := Prod.mk.inj (Except.ok.inj hstep)
        rw [setInode_setFile]
        exact .byInodePlain hinode hflag
      · rw [hrun, ok_bind] at hstep
        obtain ⟨rfl, rfl⟩ := Prod.mk.inj (Except.ok.inj hstep)
        rw [setInode_setFile]
        exact .byInodeTrunc hinode hflag hrec hcount

omit hm in
/-- A write of either kind that returned. -/
theorem effect_wrote {fd offset : Nat} {data : Bytes}
    (hcall : call.writes = some (fd, data, offset))
    (hend : offset + data.length < 2 ^ 63) {addr : Nat} {f : ViveFile}
    (hfile : s.file fd = some (addr, f)) {p : (Int × ViveFile) × World}
    (hrun : (vnWrite f data offset).exec s.world = .ok p) :
    Effect s call p.1.1
      ({ s with world := p.2 }.setFile fd addr p.1.2) := by
  by_cases hE : f.inode.iExtentSize.toNat = 0
  · rw [vnWrite, if_pos hE] at hrun
    cases hrun
  · have hpos : 0 < f.inode.iExtentSize.toNat := by omega
    rw [exec_vnWrite inv.calm f hpos hend] at hrun
    obtain rfl := Except.ok.inj hrun
    exact .wrote hcall hfile hpos hend

omit inv hm in
/-- A call on a handle that returned. -/
theorem onFile_inv {fd : Nat} {op : ViveFile → Fs (Int × ViveFile)}
    (hstep : s.onFile fd op = .ok (r, s')) :
    ∃ addr f p, s.file fd = some (addr, f) ∧ (op f).exec s.world = .ok p
      ∧ r = p.1.1 ∧ s' = { s with world := p.2 }.setFile fd addr p.1.2 := by
  rw [Sys.onFile] at hstep
  split at hstep
  case h_1 => cases hstep
  case h_2 addr f hfile =>
    cases hrun : (op f).exec s.world with
    | error e =>
        rw [hrun] at hstep
        cases hstep
    | ok p =>
        rw [hrun, ok_bind] at hstep
        obtain ⟨rfl, rfl⟩ := Prod.mk.inj (Except.ok.inj hstep)
        exact ⟨addr, f, p, hfile, hrun, rfl, rfl⟩

omit hm in
theorem effect_unlink {parent : Int} {name : FileName}
    (hstep : s.stepMounted (.unlink parent name) = .ok (r, s')) :
    Effect s (.unlink parent name) r s' := by
  rw [Sys.stepMounted] at hstep
  rcases inv.lookup_cases parent name with
    ⟨e, hrun⟩ | ⟨hnone, hrun⟩ | ⟨v, n, hkey, hrec, hlen, hnum, -⟩
  · rw [vnUnlink, exec_bind_error hrun] at hstep
    cases hstep
  · rw [vnUnlink, exec_bind_ok hrun] at hstep
    obtain ⟨rfl, rfl⟩ := Prod.mk.inj (Except.ok.inj hstep)
    exact .unlinkNone hnone
  · by_cases hlinks : n.iLinksCount = 1
    · cases hcount : extentCount n with
      | error e =>
          rw [exec_vnUnlink_fault inv.calm hkey hlen hrec hnum hlinks
            hcount] at hstep
          cases hstep
      | ok extents =>
          rw [exec_vnUnlink_last inv.calm hkey hlen hrec hnum hlinks hcount,
            ok_bind] at hstep
          obtain ⟨rfl, rfl⟩ := Prod.mk.inj (Except.ok.inj hstep)
          exact .unlinkLast hkey hrec hlinks hcount
    · rw [exec_vnUnlink_more inv.calm hkey hlen hrec hnum hlinks,
        ok_bind] at hstep
      obtain ⟨rfl, rfl⟩ := Prod.mk.inj (Except.ok.inj hstep)
      exact .unlinkMore hkey hrec hlinks

end Inversion

/-- A formatted store mounts, with the committed seed. -/
theorem exec_vnMount {w : World} (h : Calm w) {seed : Nat}
    (hseed : w.db.metaCf[inodeSeedKey]? = some (leBytes 8 seed))
    (hrange : seed < 2 ^ 63)
    (hsb : w.db.metaCf[superblockKey]?
      = some (codec.serialize vivefsSuperBlock)) :
    (vnMount codec).exec w
      = .ok (some ⟨seed, { rootInode w.clock with refCnt := 2 }⟩, w) := by
  rw [vnMount, exec_bind_ok exec_time, exec_bind_ok (exec_getMeta h _),
    hseed]
  refine (exec_bind_ok (exec_lift_ok
    (loadInt64_leBytes (n := seed) (by omega)))).trans ?_
  refine (exec_bind_ok (exec_getMeta h _)).trans ?_
  rw [hsb, Option.map_some, Option.getD_some]
  dsimp only
  rw [codec.round_trip]
  rfl

/-- What a step does is one of the effects. -/
theorem step_effect (inv : SysInv codec s c) (hadm : Admissible s call)
    (hstep : s.step codec call = .ok (r, s')) : Effect s call r s' := by
  unfold Sys.step at hstep
  split at hstep
  case isTrue hm =>
    cases call with
    | create addr parent name mode uid gid =>
        exact effect_create inv hm hstep
    | lookup addr parent name => exact effect_lookup inv hstep
    | openFile fd addr parent name flags mode =>
        exact effect_openFile inv hm hstep
    | openByInode fd addr flags => exact effect_openByInode inv hstep
    | write fd data offset =>
        obtain ⟨addr, f, p, hfile, hrun, rfl, rfl⟩ := onFile_inv hstep
        exact effect_wrote inv rfl (hadm.1 fd data offset rfl) hfile hrun
    | writev fd iov offset =>
        obtain ⟨addr, f, p, hfile, hrun, rfl, rfl⟩ := onFile_inv hstep
        have hend := hadm.1 fd iov.flatten offset rfl
        exact effect_wrote inv rfl hend hfile
          (vnWrite_of_vnWritev (by omega) hrun)
    | read fd outBuf offset =>
        obtain ⟨addr, f, p, hfile, hrun, rfl, rfl⟩ := onFile_inv hstep
        obtain ⟨⟨n, out, f'⟩, w₁, hread, hret⟩ := exec_bind_inv hrun
        obtain ⟨rfl, rfl⟩ := vnRead_returns inv.calm hread
        obtain rfl : _ = p := Except.ok.inj hret
        exact .didRead hfile
    | fsync fd =>
        obtain ⟨addr, f, p, hfile, hrun, rfl, rfl⟩ := onFile_inv hstep
        rw [exec_vnFsync inv.calm f] at hrun
        obtain rfl := Except.ok.inj hrun
        exact .synced hfile
    | close fd =>
        rw [Sys.stepMounted] at hstep
        split at hstep
        case h_1 => cases hstep
        case h_2 addr f hfile =>
          rw [exec_vnCloseFile inv.calm f, ok_bind] at hstep
          obtain ⟨rfl, rfl⟩ := Prod.mk.inj (Except.ok.inj hstep)
          exact .closed hfile
    | persist addr inode =>
        rw [Sys.stepMounted] at hstep
        split at hstep
        case h_1 => cases hstep
        case h_2 old hinode =>
          rw [exec_vnPersistInode inv.calm inode, ok_bind] at hstep
          obtain ⟨rfl, rfl⟩ := Prod.mk.inj (Except.ok.inj hstep)
          exact .persisted hinode
    | unlink parent name => exact effect_unlink inv hstep
    | umount =>
        rw [Sys.stepMounted, vnUmount,
          exec_bind_ok (exec_flushWAL inv.calm)] at hstep
        obtain ⟨rfl, rfl⟩ := Prod.mk.inj (Except.ok.inj hstep)
        exact .umounted
    | mount addr => cases hstep
  case isFalse hm =>
    split at hstep
    case h_1 addr =>
      rw [exec_vnMount inv.calm inv.seed inv.high inv.shape.superblock,
        ok_bind] at hstep
      obtain ⟨rfl, rfl⟩ := Prod.mk.inj (Except.ok.inj hstep)
      exact .mounted (by simpa using hm) inv.seed inv.high
    case h_2 => cases hstep

-- ========================================================== preservation

/-- At a free place there is no inode to agree with. -/
theorem free_agrees {addr : Nat} (hfree : s.freeAddr (some addr) = true)
    (no : UInt64) : ∀ old, s.inodes addr = some old → old.iNo = no := by
  intro old hold
  have hnone : s.inodes addr = none := Option.isNone_iff_eq_none.mp hfree
  rw [hnone] at hold
  cases hold

theorem SysInv.setInode_free (inv : SysInv codec s c) {addr : Option Nat}
    {n : ViveInode} (hfree : s.freeAddr addr = true)
    (hn : n.iNo.toNat < c) : SysInv codec (s.setInode addr (some n)) c := by
  cases addr with
  | none => exact inv
  | some a => exact inv.setInode hn (free_agrees hfree _)

/-- A record read back has a number that was given out. -/
theorem SysInv.record_lt (inv : SysInv codec s c) {key : Bytes}
    {n : ViveInode} (hkey : key ≠ superblockKey)
    (hrec : s.world.db.metaCf[key]? = some n.toBytes) : n.iNo.toNat < c :=
  inv.shape.record_lt hkey hrec

/-- A handle on an inode in memory, with that inode's number. -/
theorem SysInv.openOn (inv : SysInv codec s c) {fd addr : Nat}
    {inode : ViveInode} (hinode : s.inodes addr = some inode) {f : ViveFile}
    (hno : f.iNo = inode.iNo) (hsame : f.inode.iNo = inode.iNo) :
    SysInv codec (s.setFile fd addr f) c := by
  refine inv.setFile (hno.trans hsame.symm) ?_ fun old hold => ?_
  · rw [hsame]
    exact inv.inodes _ _ hinode
  · obtain rfl := Option.some.inj (hinode.symm.trans hold)
    exact hsame.symm

/-- ... put back after a call on it. -/
theorem SysInv.putBack (inv : SysInv codec s c) {fd addr : Nat}
    {f f' : ViveFile} (hfile : s.file fd = some (addr, f))
    (hno : f'.iNo = f.iNo) (hsame : f'.inode.iNo = f.inode.iNo) :
    SysInv codec (s.setFile fd addr f') c :=
  inv.openOn (file_eq_some hfile).2 (hno.trans (inv.file_iNo hfile).1) hsame

/-- A record put back under its own number, which was given out. -/
theorem SysInv.putRecord (inv : SysInv codec s c) (opt : WriteOpt)
    {n : ViveInode} (hlt : n.iNo.toNat < c) :
    SysInv codec { s with
      world := s.world.committed opt
        [.put .metaCf (inodeKey n.iNo.toNat) n.toBytes] } c := by
  refine inv.commit opt fun op hop => ?_
  obtain rfl := List.mem_singleton.mp hop
  exact fits_record hlt

theorem SysInv.wrote (inv : SysInv codec s c) {fd addr offset : Nat}
    {data : Bytes} {f : ViveFile} (hfile : s.file fd = some (addr, f)) :
    SysInv codec ({ s with
      world := s.world.committed .dataOpt
        (writeOps f.iNo.toNat f.inode.iExtentSize.toNat offset data
          ++ growOps f s.world.clock (offset + data.length)) }.setFile
      fd addr (wroteFile f s.world.clock (offset + data.length))) c := by
  obtain ⟨hino, hlt⟩ := inv.file_iNo hfile
  have hno : (wroteFile f s.world.clock (offset + data.length)).iNo
      = f.iNo := by
    rw [wroteFile]
    split <;> rfl
  refine (inv.commit .dataOpt fun op hop => ?_).putBack hfile hno
    (by rw [wroteFile_iNo])
  rcases List.mem_append.mp hop with hop | hop
  · exact fits_writeOps _ (by rw [hino]; exact hlt) op hop
  · exact fits_growOps hlt op hop

theorem SysInv.closed (inv : SysInv codec s c) {fd addr : Nat}
    {f : ViveFile} (hfile : s.file fd = some (addr, f)) :
    SysInv codec { s with
      world := s.world.synced (syncOps f)
      files := Function.update s.files fd none } c := by
  obtain ⟨-, hlt⟩ := inv.file_iNo hfile
  refine { inv.sync (fits_syncOps hlt) with files := ?_ }
  exact Partial.forall_update (fun ref href => by cases href)
    fun fd _ ref href => inv.files fd ref href

/-- An inode's number is not for callers to edit. -/
theorem SysInv.persisted (inv : SysInv codec s c) {addr : Nat}
    {inode old : ViveInode} (hinode : s.inodes addr = some old)
    (hino : inode.iNo = old.iNo) :
    SysInv codec ({ s with
      world := s.world.committed .dataOpt
        [.put .metaCf (inodeKey inode.iNo.toNat)
          inode.toBytes] }.setInode (some addr) (some inode)) c := by
  have hlt := inv.inodes _ _ hinode
  rw [← hino] at hlt
  refine (inv.putRecord .dataOpt hlt).setInode hlt fun old' hold => ?_
  obtain rfl := Option.some.inj (hinode.symm.trans hold)
  exact hino.symm

theorem SysInv.umounted (inv : SysInv codec s c) :
    SysInv codec ⟨{ s.world with durable := s.world.db }, false,
      fun _ => none, fun _ => none⟩ c :=
  { inv with
    counter := fun h => by cases h
    inodes := fun _ _ h => by cases h
    files := fun _ _ h => by cases h }

/-- A mount goes on from the committed seed, with the root's inode alone in
memory. -/
theorem SysInv.mounted (inv : SysInv codec s c) {addr seed : Nat}
    (hseed : s.world.db.metaCf[inodeSeedKey]? = some (leBytes 8 seed))
    (hrange : seed < 2 ^ 63) :
    SysInv codec
      { world := { s.world with inodeSeed := seed }
        mounted := true
        inodes := Function.update (fun _ => none) addr
          (some { rootInode s.world.clock with refCnt := 2 })
        files := fun _ => none } c := by
  have hhigh := inv.high
  obtain rfl := leBytes_inj (show c < 256 ^ 8 by omega) (by omega)
    (Option.some.inj (inv.seed.symm.trans hseed))
  refine {
    inv with
    counter := fun _ => ⟨Nat.le_refl c, hrange⟩
    inodes := Partial.forall_update (fun n hn => ?_) fun _ _ _ hn => ?_
    files := fun _ _ h => (by cases h) }
  · have hroot : (UInt64.ofNat vnRootIno).toNat < vnFirstUserIno := by
      decide
    rw [← Option.some.inj hn]
    exact Nat.lt_of_lt_of_le hroot inv.low
  · cases hn

/-- Every effect keeps the invariant, for a seed that has not gone
down. -/
theorem Effect.inv (heff : Effect s call r s') (inv : SysInv codec s c)
    (hadm : Admissible s call) :
    ∃ c', c ≤ c' ∧ SysInv codec s' c' := by
  induction heff generalizing c with
  | createTaken hm hseed hkey =>
      obtain ⟨hcs, -⟩ := inv.counter hm
      refine ⟨c, Nat.le_refl c, inv.withWorld inv.calm inv.shape inv.seed ?_⟩
      exact fun _ => ⟨Nat.le_succ_of_le hcs, hseed⟩
  | createFresh hm hfree hseed hkey =>
      obtain ⟨hcs, -⟩ := inv.counter hm
      refine ⟨_, Nat.le_succ_of_le hcs,
        (inv.create _ _ _ _ _ hm hseed).setInode_free hfree ?_⟩
      rw [newInode_iNo (by omega)]
      exact Nat.lt_succ_self _
  | lookupNone hkey => exact ⟨c, Nat.le_refl c, inv⟩
  | lookupFound hfree hkey hrec =>
      have hlt := inv.record_lt (inv.entry_value hkey).ne_superblockKey hrec
      exact ⟨c, Nat.le_refl c, inv.setInode_free hfree hlt⟩
  | openNull hw hnone =>
      refine ⟨c, Nat.le_refl c, ?_⟩
      rcases hw with rfl | rfl
      · exact inv
      · exact inv.withWorld inv.calm inv.shape inv.seed inv.counter
  | openPlain hfree hflag hkey hrec =>
      have hlt := inv.record_lt (inodeKey_ne_superblockKey _) hrec
      exact ⟨c, Nat.le_refl c, inv.setFile rfl hlt (free_agrees hfree _)⟩
  | openTrunc hfree hflag hkey hrec hown hcount =>
      have hlt := inv.record_lt (inodeKey_ne_superblockKey _) hrec
      refine ⟨c, Nat.le_refl c, (inv.commit .metaOpt ?_).setFile rfl hlt
        (free_agrees hfree _)⟩
      refine fits_truncOps ?_ _
      exact hlt
  | openCreate hflag hkey hcreate hopen ihc iho =>
      obtain ⟨c₁, hc₁, inv₁⟩ := ihc inv (Call.Plain.admissible trivial)
      obtain ⟨c₂, hc₂, inv₂⟩ := iho inv₁ (Call.Plain.admissible trivial)
      exact ⟨c₂, Nat.le_trans hc₁ hc₂, inv₂⟩
  | byInodePlain hinode hflag =>
      exact ⟨c, Nat.le_refl c, inv.openOn hinode rfl rfl⟩
  | byInodeTrunc hinode hflag hrec hcount =>
      have hlt := inv.inodes _ _ hinode
      exact ⟨c, Nat.le_refl c,
        (inv.commit .metaOpt (fits_truncOps hlt _)).openOn hinode rfl rfl⟩
  | byInodeLost =>
      exact ⟨c, Nat.le_refl c,
        inv.withWorld inv.calm inv.shape inv.seed inv.counter⟩
  | wrote hcall hfile hE hend => exact ⟨c, Nat.le_refl c, inv.wrote hfile⟩
  | didRead hfile =>
      exact ⟨c, Nat.le_refl c,
        inv.putBack hfile (touched_iNo _ _) (touched_inode_iNo _ _)⟩
  | synced hfile =>
      obtain ⟨-, hlt⟩ := inv.file_iNo hfile
      exact ⟨c, Nat.le_refl c,
        (inv.sync (fits_syncOps hlt)).putBack hfile rfl rfl⟩
  | closed hfile => exact ⟨c, Nat.le_refl c, inv.closed hfile⟩
  | persisted hinode =>
      exact ⟨c, Nat.le_refl c,
        inv.persisted hinode (hadm.2 _ _ _ rfl hinode).1⟩
  | unlinkNone hkey => exact ⟨c, Nat.le_refl c, inv⟩
  | unlinkLast hkey hrec hlinks hcount =>
      exact ⟨c, Nat.le_refl c, inv.commit .metaOpt
        (fits_unlinkOps _ _ _ _)⟩
  | unlinkMore hkey hrec hlinks =>
      have hlt := inv.record_lt (inv.entry_value hkey).ne_superblockKey hrec
      exact ⟨c, Nat.le_refl c, inv.putRecord .metaOpt (n := lowered _) hlt⟩
  | umounted => exact ⟨c, Nat.le_refl c, inv.umounted⟩
  | mounted hm hseed hrange =>
      exact ⟨c, Nat.le_refl c, inv.mounted hseed hrange⟩

-- ================================================================= runs

/-- What formatting commits. -/
def formatOps (codec : SuperblockCodec) : List WriteOp :=
  [.put .metaCf superblockKey (codec.serialize vivefsSuperBlock),
    .put .metaCf inodeSeedKey (leBytes 8 vnFirstUserIno)]

/-- A formatted store. -/
def formattedStore (codec : SuperblockCodec) : Store :=
  Store.empty.applyBatch (formatOps codec)

theorem exec_checkedCall {call : Fs Status} {w w' : World}
    (h : call.exec w = .ok (.ok, w')) :
    (checkedCall call).exec w = .ok ((), w') := by
  rw [checkedCall, exec_bind_ok h]
  rfl

/-- `vn_mkfs_vivefs` on an empty store. -/
theorem exec_vnMkfsVivefs {w : World} (h : Calm w) :
    (vnMkfsVivefs codec).exec w
      = .ok (0, w.synced (formatOps codec)) := by
  rw [vnMkfsVivefs, exec_bind_ok (exec_begin .dataOpt),
    exec_bind_ok (exec_checkedCall (exec_put h .dataOpt [] _ _ _)),
    exec_bind_ok (exec_checkedCall (exec_put h .dataOpt _ _ _ _)),
    exec_bind_ok (exec_checkedCall (exec_commit h .dataOpt _)),
    exec_bind_ok (exec_getMeta (h.committed .dataOpt _) _),
    exec_bind_ok (exec_flushWAL (h.committed .dataOpt _))]
  rfl

/-- meta_cf of a formatted store: the superblock and the seed. -/
theorem formattedStore_meta (key : Bytes) :
    (formattedStore codec).metaCf[key]?
      = if inodeSeedKey = key then some (leBytes 8 vnFirstUserIno)
        else if superblockKey = key then
          some (codec.serialize vivefsSuperBlock)
        else none := by
  rw [formattedStore, Store.applyBatch_meta]
  rfl

theorem formattedStore_data (key : Bytes) :
    (formattedStore codec).dataCf[key]? = none := by
  rw [formattedStore, Store.applyBatch_data]
  rfl

theorem formattedStore_shape :
    StoreShape codec (formattedStore codec) vnFirstUserIno where
  superblock := by
    rw [formattedStore_meta, if_neg superblockKey_ne_inodeSeedKey.symm,
      if_pos rfl]
  values key v hv hkey := by
    rw [formattedStore_meta] at hv
    split at hv
    · exact Or.inl ⟨vnFirstUserIno, Nat.le_refl _, (Option.some.inj hv).symm⟩
    · rw [if_neg hkey.symm] at hv
      cases hv
  extents key e he := by
    rw [formattedStore_data] at he
    cases he

/-- The state of a formatted, unmounted file system. -/
theorem Formatted.world_eq (h : Formatted codec s) :
    s.world.db = formattedStore codec ∧ Calm s.world := by
  obtain ⟨clock, r, hrun, -⟩ := h
  rw [exec_vnMkfsVivefs (w := blankWorld clock) rfl] at hrun
  obtain ⟨-, hw⟩ := Prod.mk.inj (Except.ok.inj hrun)
  rw [← hw]
  exact ⟨rfl, rfl⟩

theorem Formatted.inv (h : Formatted codec s) :
    SysInv codec s vnFirstUserIno := by
  obtain ⟨hdb, hcalm⟩ := h.world_eq
  obtain ⟨-, -, -, hm, hinodes, hfiles⟩ := h
  exact {
    calm := hcalm
    shape := by rw [hdb]; exact formattedStore_shape
    seed := by rw [hdb, formattedStore_meta, if_pos rfl]
    low := Nat.le_refl _
    high := by decide
    counter := fun h => by rw [hm] at h; cases h
    inodes := fun _ _ h => by rw [hinodes] at h; cases h
    files := fun _ _ h => by rw [hfiles] at h; cases h }

theorem step_of_mounted (hm : s.mounted = true) :
    s.step codec call = s.stepMounted call := by
  unfold Sys.step
  rw [if_pos hm]

/-- A file system just formatted and mounted. -/
def mountedSys (codec : SuperblockCodec) (clock : UInt64) (addr : Nat) :
    Sys where
  world := { (blankWorld clock).synced (formatOps codec) with
    inodeSeed := vnFirstUserIno }
  mounted := true
  inodes := Function.update (fun _ => none) addr
    (some { rootInode clock with refCnt := 2 })
  files := fun _ => none

theorem mountedSys_db (clock : UInt64) (addr : Nat) :
    (mountedSys codec clock addr).world.db = formattedStore codec := rfl

/-- It is the first mounted state of every run. -/
theorem run_mountedSys {ok : Sys → Call → Prop} (clock : UInt64)
    {addr : Nat} (hok : ∀ s, ok s (.mount addr)) :
    SysRun codec ok [.call (.mount addr) 0 false]
      (mountedSys codec clock addr) := by
  let blank : Sys := ⟨(blankWorld clock).synced (formatOps codec), false,
    fun _ => none, fun _ => none⟩
  have hformat : Formatted codec blank :=
    ⟨clock, 0, exec_vnMkfsVivefs rfl, rfl, rfl, rfl⟩
  have inv := hformat.inv
  refine .step (.init hformat) (.call (hok blank) ?_)
  show ((vnMount codec).exec blank.world >>= _) = _
  rw [exec_vnMount inv.calm inv.seed inv.high inv.shape.superblock]
  rfl

/-- A codec that lays the superblock's two fields end to end. -/
def plainCodec : SuperblockCodec where
  serialize sb := sb.magic ++ leBytes 4 sb.version
  deserialize b := some ⟨b.take 8, leNat (b.drop 8)⟩
  round_trip := by decide

/-- A freshly mounted file system makes any file, as number 12. -/
theorem exec_vnCreateFile_first (clock : UInt64) (addr : Nat)
    (parent : Int) (name : FileName) (mode uid gid : UInt16) :
    (vnCreateFile parent name mode uid gid).exec
        (mountedSys codec clock addr).world
      = .ok ((vnFirstUserIno,
            some (newInode vnFirstUserIno mode uid gid clock)),
          (mountedSys codec clock addr).world.drawn.committed .metaOpt
            (createOps parent name vnFirstUserIno
              (newInode vnFirstUserIno mode uid gid clock))) := by
  have hcalm : Calm (mountedSys codec clock addr).world := rfl
  have hseed : vnFirstUserIno + 1 < 2 ^ 63 := by decide
  refine exec_vnCreateFile_fresh hcalm hseed mode uid gid ?_
  rw [mountedSys_db, formattedStore_meta,
    if_neg (fileKey_ne_inodeSeedKey parent name).symm,
    if_neg (fileKey_ne_superblockKey parent name).symm]

/-- A file's name, for examples. -/
def nameA : FileName := ⟨[97], nul_not_mem_letter⟩

/-- A file system with one file in it, number 12, under the root. -/
def oneFileSys (codec : SuperblockCodec) (clock : UInt64) (addr : Nat) :
    Sys :=
  { mountedSys codec clock addr with
    world := (mountedSys codec clock addr).world.drawn.committed .metaOpt
      (createOps vnRootIno nameA vnFirstUserIno
        (newInode vnFirstUserIno 0 0 0 clock)) }

theorem step_create_first (clock : UInt64) (addr : Nat) {out : Option Nat}
    (hfree : (mountedSys codec clock addr).freeAddr out = true) :
    (mountedSys codec clock addr).step codec
        (.create out vnRootIno nameA 0 0 0)
      = .ok (vnFirstUserIno, (oneFileSys codec clock addr).setInode out
          (some (newInode vnFirstUserIno 0 0 0 clock))) := by
  have hm : (mountedSys codec clock addr).mounted = true := rfl
  rw [step_of_mounted hm, Sys.stepMounted, if_pos hfree,
    exec_vnCreateFile_first]
  cases out <;> rfl

theorem run_oneFileSys {ok : Sys → Call → Prop} (clock : UInt64)
    {addr : Nat} (hmount : ∀ s, ok s (.mount addr))
    (hcreate : ∀ s, ok s (.create none vnRootIno nameA 0 0 0)) :
    SysRun codec ok [.call (.create none vnRootIno nameA 0 0 0)
        vnFirstUserIno true, .call (.mount addr) 0 false]
      (oneFileSys codec clock addr) :=
  .step (run_mountedSys clock hmount)
    (.call (hcreate _) (step_create_first clock addr rfl))

theorem oneFileSys_entry (clock : UInt64) (addr : Nat) :
    (oneFileSys codec clock addr).world.db.metaCf[fileKey vnRootIno nameA]?
      = some (leBytes 8 vnFirstUserIno) := by
  show (Store.applyBatch _ (createOps ..)).metaCf[_]? = _
  rw [createOps_meta, if_neg (fileKey_ne_inodeSeedKey _ _).symm,
    if_neg (fileKey_ne_inodeKey (by decide) _ _).symm, if_pos rfl]

theorem oneFileSys_record (clock : UInt64) (addr : Nat) :
    (oneFileSys codec clock addr).world.db.metaCf[inodeKey vnFirstUserIno]?
      = some (newInode vnFirstUserIno 0 0 0 clock).toBytes := by
  show (Store.applyBatch _ (createOps ..)).metaCf[_]? = _
  rw [createOps_meta, if_neg (inodeKey_ne_inodeSeedKey _).symm, if_pos rfl]

theorem oneFileSys_seed (clock : UInt64) (addr : Nat) :
    (oneFileSys codec clock addr).world.db.metaCf[inodeSeedKey]?
      = some (leBytes 8 (vnFirstUserIno + 1)) := by
  show (Store.applyBatch _ (createOps ..)).metaCf[_]? = _
  rw [createOps_meta, if_pos rfl]

theorem oneFileSys_superblock (clock : UInt64) (addr : Nat) :
    (oneFileSys codec clock addr).world.db.metaCf[superblockKey]?
      = some (codec.serialize vivefsSuperBlock) := by
  show (Store.applyBatch _ (createOps ..)).metaCf[_]? = _
  rw [createOps_meta, if_neg superblockKey_ne_inodeSeedKey.symm,
    if_neg (inodeKey_ne_superblockKey _),
    if_neg (fileKey_ne_superblockKey _ _)]
  exact formattedStore_shape.superblock

theorem nul_not_mem_second : (0 : UInt8) ∉ ([98] : Bytes) := by decide

/-- A second name, which is free there. -/
def nameB : FileName := ⟨[98], nul_not_mem_second⟩

theorem oneFileSys_nameB (clock : UInt64) (addr : Nat) :
    (oneFileSys codec clock addr).world.db.metaCf[fileKey vnRootIno nameB]?
      = none := by
  have hne : fileKey vnRootIno nameA ≠ fileKey vnRootIno nameB := by
    intro h
    exact absurd (fileKey_inj h).2 (by decide)
  show (Store.applyBatch _ (createOps ..)).metaCf[_]? = _
  rw [createOps_meta, if_neg (fileKey_ne_inodeSeedKey _ _).symm,
    if_neg (fileKey_ne_inodeKey (by decide) _ _).symm, if_neg hne, drawn_db,
    mountedSys_db, formattedStore_meta,
    if_neg (fileKey_ne_inodeSeedKey _ _).symm,
    if_neg (fileKey_ne_superblockKey _ _).symm]

/-- So is the record of the next number. -/
theorem oneFileSys_unused (clock : UInt64) (addr : Nat) :
    (oneFileSys codec clock addr).world.db.metaCf[inodeKey
      (vnFirstUserIno + 1)]? = none := by
  have hne : inodeKey vnFirstUserIno ≠ inodeKey (vnFirstUserIno + 1) := by
    intro h
    exact absurd (inodeKey_inj (by decide) (by decide) h) (by decide)
  show (Store.applyBatch _ (createOps ..)).metaCf[_]? = _
  rw [createOps_meta, if_neg (inodeKey_ne_inodeSeedKey _).symm, if_neg hne,
    if_neg (fileKey_ne_inodeKey (by decide) _ _), drawn_db, mountedSys_db,
    formattedStore_meta, if_neg (inodeKey_ne_inodeSeedKey _).symm,
    if_neg (inodeKey_ne_superblockKey _).symm]

-- --------------------------------------------------- calls that return

/-- An open of a file that is there, without truncation. -/
theorem step_openFile (hcalm : Calm s.world) (hm : s.mounted = true)
    {fd addr : Nat} (haddr : s.inodes addr = none) (hfd : s.files fd = none)
    {parent : Int} {name : FileName} {flags : UInt32} (mode : UInt16)
    {v : Bytes} {n : ViveInode}
    (hkey : s.world.db.metaCf[fileKey parent name]? = some v)
    (hlen : 8 ≤ v.length) (hflag : hasFlag flags oTrunc = false)
    (hrec : s.world.db.metaCf[inodeKey (leNat (v.take 8))]?
      = some n.toBytes) :
    s.step codec (.openFile fd addr parent name flags mode)
      = .ok (n.iNo.toNat, s.setFile fd addr (opened n flags)) := by
  have hfree : s.freeAddr (some addr) = true ∧ (s.files fd).isNone = true := by
    rw [Sys.freeAddr, haddr, hfd]
    exact ⟨rfl, rfl⟩
  rw [step_of_mounted hm, Sys.stepMounted, if_pos hfree,
    exec_vnOpenFile_found hcalm flags mode hkey hlen,
    exec_openByNumber_plain hcalm hflag hrec]
  rfl

/-- A write through an open handle. -/
theorem step_write (hcalm : Calm s.world) (hm : s.mounted = true)
    {fd addr : Nat} {f : ViveFile} (hfile : s.file fd = some (addr, f))
    (hE : 0 < f.inode.iExtentSize.toNat) (data : Bytes) (offset : Nat)
    (hend : offset + data.length < 2 ^ 63) :
    s.step codec (.write fd data offset)
      = .ok (data.length, { s with
          world := s.world.committed .dataOpt
            (writeOps f.iNo.toNat f.inode.iExtentSize.toNat offset data
              ++ growOps f s.world.clock (offset + data.length)) }.setFile
          fd addr (wroteFile f s.world.clock (offset + data.length))) := by
  rw [step_of_mounted hm, Sys.stepMounted, Sys.onFile, hfile]
  show ((vnWrite f data offset).exec s.world >>= _) = _
  rw [exec_vnWrite hcalm f hE hend]
  rfl

-- ------------------------------------------------------- every state

/-- Every state of a run keeps its numbers below the committed seed. -/
theorem reachable_inv {ok : Sys → Call → Prop}
    (hok : ∀ s call, ok s call → Admissible s call)
    (h : Reachable codec ok s) : ∃ c, SysInv codec s c := by
  obtain ⟨tr, hrun⟩ := h
  refine hrun.invariant (I := fun _ s => ∃ c, SysInv codec s c)
    (fun s h => ⟨_, h.inv⟩) ?_
  rintro tr s e s' ⟨c, inv⟩ (⟨clock⟩ | ⟨hadm, hstep⟩)
  · exact ⟨c, inv.withWorld inv.calm inv.shape inv.seed inv.counter⟩
  · have hadm := hok _ _ hadm
    obtain ⟨c', -, inv'⟩ := (step_effect inv hadm hstep).inv inv hadm
    exact ⟨c', inv'⟩

end ViveNas
