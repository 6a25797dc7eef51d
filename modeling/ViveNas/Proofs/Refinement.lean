/-
The extents of a file refine a flat file.

A run on one file is a list of `FileOp`s: writes, scattered writes and
truncating opens, each through the in-memory inode the run holds at the
time. `FileOp.run` is the code, `FileOp.flat` is the same step on a byte
array that grows by zeros.

# The simulation

`Sim` ties the two together. Its pages clause says what every extent
resolves to, and its absent clause that there is no extent past the end
of the file: without it a truncation, which deletes the extents the size
covers, could leave stale bytes behind for a later write to uncover.
-/
import ViveNas.Proofs.System
import ViveNas.Proofs.Batches

namespace ViveNas

open LittleEndian Paging FlatFile

-- ================================================================= runs

/-- One step of a run on a file. Handles differ in their flags only; an
open by name replaces the in-memory inode, an open by inode keeps it. -/
inductive FileOp where
  | write (noatime dirty : Bool) (data : Bytes) (offset : Nat)
  | writev (noatime dirty : Bool) (iov : List Bytes) (offset : Nat)
  | truncByInode (flags : UInt32)
  | truncByName (flags : UInt32) (mode : UInt16)
  | tick (clock : UInt64)

namespace FileOp

/-- The step, through the in-memory inode. -/
def run (parent : Int) (name : FileName) :
    FileOp → World × ViveInode → Except Fault (World × ViveInode)
  | write noatime dirty data offset, (w, inode) => do
      let ((_, f), w) ←
        (vnWrite ⟨inode, inode.iNo, noatime, dirty⟩ data offset).exec w
      return (w, f.inode)
  | writev noatime dirty iov offset, (w, inode) => do
      let ((_, f), w) ←
        (vnWritev ⟨inode, inode.iNo, noatime, dirty⟩ iov offset).exec w
      return (w, f.inode)
  | truncByInode flags, (w, inode) => do
      let ((_, inode), w) ← (vnOpenFileByInode inode flags).exec w
      return (w, inode)
  | truncByName flags mode, (w, inode) => do
      let (f, w) ← (vnOpenFile parent name flags mode).exec w
      match f with
      | none => return (w, inode)
      | some f => return (w, f.inode)
  | tick clock, (w, inode) => return ({ w with clock := clock }, inode)

/-- The step on the flat file. -/
def flat (f : Bytes) : FileOp → Bytes
  | write _ _ data offset => FlatFile.write 0 f offset data
  | writev _ _ iov offset => FlatFile.write 0 f offset iov.flatten
  | truncByInode _ => []
  | truncByName _ _ => []
  | tick _ => f

/-- A write has data and ends within `off_t`; an open truncates. -/
def Ok : FileOp → Prop
  | write _ _ data offset =>
      0 < data.length ∧ offset + data.length < 2 ^ 63
  | writev _ _ iov offset =>
      0 < iov.flatten.length ∧ offset + iov.flatten.length < 2 ^ 63
  | truncByInode flags => hasFlag flags oTrunc = true
  | truncByName flags _ => hasFlag flags oTrunc = true
  | tick _ => True

end FileOp

/-- A whole run. -/
def runFile (parent : Int) (name : FileName) (ops : List FileOp)
    (st : World × ViveInode) : Except Fault (World × ViveInode) :=
  ops.foldlM (fun st op => op.run parent name st) st

/-- The same run on the flat file, from the empty one. -/
def flatFile (ops : List FileOp) : Bytes := ops.foldl FileOp.flat []

-- ======================================================== the refinement

/-- The store and the in-memory inode represent the flat file `f`, and
whatever is not this file's is as it was in `db₀`. -/
structure Refines (db₀ : Store) (ino : Nat) (w : World) (inode : ViveInode)
    (f : Bytes) : Prop where
  bytes : ∀ i < 2 ^ 64, ∀ p < vivefsExtentSize,
    extentByte w.db ino i p = byte 0 f (i * vivefsExtentSize + p)
  memorySize : inode.iSize.toNat = f.length
  committedSize : ∃ n : ViveInode,
    w.db.metaCf[inodeKey ino]? = some n.toBytes
      ∧ n.iSize.toNat = f.length
  extents : ∀ i < 2 ^ 64, w.db.dataCf[vnExtentKey i ino]? ≠ none →
    i * vivefsExtentSize < f.length
  otherExtents : ∀ key, NotExtentOf ino key →
    w.db.dataCf[key]? = db₀.dataCf[key]?
  otherRecords : ∀ key, inodeKey ino ≠ key →
    w.db.metaCf[key]? = db₀.metaCf[key]?

/-- The inode is the file's and has the file's size. -/
structure Describes (n : ViveInode) (ino size : Nat) : Prop where
  number : n.iNo.toNat = ino
  size : n.iSize.toNat = size
  extentSize : n.iExtentSize.toNat = vivefsExtentSize

/-- What a run keeps between its steps. -/
structure Sim (db₀ : Store) (ino : Nat) (w : World) (inode : ViveInode)
    (f : Bytes) : Prop where
  calm : Calm w
  bound : f.length < 2 ^ 63
  memory : Describes inode ino f.length
  record : ∃ n : ViveInode, w.db.metaCf[inodeKey ino]? = some n.toBytes
    ∧ Describes n ino f.length
  pages : ∀ i < 2 ^ 64, Holds w.db.dataCf[vnExtentKey i ino]?
    (page 0 vivefsExtentSize f i)
  absent : ∀ i < 2 ^ 64, f.length ≤ i * vivefsExtentSize →
    w.db.dataCf[vnExtentKey i ino]? = none
  otherExtents : ∀ key, NotExtentOf ino key →
    w.db.dataCf[key]? = db₀.dataCf[key]?
  otherRecords : ∀ key, inodeKey ino ≠ key →
    w.db.metaCf[key]? = db₀.metaCf[key]?

section Simulation

variable {db₀ : Store} {ino : Nat} {w : World} {inode : ViveInode} {f : Bytes}

theorem Sim.refines (sim : Sim db₀ ino w inode f) :
    Refines db₀ ino w inode f where
  bytes i hi p hp := by
    rw [(sim.pages i hi).extentByte, List.getD_eq_getElem?_getD,
      page_getElem? hp]
    rfl
  memorySize := sim.memory.size
  committedSize := by
    obtain ⟨n, hn, hdesc⟩ := sim.record
    exact ⟨n, hn, hdesc.size⟩
  extents i hi hne := by
    by_contra hpast
    exact hne (sim.absent i hi (by omega))
  otherExtents := sim.otherExtents
  otherRecords := sim.otherRecords

theorem Sim.ino_lt (sim : Sim db₀ ino w inode f) : ino < 2 ^ 64 := by
  rw [← sim.memory.number]
  exact inode.iNo.toNat_lt

-- ========================================================= the write step

/-- A committed write keeps the simulation, whichever handle on the inode
it went through. -/
theorem Sim.wrote (sim : Sim db₀ ino w inode f) {file : ViveFile}
    (hfile : file.inode = inode) {data : Bytes} {offset : Nat}
    (hend : offset + data.length < 2 ^ 63) :
    Sim db₀ ino
      (w.committed .dataOpt (writeOps ino vivefsExtentSize offset data
        ++ growOps file w.clock (offset + data.length)))
      (wroteFile file w.clock (offset + data.length)).inode
      (FlatFile.write 0 f offset data) := by
  have hino := sim.ino_lt
  have hbound := sim.bound
  have hmem := hfile ▸ sim.memory
  have hlen := write_length (0 : UInt8) f offset data
  have hdesc : Describes
      (wroteFile file w.clock (offset + data.length)).inode ino
      (FlatFile.write 0 f offset data).length := by
    refine ⟨?_, ?_, ?_⟩
    · rw [wroteFile_iNo]
      exact hmem.number
    · rw [wroteFile_iSize file _ (by omega), hmem.size, hlen]
    · rw [wroteFile_iExtentSize]
      exact hmem.extentSize
  exact {
    calm := sim.calm.committed _ _
    bound := by
      rw [hlen]
      omega
    memory := hdesc
    record := by
      rw [committed_db, writeOps_meta, hmem.number, hmem.size]
      by_cases hgrow : f.length < offset + data.length
      · rw [if_pos ⟨hgrow, rfl⟩]
        exact ⟨_, rfl, hdesc⟩
      · rw [if_neg fun h => hgrow h.1, hlen, Nat.max_eq_left (by omega)]
        exact sim.record
    pages := fun i hi => by
      rw [committed_db, writeOps_extent w.db hino extentSize_pos
        extentSize_le hend file w.clock hi]
      split
      case isTrue hin => exact segmentOp_holds (sim.pages i hi) hin.1
      case isFalse hout =>
        rw [page_write_of_outside
          (outside_of_not_reached extentSize_pos hout)]
        exact sim.pages i hi
    absent := fun i hi hpast => by
      rw [hlen] at hpast
      rw [committed_db, writeOps_extent w.db hino extentSize_pos
        extentSize_le hend file w.clock hi, if_neg]
      · exact sim.absent i hi (by omega)
      · intro hin
        have := begins_before_end extentSize_pos hin.2
        omega
    otherExtents := fun key hkey =>
      (writeOps_data w.db hkey file w.clock _).trans
        (sim.otherExtents key hkey)
    otherRecords := fun key hkey => by
      rw [committed_db, writeOps_meta, hmem.number, if_neg fun h => hkey h.2]
      exact sim.otherRecords key hkey }

/-- `vn_write` through the in-memory inode. -/
theorem Sim.exec_write (sim : Sim db₀ ino w inode f) (noatime dirty : Bool)
    {data : Bytes} {offset : Nat} (hend : offset + data.length < 2 ^ 63) :
    ∃ f' w', (vnWrite ⟨inode, inode.iNo, noatime, dirty⟩ data offset).exec w
        = .ok ((data.length, f'), w')
      ∧ Sim db₀ ino w' f'.inode (FlatFile.write 0 f offset data) := by
  have hrun := exec_vnWrite sim.calm ⟨inode, inode.iNo, noatime, dirty⟩
    (by rw [sim.memory.extentSize]; exact extentSize_pos) hend
  rw [sim.memory.extentSize, sim.memory.number] at hrun
  exact ⟨_, _, hrun, sim.wrote rfl hend⟩

-- ====================================================== the truncation step

/-- A committed truncation leaves the empty file. -/
theorem Sim.truncated (sim : Sim db₀ ino w inode f) {n inode' : ViveInode}
    (hn : Describes n ino f.length) (hinode' : Describes inode' ino 0) :
    Sim db₀ ino
      (w.committed .metaOpt (truncOps n
        ((f.length + vivefsExtentSize - 1) / vivefsExtentSize)))
      inode' [] := by
  have hbound := sim.bound
  have hle := roundUp_le extentSize_pos f.length
  have hcover := le_roundUp_mul extentSize_pos f.length
  have hgone : ∀ i < 2 ^ 64, (w.committed .metaOpt (truncOps n
      ((f.length + vivefsExtentSize - 1)
        / vivefsExtentSize))).db.dataCf[vnExtentKey i ino]? = none := by
    intro i hi
    rw [committed_db, ← hn.number, truncOps_extent w.db (by omega) hi,
      hn.number]
    split
    case isTrue => rfl
    case isFalse hpast =>
      refine sim.absent i hi (Nat.le_trans hcover ?_)
      exact Nat.mul_le_mul_right _ (by omega)
  exact {
    calm := sim.calm.committed _ _
    bound := by decide
    memory := hinode'
    record := by
      refine ⟨{ n with iSize := 0 }, ?_, hn.number, rfl, hn.extentSize⟩
      rw [committed_db, truncOps_meta, hn.number, if_pos rfl]
    pages := fun i hi => by
      rw [hgone i hi, page_nil]
      exact holds_none
    absent := fun i hi _ => hgone i hi
    otherExtents := fun key hkey =>
      (truncOps_data w.db (hn.number ▸ hkey) _).trans
        (sim.otherExtents key hkey)
    otherRecords := fun key hkey => by
      rw [committed_db, truncOps_meta, hn.number, if_neg hkey]
      exact sim.otherRecords key hkey }

/-- The extents a truncation deletes are those the file has. -/
theorem Describes.extentCount {n : ViveInode} {size : Nat}
    (hn : Describes n ino size) (hsize : size < 2 ^ 63) :
    extentCount n
      = .ok ((size + vivefsExtentSize - 1) / vivefsExtentSize) := by
  rw [extentCount_ok (by rw [hn.extentSize]; exact extentSize_pos)
    (by rw [hn.size]; exact hsize), hn.size, hn.extentSize]

/-- `vn_open_file_by_inode` with O_TRUNC. -/
theorem Sim.exec_truncByInode (sim : Sim db₀ ino w inode f) {flags : UInt32}
    (hflag : hasFlag flags oTrunc = true) :
    ∃ out w', (vnOpenFileByInode inode flags).exec w = .ok (out, w')
      ∧ Sim db₀ ino w' out.2 [] := by
  obtain ⟨n, hn, -⟩ := sim.record
  have hrec : w.db.metaCf[inodeKey inode.iNo.toNat]? = some n.toBytes := by
    rw [sim.memory.number]
    exact hn
  refine ⟨_, _, exec_openByInode_trunc sim.calm inode hflag hrec
    (sim.memory.extentCount sim.bound), sim.truncated sim.memory ?_⟩
  exact ⟨sim.memory.number, rfl, sim.memory.extentSize⟩

/-- The name leads to the file, whatever else its key may be. -/
theorem Sim.entry (sim : Sim db₀ ino w inode f) {parent : Int}
    {name : FileName} {v : Bytes}
    (hkey : db₀.metaCf[fileKey parent name]? = some v)
    (hlen : 8 ≤ v.length) (hnum : leNat (v.take 8) = ino) :
    ∃ u, w.db.metaCf[fileKey parent name]? = some u ∧ 8 ≤ u.length
      ∧ leNat (u.take 8) = ino := by
  by_cases hclash : inodeKey ino = fileKey parent name
  · obtain ⟨n, hn, hdesc⟩ := sim.record
    refine ⟨n.toBytes, hclash ▸ hn, ?_, ?_⟩
    · rw [n.toBytes_length]
      decide
    · rw [n.leNat_take_toBytes, hdesc.number]
  · refine ⟨v, ?_, hlen, hnum⟩
    rw [sim.otherRecords _ hclash, hkey]

/-- `vn_open_file` with O_TRUNC. -/
theorem Sim.exec_truncByName (sim : Sim db₀ ino w inode f) {parent : Int}
    {name : FileName} {v : Bytes}
    (hkey : db₀.metaCf[fileKey parent name]? = some v)
    (hlen : 8 ≤ v.length) (hnum : leNat (v.take 8) = ino) {flags : UInt32}
    (hflag : hasFlag flags oTrunc = true) (mode : UInt16) :
    ∃ f' w', (vnOpenFile parent name flags mode).exec w = .ok (some f', w')
      ∧ Sim db₀ ino w' f'.inode [] := by
  obtain ⟨u, hu, hulen, hunum⟩ := sim.entry hkey hlen hnum
  obtain ⟨n, hn, hdesc⟩ := sim.record
  have hown : w.db.metaCf[inodeKey n.iNo.toNat]? = some n.toBytes := by
    rw [hdesc.number]
    exact hn
  have hrun := exec_openByNumber_trunc sim.calm hflag hn hown
    (hdesc.extentCount sim.bound)
  rw [← hunum, ← exec_vnOpenFile_found sim.calm flags mode hu hulen] at hrun
  refine ⟨_, _, hrun, sim.truncated ?_ ?_⟩
  · exact ⟨hdesc.number, hdesc.size, hdesc.extentSize⟩
  · exact ⟨hdesc.number, rfl, hdesc.extentSize⟩

end Simulation

-- ============================================================== the runs

/-- The file a create made, empty. -/
theorem sim_created {codec : SuperblockCodec} {s : Sys} {c : Nat}
    (inv : SysInv codec s c) (hm : s.mounted = true) (parent : Int)
    (name : FileName) (mode uid gid : UInt16)
    (hseed : s.world.inodeSeed + 1 < 2 ^ 63) :
    Sim (s.world.db.applyBatch (createOps parent name s.world.inodeSeed
          (newInode s.world.inodeSeed mode uid gid s.world.clock)))
      s.world.inodeSeed
      (s.world.drawn.committed .metaOpt
        (createOps parent name s.world.inodeSeed
          (newInode s.world.inodeSeed mode uid gid s.world.clock)))
      (newInode s.world.inodeSeed mode uid gid s.world.clock) [] := by
  have hlt : s.world.inodeSeed < 2 ^ 64 := by omega
  have hdesc : Describes
      (newInode s.world.inodeSeed mode uid gid s.world.clock)
      s.world.inodeSeed 0 := by
    refine ⟨newInode_iNo hlt .., rfl, ?_⟩
    show (UInt32.ofNat vivefsExtentSize).toNat = vivefsExtentSize
    rw [extentSize_eq]
    decide
  -- the number is above every extent there is
  have hnone : ∀ i, (s.world.db.applyBatch
      (createOps parent name s.world.inodeSeed
        (newInode s.world.inodeSeed mode uid gid s.world.clock))).dataCf[
          vnExtentKey i s.world.inodeSeed]? = none := by
    intro i
    rw [Store.applyBatch_data_of_notData]
    · by_contra hsome
      obtain ⟨e, he⟩ := Option.ne_none_iff_exists'.mp hsome
      obtain ⟨idx, ino, hkey, hino⟩ := inv.shape.extents _ e he
      have hcs := (inv.counter hm).1
      exact notExtentOf_of_ne i (by omega) hlt
        (show ino ≠ s.world.inodeSeed by omega) idx hkey.symm
    · intro op hop
      simp only [createOps, List.mem_cons, List.not_mem_nil, or_false] at hop
      rcases hop with rfl | rfl | rfl <;> exact fun h => by cases h
  exact {
    calm := inv.calm
    bound := by decide
    memory := hdesc
    record := by
      refine ⟨_, ?_, hdesc⟩
      rw [committed_db, drawn_db, createOps_meta,
        if_neg (inodeKey_ne_inodeSeedKey _).symm, if_pos rfl]
    pages := fun i _ => by
      rw [page_nil]
      exact (hnone i).symm ▸ holds_none
    absent := fun i _ _ => hnone i
    otherExtents := fun _ _ => rfl
    otherRecords := fun _ _ => rfl }

section Runs

variable {db₀ : Store} {ino : Nat} {parent : Int} {name : FileName}
  {v : Bytes} (hkey : db₀.metaCf[fileKey parent name]? = some v)
  (hlen : 8 ≤ v.length) (hnum : leNat (v.take 8) = ino)
include hkey hlen hnum

/-- One step returns, and the flat file follows it. -/
theorem Sim.step {w : World} {inode : ViveInode} {f : Bytes}
    (sim : Sim db₀ ino w inode f) {op : FileOp} (hop : op.Ok) :
    ∃ w' inode', op.run parent name (w, inode) = .ok (w', inode')
      ∧ Sim db₀ ino w' inode' (op.flat f) := by
  cases op with
  | write noatime dirty data offset =>
      obtain ⟨f', w', hrun, sim'⟩ := sim.exec_write noatime dirty hop.2
      refine ⟨w', f'.inode, ?_, sim'⟩
      rw [FileOp.run, hrun]
      rfl
  | writev noatime dirty iov offset =>
      obtain ⟨hpos, hend⟩ := hop
      obtain ⟨f', w', hrun, sim'⟩ := sim.exec_write noatime dirty hend
      refine ⟨w', f'.inode, ?_, sim'⟩
      rw [FileOp.run, vnWritev_eq _ hpos (by omega), hrun]
      rfl
  | truncByInode flags =>
      obtain ⟨out, w', hrun, sim'⟩ := sim.exec_truncByInode hop
      refine ⟨w', out.2, ?_, sim'⟩
      rw [FileOp.run, hrun]
      rfl
  | truncByName flags mode =>
      obtain ⟨f', w', hrun, sim'⟩ :=
        sim.exec_truncByName hkey hlen hnum hop mode
      refine ⟨w', f'.inode, ?_, sim'⟩
      rw [FileOp.run, hrun]
      rfl
  | tick clock => exact ⟨_, _, rfl, { sim with calm := sim.calm }⟩

/-- A run of any length. -/
theorem Sim.run {w : World} {inode : ViveInode} {f : Bytes}
    (sim : Sim db₀ ino w inode f) {ops : List FileOp}
    (hops : ∀ op ∈ ops, op.Ok) :
    ∃ w' inode', runFile parent name ops (w, inode) = .ok (w', inode')
      ∧ Sim db₀ ino w' inode' (ops.foldl FileOp.flat f) := by
  induction ops generalizing w inode f with
  | nil => exact ⟨w, inode, rfl, sim⟩
  | cons op ops ih =>
      obtain ⟨w₁, inode₁, hrun₁, sim₁⟩ :=
        sim.step hkey hlen hnum (hops op (List.mem_cons_self ..))
      obtain ⟨w₂, inode₂, hrun₂, sim₂⟩ :=
        ih sim₁ fun o ho => hops o (List.mem_cons_of_mem _ ho)
      refine ⟨w₂, inode₂, ?_, sim₂⟩
      rw [runFile, List.foldlM_cons, hrun₁]
      exact hrun₂

end Runs

/-- The extents refine a flat file: on an inode that `vn_create_file`
made in any reachable state, every run of writes and truncations returns,
and after it the extents, both sizes and everything that is not this
file's are what the flat file says. -/
theorem created_file_refines {codec : SuperblockCodec} {s : Sys}
    (hreach : Reachable codec Admissible s) (hm : s.mounted = true)
    {parent : Int} {name : FileName} {mode uid gid : UInt16} {r : Int}
    {inode : ViveInode} {w : World}
    (hcreate : (vnCreateFile parent name mode uid gid).exec s.world
      = .ok ((r, some inode), w))
    {ops : List FileOp} (hops : ∀ op ∈ ops, op.Ok) :
    ∃ w' inode', runFile parent name ops (w, inode) = .ok (w', inode')
      ∧ Refines w.db inode.iNo.toNat w' inode' (flatFile ops) := by
  obtain ⟨c, inv⟩ := reachable_inv (fun _ _ h => h) hreach
  by_cases hseed : s.world.inodeSeed + 1 < 2 ^ 63
  case neg =>
    rw [exec_vnCreateFile_overflow hseed] at hcreate
    cases hcreate
  case pos =>
    cases hkey : s.world.db.metaCf[fileKey parent name]? with
    | some v =>
        rw [exec_vnCreateFile_exists inv.calm hseed mode uid gid
          hkey] at hcreate
        cases hcreate
    | none =>
        rw [exec_vnCreateFile_fresh inv.calm hseed mode uid gid
          hkey] at hcreate
        cases hcreate
        have hlt : s.world.inodeSeed < 2 ^ 64 := by omega
        obtain ⟨v, hentry, hnum⟩ := createOps_entry s.world.db parent name
          hlt mode uid gid s.world.clock
        have inv₁ := inv.create parent name mode uid gid hm hseed
        have hlen : 8 ≤ v.length := (inv₁.entry_value hentry).eight_le
        obtain ⟨w', inode', hrun, sim⟩ :=
          (sim_created inv hm parent name mode uid gid hseed).run hentry hlen
            hnum hops
        rw [newInode_iNo hlt]
        exact ⟨w', inode', hrun, sim.refines⟩

/-- A write past a hole, a truncation by name, and a scattered write that
crosses from the first extent into the second. -/
def sampleRun : List FileOp :=
  [.write false false [1, 2] 70000, .truncByName oTrunc 0,
    .writev false false [[3], [], [4, 5]] 65534]

theorem created_file_refines_sampleRun :
    Reachable plainCodec Admissible (mountedSys plainCodec 0 0)
      ∧ ∃ w' inode', runFile 2 nameA sampleRun
          ((mountedSys plainCodec 0 0).world.drawn.committed .metaOpt
            (createOps 2 nameA 12 (newInode 12 0 0 0 0)),
            newInode 12 0 0 0 0) = .ok (w', inode')
        ∧ Refines ((mountedSys plainCodec 0 0).world.drawn.committed .metaOpt
            (createOps 2 nameA 12 (newInode 12 0 0 0 0))).db
          (newInode 12 0 0 0 0).iNo.toNat w' inode' (flatFile sampleRun) := by
  have hreach : Reachable plainCodec Admissible (mountedSys plainCodec 0 0) :=
    ⟨_, run_mountedSys 0 fun _ => Call.Plain.admissible trivial⟩
  refine ⟨hreach, created_file_refines hreach rfl
    (exec_vnCreateFile_first 0 0 2 nameA 0 0 0) ?_⟩
  intro op hop
  simp only [sampleRun, List.mem_cons, List.not_mem_nil, or_false] at hop
  rcases hop with rfl | rfl | rfl
  · exact ⟨by decide, by decide⟩
  · exact show hasFlag oTrunc oTrunc = true by decide
  · exact ⟨by decide, by decide⟩

end ViveNas
