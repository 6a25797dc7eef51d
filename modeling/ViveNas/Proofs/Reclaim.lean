/-
Which extents belong to someone.

`Owned` says that every extent in data_cf belongs to an inode some entry
names and begins below that inode's committed size. It is a fact about
one inode at a time: a write, a truncation or a sync of an inode
concerns that inode's extents and record only (`Tidy.oneFile`). What
breaks it is an unlink, which looks for the extents in default_cf, a
write through a handle whose inode has lost its name, and a handle whose
size is not the committed one.

# The invariant

`Tidy` adds to `Owned` that the records are regular: they have the one
extent size, and a size in range, so that "below the size" can be told
by an extent's index. `MemoryKept` says so of the inodes in memory. Each
kind of step has a lemma, from `Tidy.wrote` to `Tidy.unlinked`; `Tends`
is what a call has to do for them, and `Effect.tidy` names the one that
applies.
-/
import ViveNas.Proofs.Handles
import ViveNas.Proofs.Naming
import ViveNas.Proofs.Refinement

namespace ViveNas

open LittleEndian

-- ============================================================ the invariant

/-- Some entry leads to the number. -/
def Named (db : Store) (ino : Nat) : Prop :=
  ∃ p a, db.metaCf[fileKey p a]? = some (leBytes 8 ino)

/-- Every extent belongs to a named inode, and begins below its committed
size. -/
def Owned (db : Store) : Prop :=
  ∀ idx ino, idx < 2 ^ 64 → ino < 2 ^ 64 →
    db.dataCf[vnExtentKey idx ino]? ≠ none →
    Named db ino ∧ ∃ rec : ViveInode,
      db.metaCf[inodeKey ino]? = some rec.toBytes
        ∧ idx * 65536 < rec.iSize.toNat

/-- A file's inode as `vn_create_file` makes it and writes keep it. -/
def Regular (n : ViveInode) : Prop :=
  n.iExtentSize.toNat = 65536 ∧ n.iSize.toNat < 2 ^ 63

/-- What runs keep of the store. -/
structure Tidy (db : Store) : Prop where
  owned : Owned db
  regular : ∀ n (rec : ViveInode), n < 2 ^ 64 → n ≠ vnRootIno → Apart n →
    db.metaCf[inodeKey n]? = some rec.toBytes → Regular rec

/-- An inode in memory: a file's, or the root's, whose extent size is
never filled in. -/
def Kept (n : ViveInode) : Prop :=
  (n.iNo.toNat = vnRootIno ∧ n.iExtentSize.toNat = 0) ∨ Regular n

/-- What runs keep of the inodes in memory. -/
def MemoryKept (s : Sys) : Prop := ∀ addr n, s.inodes addr = some n → Kept n

theorem Kept.regular_of_ne {n : ViveInode} (h : Kept n)
    (hroot : n.iNo.toNat ≠ vnRootIno) : Regular n :=
  h.resolve_left fun h => hroot h.1

/-- The root cannot be written or truncated. -/
theorem Kept.regular_of_pos {n : ViveInode} (h : Kept n)
    (hE : 0 < n.iExtentSize.toNat) : Regular n :=
  h.resolve_left fun h => by omega

/-- An inode cut to nothing. -/
theorem Regular.emptied {m n : ViveInode} (h : Regular m)
    (hE : n.iExtentSize = m.iExtentSize) (hsize : n.iSize = 0) :
    Regular n := by
  refine ⟨hE ▸ h.1, ?_⟩
  rw [hsize]
  decide

theorem regular_newInode (ino : Nat) (mode uid gid : UInt16)
    (now : UInt64) : Regular (newInode ino mode uid gid now) :=
  ⟨newInode_iExtentSize .., show (0 : UInt64).toNat < 2 ^ 63 by decide⟩

theorem Regular.wroteFile {f : ViveFile} (h : Regular f.inode)
    (now : UInt64) {last : Nat} (hlast : last < 2 ^ 63) :
    Regular (wroteFile f now last).inode := by
  obtain ⟨hE, hsize⟩ := h
  refine ⟨by rw [wroteFile_iExtentSize, hE], ?_⟩
  rw [wroteFile_iSize f now (by omega)]
  omega

theorem MemoryKept.set {s : Sys} (h : MemoryKept s) {addr : Nat}
    {n : ViveInode} (hn : Kept n) :
    ∀ a m, Function.update s.inodes addr (some n) a = some m → Kept m := by
  refine Partial.forall_update (fun m hm => ?_) fun a _ m hm => h a m hm
  cases hm
  exact hn

/-- A step that concerns one inode: its record, if `P`, and its extents. -/
theorem Tidy.oneFile {db db' : Store} (h : Tidy db) {ino : Nat}
    (hino : ino < 2 ^ 64) (hap : Apart ino) {P : Prop} [Decidable P]
    (rec : ViveInode) (hreg : P → ino ≠ vnRootIno → Regular rec)
    (hmeta : ∀ key : Bytes, db'.metaCf[key]?
      = if P ∧ inodeKey ino = key then some rec.toBytes
        else db.metaCf[key]?)
    (hother : ∀ key, NotExtentOf ino key →
      db'.dataCf[key]? = db.dataCf[key]?)
    (hmine : ∀ idx < 2 ^ 64, db'.dataCf[vnExtentKey idx ino]? ≠ none →
      Named db ino ∧ ∃ rec' : ViveInode,
        db'.metaCf[inodeKey ino]? = some rec'.toBytes
          ∧ idx * 65536 < rec'.iSize.toNat) : Tidy db' where
  owned idx ino' hidx hino' hext := by
    have hentry : ∀ n, Named db n → Named db' n := by
      rintro n ⟨p, a, hv⟩
      refine ⟨p, a, ?_⟩
      rw [hmeta, if_neg fun hk => hap p a hk.2.symm, hv]
    by_cases hsame : ino = ino'
    · subst hsame
      obtain ⟨hnamed, hrec⟩ := hmine idx hidx hext
      exact ⟨hentry _ hnamed, hrec⟩
    · rw [hother _ (notExtentOf_of_ne idx hino hino' hsame)] at hext
      obtain ⟨hnamed, rec', hrec, hlt⟩ := h.owned idx ino' hidx hino' hext
      refine ⟨hentry _ hnamed, rec', ?_, hlt⟩
      rw [hmeta, if_neg fun hk => hsame (inodeKey_inj hino hino' hk.2), hrec]
  regular n rec' hn hroot hapn hrec := by
    rw [hmeta] at hrec
    split at hrec
    · next hput =>
      obtain rfl := inodeKey_inj hino hn hput.2
      rw [← ViveInode.toBytes_inj (Option.some.inj hrec)]
      exact hreg hput.1 hroot
    · exact h.regular n rec' hn hroot hapn hrec

-- =============================================================== the steps

/-- The inode in memory has the size that is committed for it. -/
def Current (db : Store) (n : ViveInode) : Prop :=
  ∀ rec : ViveInode, db.metaCf[inodeKey n.iNo.toNat]? = some rec.toBytes →
    rec.iSize = n.iSize

/-- The inode has no extents. -/
def NoExtents (db : Store) (ino : Nat) : Prop :=
  ∀ idx < 2 ^ 64, db.dataCf[vnExtentKey idx ino]? = none

section Steps

variable {db : Store}

/-- A write to a named file through a handle of the committed size. -/
theorem Tidy.wrote (h : Tidy db) {file : ViveFile} {data : Bytes}
    {offset : Nat} {now : UInt64} (hno : file.iNo = file.inode.iNo)
    (hap : Apart file.inode.iNo.toNat) (hreg : Regular file.inode)
    (hend : offset + data.length < 2 ^ 63)
    (hnamed : Named db file.inode.iNo.toNat) {old : ViveInode}
    (hold : db.metaCf[inodeKey file.inode.iNo.toNat]? = some old.toBytes)
    (hcurrent : Current db file.inode) :
    Tidy (db.applyBatch
      (writeOps file.iNo.toNat file.inode.iExtentSize.toNat offset data
        ++ growOps file now (offset + data.length))) := by
  have hino := file.inode.iNo.toNat_lt
  have hwrote := wroteFile_iSize file now
    (show offset + data.length < 2 ^ 64 by omega)
  have hE := hreg.1
  rw [hno]
  refine h.oneFile hino hap (wroteFile file now (offset + data.length)).inode
    (fun _ _ => hreg.wroteFile now hend) (writeOps_meta db file now _)
    (fun key hkey => writeOps_data db hkey file now _) fun idx hidx hext => ?_
  refine ⟨hnamed, ?_⟩
  have hcover : idx * 65536
      < max file.inode.iSize.toNat (offset + data.length) := by
    rw [hE, writeOps_extent db hino (by decide) (by decide) hend file now
      hidx] at hext
    split at hext
    case isTrue hin =>
      have := begins_before_end (by decide) hin.2
      omega
    case isFalse =>
      obtain ⟨-, rec, hrec, hlt⟩ := h.owned idx _ hidx hino hext
      rw [hcurrent rec hrec] at hlt
      omega
  rw [writeOps_meta]
  by_cases hgrow : file.inode.iSize.toNat < offset + data.length
  · rw [if_pos ⟨hgrow, rfl⟩]
    exact ⟨_, rfl, by rw [hwrote]; exact hcover⟩
  · rw [if_neg fun hk => hgrow hk.1]
    refine ⟨old, hold, ?_⟩
    rw [hcurrent old hold]
    omega

/-- A truncation from the committed size leaves no extent. -/
theorem Tidy.truncated (h : Tidy db) {inode : ViveInode} {extents : Nat}
    (hap : Apart inode.iNo.toNat) (hreg : Regular inode)
    (hcurrent : Current db inode)
    (hcount : extentCount inode = .ok extents) :
    Tidy (db.applyBatch (truncOps inode extents)) := by
  have hino := inode.iNo.toNat_lt
  have hE := hreg.1
  have hsize := hreg.2
  rw [extentCount_ok (by omega) hsize, hE, Except.ok.injEq] at hcount
  have hle := roundUp_le (show 0 < 65536 by decide) inode.iSize.toNat
  have hcover := le_roundUp_mul (show 0 < 65536 by decide) inode.iSize.toNat
  refine h.oneFile (P := True) hino hap { inode with iSize := 0 }
    (fun _ _ => hreg.emptied rfl rfl) (fun key => ?_)
    (fun key hkey => truncOps_data db hkey extents) fun idx hidx hext => ?_
  · simp only [true_and]
    exact truncOps_meta db inode extents key
  · exfalso
    rw [truncOps_extent db (by omega) hidx] at hext
    split at hext
    case isTrue => exact hext rfl
    case isFalse hpast =>
      obtain ⟨-, rec, hrec, hlt⟩ := h.owned idx _ hidx hino hext
      rw [hcurrent rec hrec] at hlt
      have := Nat.mul_le_mul_right 65536 (Nat.not_lt.mp hpast)
      omega

/-- A sync of an inode of the committed size. -/
theorem Tidy.synced (h : Tidy db) {file : ViveFile}
    (hap : Apart file.inode.iNo.toNat)
    (hreg : file.inode.iNo.toNat ≠ vnRootIno → Regular file.inode)
    (hcurrent : file.dirty = true → Current db file.inode) :
    Tidy (db.applyBatch (syncOps file)) := by
  have hino := file.inode.iNo.toNat_lt
  have hdata (key : Bytes) := db.applyBatch_data_of_notData
    (syncOps_notData file) key
  refine h.oneFile hino hap file.inode (fun _ => hreg) (syncOps_meta db file)
    (fun key _ => hdata key) fun idx hidx hext => ?_
  rw [hdata] at hext
  obtain ⟨hnamed, rec, hrec, hlt⟩ := h.owned idx _ hidx hino hext
  refine ⟨hnamed, ?_⟩
  rw [syncOps_meta]
  by_cases hdirty : file.dirty = true
  · rw [if_pos ⟨hdirty, rfl⟩]
    exact ⟨_, rfl, by rw [← hcurrent hdirty rec hrec]; exact hlt⟩
  · rw [if_neg fun hk => hdirty hk.1]
    exact ⟨rec, hrec, hlt⟩

end Steps

section Names

variable {codec : SuperblockCodec} {s : Sys} {N : Namespace}

/-- A named number is one of the namespace. -/
theorem NsRel.named (rel : NsRel codec s N) {ino : Nat} (hino : ino < 2 ^ 64)
    (h : Named s.world.db ino) :
    ∃ p a, N.find p a = some ino
      ∧ s.world.db.metaCf[fileKey p a]? = some (leBytes 8 ino) := by
  obtain ⟨p, a, hv⟩ := h
  obtain ⟨n, hn, hkey, -⟩ := rel.found hv
  have hlt := rel.mapped_lt hn
  obtain rfl := leBytes_inj hino (by omega) hkey
  exact ⟨p, a, hn, hv⟩

/-- A step on names: extents stay, and so do the entry and the record of
every number that has some. -/
theorem Tidy.names {db db' : Store} (h : Tidy db)
    (hdata : ∀ key : Bytes, db'.dataCf[key]? = db.dataCf[key]?)
    (hkeep : ∀ ino < 2 ^ 64, Named db ino → ¬ NoExtents db ino →
      Named db' ino ∧ db'.metaCf[inodeKey ino]? = db.metaCf[inodeKey ino]?)
    (hregular : ∀ n (rec : ViveInode), n < 2 ^ 64 → n ≠ vnRootIno →
      Apart n → db'.metaCf[inodeKey n]? = some rec.toBytes → Regular rec) :
    Tidy db' where
  owned idx ino hidx hino hext := by
    rw [hdata] at hext
    obtain ⟨hnamed, rec, hrec, hlt⟩ := h.owned idx ino hidx hino hext
    obtain ⟨hnamed', hsame⟩ := hkeep ino hino hnamed
      fun hnone => hext (hnone idx hidx)
    exact ⟨hnamed', rec, by rw [hsame, hrec], hlt⟩
  regular := hregular

/-- A create gives the new number no extents and takes none away. -/
theorem Tidy.created (h : Tidy s.world.db) (rel : NsRel codec s N)
    (hm : s.mounted = true) {p : Int} {a : FileName} (mode uid gid : UInt16)
    (hseed : s.world.inodeSeed + 1 < 2 ^ 63)
    (hap : Apart s.world.inodeSeed)
    (hkey : s.world.db.metaCf[fileKey p a]? = none) :
    Tidy (s.world.db.applyBatch (createOps p a s.world.inodeSeed
      (newInode s.world.inodeSeed mode uid gid s.world.clock))) := by
  obtain ⟨hle, -⟩ := rel.base.counter hm
  refine h.names (fun key => rfl) (fun ino hino hnamed _ => ?_) ?_
  · obtain ⟨q, b, hfind, hv⟩ := rel.named hino hnamed
    have hused := rel.wellFormed.used q b ino hfind
    refine ⟨⟨q, b, ?_⟩, ?_⟩
    · rw [createOps_meta, if_neg (fileKey_ne_inodeSeedKey q b).symm,
        if_neg (hap q b).symm, if_neg, hv]
      intro hsame
      rw [← hsame, hkey] at hv
      cases hv
    · rw [createOps_meta, if_neg (inodeKey_ne_inodeSeedKey ino).symm, if_neg,
        if_neg ((rel.mapped q b ino hfind).1 p a)]
      intro hsame
      have := inodeKey_inj (by omega) hino hsame
      omega
  · intro n rec hn hroot hapn hrec
    rw [createOps_meta, if_neg (inodeKey_ne_inodeSeedKey n).symm] at hrec
    split at hrec
    · rw [← ViveInode.toBytes_inj (Option.some.inj hrec)]
      exact regular_newInode ..
    · rw [if_neg (hapn p a)] at hrec
      exact h.regular n rec hn hroot hapn hrec

/-- An unlink leaves data_cf alone. -/
theorem unlinkOps_notData (p : Int) (a : FileName) (ino extents : Nat) :
    ∀ op ∈ unlinkOps p a ino extents, op.NotData := by
  intro op hop
  rcases List.mem_append.mp hop with hdel | hentry
  · obtain ⟨j, -, rfl⟩ := List.mem_map.mp hdel
    exact fun hc => by cases hc
  · obtain rfl := List.mem_singleton.mp hentry
    exact fun hc => by cases hc

/-- Unlinking a name whose inode has no extents. -/
theorem Tidy.unlinked (h : Tidy s.world.db) (rel : NsRel codec s N)
    {p : Int} {a : FileName} {n ino extents : Nat} (hn : n < 2 ^ 64)
    (hkey : s.world.db.metaCf[fileKey p a]? = some (leBytes 8 n))
    (hnone : NoExtents s.world.db n) :
    Tidy (s.world.db.applyBatch (unlinkOps p a ino extents)) := by
  refine h.names (s.world.db.applyBatch_data_of_notData
    (unlinkOps_notData p a ino extents)) (fun ino hino hnamed hsome => ?_) ?_
  · obtain ⟨q, b, hfind, hv⟩ := rel.named hino hnamed
    refine ⟨⟨q, b, ?_⟩, ?_⟩
    · rw [unlinkOps_meta, if_neg, hv]
      intro hsame
      rw [← hsame, hkey] at hv
      obtain rfl := leBytes_inj hn hino (Option.some.inj hv)
      exact hsome hnone
    · rw [unlinkOps_meta, if_neg ((rel.mapped q b ino hfind).1 p a)]
  · intro m rec hm hroot hapm hrec
    rw [unlinkOps_meta, if_neg (hapm p a)] at hrec
    exact h.regular m rec hm hroot hapm hrec

/-- A record fetched by its name. -/
theorem Tidy.fetched (h : Tidy s.world.db) (rel : NsRel codec s N)
    {p : Int} {a : FileName} {v : Bytes} {n : ViveInode}
    (hkey : s.world.db.metaCf[fileKey p a]? = some v)
    (hrec : s.world.db.metaCf[inodeKey (leNat (v.take 8))]?
      = some n.toBytes) :
    Apart n.iNo.toNat ∧ Regular n
      ∧ s.world.db.metaCf[inodeKey n.iNo.toNat]? = some n.toBytes := by
  obtain ⟨hfind, hap, -⟩ := rel.fetched hkey hrec
  obtain ⟨ino, hino, -, hnum⟩ := rel.found hkey
  cases hfind.symm.trans hino
  rw [hnum] at hrec
  exact ⟨hap, h.regular _ n n.iNo.toNat_lt (rel.mapped_ne_root hfind) hap hrec,
    hrec⟩

end Names

-- =================================================================== runs

/-- The condition on a call, in the state before it. An unlink is of a file
without extents; a write is to a file that still has a name, through a
handle of its committed size; a close with something to persist, and a
truncating open by inode, are of an inode of its committed size. -/
def Tends (s : Sys) : Call → Prop
  | .create .. | .openFile .. | .mount _ | .umount => True
  | .openByInode _ addr flags => hasFlag flags oTrunc = true →
      ∀ n, s.inodes addr = some n → Current s.world.db n
  | .write fd _ _ | .writev fd _ _ => ∀ addr f, s.file fd = some (addr, f) →
      Named s.world.db f.inode.iNo.toNat ∧ Current s.world.db f.inode
  | .close fd => ∀ addr f, s.file fd = some (addr, f) → f.dirty = true →
      Current s.world.db f.inode
  | .unlink p a => ∀ n, s.world.db.metaCf[fileKey p a]? = some (leBytes 8 n) →
      NoExtents s.world.db n
  | _ => False

section Runs

variable {codec : SuperblockCodec} {s s' : Sys} {N : Namespace}
  {call : Call} {r : Int} {tr : List Event}

theorem Kept.of_same {m n : ViveInode} (h : Kept m) (hno : n.iNo = m.iNo)
    (hE : n.iExtentSize = m.iExtentSize) (hsize : n.iSize = m.iSize) :
    Kept n := by
  rw [Kept, Regular] at h ⊢
  rwa [hno, hE, hsize]

/-- A truncation by an inode in memory, which is of a file then. -/
theorem MemoryKept.regular_of_count (hmem : MemoryKept s) {addr : Nat}
    {n : ViveInode} (hinode : s.inodes addr = some n) {extents : Nat}
    (hcount : extentCount n = .ok extents) : Regular n := by
  refine (hmem _ _ hinode).regular_of_pos ?_
  rw [extentCount] at hcount
  split at hcount
  · cases hcount
  · omega

/-- A write to a file that has a name, through a handle. -/
theorem Tidy.wroteThrough (h : Tidy s.world.db) (rel : NsRel codec s N)
    (hmem : MemoryKept s) {fd addr offset : Nat} {data : Bytes}
    {f : ViveFile} (hcall : call.writes = some (fd, data, offset))
    (hfile : s.file fd = some (addr, f))
    (hE : 0 < f.inode.iExtentSize.toNat)
    (hend : offset + data.length < 2 ^ 63) (htends : Tends s call) :
    Regular f.inode ∧ Tidy (s.world.db.applyBatch
      (writeOps f.iNo.toNat f.inode.iExtentSize.toNat offset data
        ++ growOps f s.world.clock (offset + data.length))) := by
  have hinode := (file_eq_some hfile).2
  have hreg := (hmem _ _ hinode).regular_of_pos hE
  obtain ⟨hnamed, hcurrent⟩ : Named s.world.db f.inode.iNo.toNat
      ∧ Current s.world.db f.inode := by
    cases call with
    | write | writev =>
        cases hcall
        exact htends addr f hfile
    | _ => cases hcall
  obtain ⟨p, a, hfind, -⟩ := rel.named f.inode.iNo.toNat_lt hnamed
  obtain ⟨old, hold, -⟩ := rel.mapped_record hfind
  exact ⟨hreg, h.wrote (rel.base.file_iNo hfile).1
    (rel.memory _ _ hinode).1 hreg hend hnamed hold hcurrent⟩

/-- The create that an open with O_CREAT makes first. -/
theorem Nameable.createFirst {fd addr : Nat} {p : Int} {a : FileName}
    {flags : UInt32} {mode : UInt16}
    (h : Nameable s (.openFile fd addr p a flags mode))
    (hflag : hasFlag flags oCreat = true)
    (hkey : s.world.db.metaCf[fileKey p a]? = none) :
    Nameable s (.create none p a mode 0 0) := by
  have hplain : Call.Plain (.create none p a mode 0 0) := trivial
  exact ⟨hplain.admissible, (hplain.faithful (s := s)).2,
    fun _ => h.2.2 (draws_openFile_of_absent hflag hkey)⟩

/-- The open after it, which finds the name and draws nothing. -/
theorem nameable_openFile_of_found {fd addr : Nat} {p : Int} {a : FileName}
    {flags : UInt32} {mode : UInt16} {v : Bytes}
    (hkey : s.world.db.metaCf[fileKey p a]? = some v) :
    Nameable s (.openFile fd addr p a flags mode) := by
  have hplain : Call.Plain (.openFile fd addr p a flags mode) := trivial
  refine ⟨hplain.admissible, (hplain.faithful (s := s)).2, fun hdraws => ?_⟩
  rw [draws_openFile_of_found hkey] at hdraws
  cases hdraws

/-- One call. -/
theorem Effect.tidy (heff : Effect s call r s') (rel : NsRel codec s N)
    (h : Tidy s.world.db) (hmem : MemoryKept s)
    (hname : Nameable s call) (htends : Tends s call) :
    Tidy s'.world.db ∧ MemoryKept s' := by
  induction heff generalizing N with
  | createTaken hm hseed hkey => exact ⟨h, hmem⟩
  | @createFresh s addr p a mode uid gid hm hfree hseed hkey =>
      have htidy := h.created rel hm mode uid gid hseed (hname.2.2 rfl) hkey
      cases addr with
      | none => exact ⟨htidy, hmem⟩
      | some addr => exact ⟨htidy, hmem.set (Or.inr (regular_newInode ..))⟩
  | openNull hw hnone =>
      rcases hw with rfl | rfl <;> exact ⟨h, hmem⟩
  | openPlain hfree hflag hkey hrec =>
      obtain ⟨-, hreg, -⟩ := h.fetched rel hkey hrec
      exact ⟨h, hmem.set (Or.inr hreg)⟩
  | @openTrunc s fd addr p a flags mode v u n extents hfree hflag hkey hrec
      hrec' hcount =>
      obtain ⟨hap, hreg, hown⟩ := h.fetched rel hkey hrec
      have hcurrent : Current s.world.db { n with refCnt := 1 } := by
        intro rec hrec
        rw [ViveInode.toBytes_inj (Option.some.inj (hrec.symm.trans hown))]
      exact ⟨h.truncated hap hreg hcurrent
        ((extentCount_congr rfl rfl).trans hcount),
        hmem.set (Or.inr (hreg.emptied rfl rfl))⟩
  | openCreate hflag hkey hcreate hopen ihc iho =>
      have hname₁ := hname.createFirst hflag hkey
      obtain ⟨N₁, -, rel₁⟩ := hcreate.simulated rel hname₁.1 hname₁.2.1
        hname₁.2.2
      obtain ⟨htidy₁, hmem₁⟩ := ihc rel h hmem hname₁ trivial
      obtain ⟨v, hentry⟩ := hcreate.entry_of_create
      exact iho rel₁ htidy₁ hmem₁ (nameable_openFile_of_found hentry) trivial
  | byInodePlain hinode hflag =>
      exact ⟨h, hmem.set ((hmem _ _ hinode).of_same rfl rfl rfl)⟩
  | byInodeTrunc hinode hflag hrec hcount =>
      have hreg := hmem.regular_of_count hinode hcount
      exact ⟨h.truncated (rel.memory _ _ hinode).1 hreg
        (htends hflag _ hinode) hcount,
        hmem.set (Or.inr (hreg.emptied rfl rfl))⟩
  | byInodeLost => exact ⟨h, hmem⟩
  | wrote hcall hfile hE hend =>
      obtain ⟨hreg, htidy⟩ := h.wroteThrough rel hmem hcall hfile hE hend
        htends
      exact ⟨htidy, hmem.set (Or.inr (hreg.wroteFile _ hend))⟩
  | closed hfile =>
      have hinode := (file_eq_some hfile).2
      exact ⟨h.synced (rel.memory _ _ hinode).1
        (hmem _ _ hinode).regular_of_ne (htends _ _ hfile), hmem⟩
  | unlinkNone hkey => exact ⟨h, hmem⟩
  | unlinkLast hkey hrec hlinks hcount =>
      obtain ⟨n, hn, rfl, -⟩ := rel.found hkey
      have hlt := rel.mapped_lt hn
      exact ⟨h.unlinked rel (by omega) hkey (htends n hkey), hmem⟩
  | unlinkMore hkey hrec hlinks =>
      exact absurd (rel.one_link hkey hrec) hlinks
  | umounted => exact ⟨h, fun _ _ hn => by cases hn⟩
  | mounted hm hseed hrange =>
      refine ⟨h, Partial.forall_update (fun n hn => ?_) ?_⟩
      · cases hn
        exact Or.inl ⟨rfl, rfl⟩
      · intro _ _ _ hn
        cases hn
  | lookupNone | lookupFound | didRead | synced | persisted =>
      exact htends.elim

/-- What every state of such a run has. -/
theorem run_tidy
    (hrun : SysRun codec (fun s c => Nameable s c ∧ Tends s c) tr s) :
    ∃ N, NsRel codec s N ∧ Tidy s.world.db ∧ MemoryKept s := by
  refine hrun.invariant (I := fun _ s => ∃ N, NsRel codec s N
    ∧ Tidy s.world.db ∧ MemoryKept s) (fun s h => ?_) ?_
  · refine ⟨_, h.nsRel, ⟨fun idx ino _ _ hext => ?_,
      fun n rec _ _ _ hrec => ?_⟩, fun addr n hn => ?_⟩
    · rw [h.world_eq.1, formattedStore_data] at hext
      exact absurd rfl hext
    · rw [h.world_eq.1, formattedStore_meta,
        if_neg (inodeKey_ne_inodeSeedKey n).symm,
        if_neg (inodeKey_ne_superblockKey n).symm] at hrec
      cases hrec
    · obtain ⟨-, -, -, -, hinodes, -⟩ := h
      rw [hinodes] at hn
      cases hn
  · rintro tr s e s' ⟨N, rel, htidy, hmem⟩ (⟨clock⟩ | ⟨⟨hname, htends⟩, hstep⟩)
    · exact ⟨N, rel.quiet (rel.base.withWorld rel.base.calm rel.base.shape
        rel.base.seed rel.base.counter) rfl rel.memory, htidy, hmem⟩
    · have heff := step_effect rel.base hname.1 hstep
      obtain ⟨N', -, rel'⟩ := heff.simulated rel hname.1 hname.2.1 hname.2.2
      exact ⟨N', rel', heff.tidy rel htidy hmem hname htends⟩

end Runs

/-- As long as every call tends to its file, every extent in data_cf
belongs to an inode some entry names and begins below its committed
size. -/
theorem extents_owned_of_tends (codec : SuperblockCodec) (tr : List Event)
    (s : Sys)
    (hrun : SysRun codec (fun s c => Nameable s c ∧ Tends s c) tr s) :
    Owned s.world.db := by
  obtain ⟨N, -, htidy, -⟩ := run_tidy hrun
  exact htidy.owned

-- ------------------------------------------------------- one byte's extent

/-- The one file, open as handle 0. -/
def openSys : Sys := (oneFileSys plainCodec 0 0).setFile 0 1 (emptyHandle 0)

/-- One byte written to it. -/
def writtenSys : Sys :=
  { openSys with
    world := openSys.world.committed .dataOpt
      (writeOps 12 (emptyHandle 0).inode.iExtentSize.toNat 0 [7]
        ++ growOps (emptyHandle 0) 0 1) }.setFile 0 1
    (wroteFile (emptyHandle 0) 0 1)

theorem nameable_first {s : Sys} {call : Call} (hplain : call.Plain)
    (hseed : s.world.inodeSeed ≤ 13) : Nameable s call :=
  ⟨hplain.admissible, (hplain.faithful (s := s)).2,
    fun _ => apart_of_lt (by omega)⟩

theorem nameable_write : Nameable openSys (.write 0 [7] 0) := by
  refine ⟨⟨fun fd data offset h => ?_, fun addr n old h => by cases h⟩,
    fun addr n h => (by cases h), fun h => by cases h⟩
  cases h
  decide

theorem run_writtenSys {ok : Sys → Call → Prop} (hmount : ∀ s, ok s (.mount 0))
    (hcreate : ok (mountedSys plainCodec 0 0)
      (.create none vnRootIno nameA 0 0 0))
    (hopen : ok (oneFileSys plainCodec 0 0)
      (.openFile 0 1 vnRootIno nameA 0 0))
    (hwrite : ok openSys (.write 0 [7] 0)) :
    ∃ tr, SysRun plainCodec ok tr writtenSys := by
  have hcalm : Calm (oneFileSys plainCodec 0 0).world := rfl
  have hcalm' : Calm openSys.world := rfl
  have hfile : openSys.file 0 = some (1, emptyHandle 0) := rfl
  have hopened : (oneFileSys plainCodec 0 0).step plainCodec
      (.openFile 0 1 vnRootIno nameA 0 0) = .ok (12, openSys) :=
    step_open_first hcalm rfl rfl 0 1 rfl rfl
  have hwritten : openSys.step plainCodec (.write 0 [7] 0)
      = .ok (1, writtenSys) :=
    step_write hcalm' rfl hfile
      (by rw [emptyHandle_extentSize]; exact extentSize_pos) [7] 0 (by decide)
  exact ⟨_, .step (.step (.step (run_mountedSys 0 hmount)
    (.call hcreate (step_create_first 0 0 rfl))) (.call hopen hopened))
    (.call hwrite hwritten)⟩

theorem nameable_mount (s : Sys) : Nameable s (.mount 0) := by
  have hplain : Call.Plain (.mount 0) := trivial
  exact ⟨hplain.admissible, (hplain.faithful (s := s)).2, fun h => by cases h⟩

/-- A file system with one byte in one file owns its one extent. -/
theorem extents_owned_oneByte : Owned writtenSys.world.db := by
  have hwrite : Tends openSys (.write 0 [7] 0) := by
    intro addr f hfile
    cases hfile
    refine ⟨⟨vnRootIno, nameA, oneFileSys_entry 0 0⟩, fun rec hrec => ?_⟩
    have hfirst : openSys.world.db.metaCf[inodeKey vnFirstUserIno]?
        = some (newInode vnFirstUserIno 0 0 0 0).toBytes :=
      oneFileSys_record 0 0
    rw [← ViveInode.toBytes_inj (Option.some.inj (hfirst.symm.trans hrec))]
    rfl
  have hrun : ∃ tr, SysRun plainCodec (fun s c => Nameable s c ∧ Tends s c) tr
      writtenSys :=
    run_writtenSys (fun s => ⟨nameable_mount s, trivial⟩)
      ⟨nameable_first trivial (by decide), trivial⟩
      ⟨nameable_first trivial (by decide), trivial⟩ ⟨nameable_write, hwrite⟩
  obtain ⟨tr, hrun⟩ := hrun
  exact extents_owned_of_tends plainCodec tr writtenSys hrun

/-- The calls that make, fill, empty and remove files. -/
def Call.Storing : Call → Prop
  | .create .. | .openFile .. | .openByInode .. | .write .. | .writev ..
  | .close _ | .unlink .. | .mount _ | .umount => True
  | _ => False

/-- The file closed. -/
def closedSys : Sys :=
  { writtenSys with
    world := writtenSys.world.synced (syncOps (wroteFile (emptyHandle 0) 0 1))
    files := Function.update writtenSys.files 0 none }

theorem closedSys_db : closedSys.world.db = writtenSys.world.db := by
  show Store.applyBatch _ (syncOps _) = _
  rw [syncOps, if_neg (by decide)]
  rfl

/-- meta_cf once the byte is written: the record has changed. -/
theorem closedSys_meta (key : Bytes) :
    closedSys.world.db.metaCf[key]?
      = if inodeKey vnFirstUserIno = key then
          some (wroteFile (emptyHandle 0) 0 1).inode.toBytes
        else (oneFileSys plainCodec 0 0).world.db.metaCf[key]? := by
  have hno : (emptyHandle 0).inode.iNo.toNat = vnFirstUserIno := by decide
  rw [closedSys_db]
  show (Store.applyBatch _ (_ ++ growOps (emptyHandle 0) 0 1)).metaCf[key]? = _
  rw [writeOps_meta, hno]
  by_cases hkey : inodeKey vnFirstUserIno = key
  · rw [if_pos ⟨by decide, hkey⟩, if_pos hkey]
  · rw [if_neg fun h => hkey h.2, if_neg hkey]
    rfl

/-- The byte's extent. -/
theorem closedSys_extent :
    closedSys.world.db.dataCf[vnExtentKey 0 vnFirstUserIno]? ≠ none := by
  rw [closedSys_db]
  show (Store.applyBatch _ (writeOps 12 (emptyHandle 0).inode.iExtentSize.toNat
    0 [7] ++ growOps (emptyHandle 0) 0 (0 + ([7] : Bytes).length))).dataCf[
      vnExtentKey 0 12]? ≠ none
  rw [emptyHandle_extentSize, extentSize_eq, writeOps_extent _ (by decide)
    (by decide) (by decide) (by decide) _ _ (by decide), if_pos (by decide),
    segmentOp]
  split
  · rw [WriteOp.onData, if_pos rfl]
    exact Option.some_ne_none _
  · rw [WriteOp.onData, if_pos rfl]
    exact Option.some_ne_none _

/-- The name goes and nothing else. -/
theorem exec_unlink_closedSys :
    ∃ extents, (vnUnlink vnRootIno nameA).exec closedSys.world
      = .ok (0, closedSys.world.committed .metaOpt
          (unlinkOps vnRootIno nameA 12 extents)) := by
  have hcalm : Calm closedSys.world := rfl
  have hkey : closedSys.world.db.metaCf[fileKey vnRootIno nameA]?
      = some (leBytes 8 vnFirstUserIno) := by
    rw [closedSys_meta, if_neg (fileKey_ne_inodeKey (by decide) _ _).symm]
    exact oneFileSys_entry 0 0
  have hrec : closedSys.world.db.metaCf[leBytes 8 vnFirstUserIno]?
      = some (wroteFile (emptyHandle 0) 0 1).inode.toBytes := by
    rw [closedSys_meta, if_pos (show inodeKey _ = leBytes 8 _ from rfl)]
  have hE : 0 < (wroteFile (emptyHandle 0) 0 1).inode.iExtentSize.toNat := by
    rw [wroteFile_iExtentSize, emptyHandle_extentSize]
    exact extentSize_pos
  exact ⟨_, exec_vnUnlink_last hcalm hkey (by decide) hrec (by decide)
    (by decide) (extentCount_ok hE (by decide))⟩

/-- mkfs, one byte in one file, and its unlink: the byte's extent stays in
data_cf and no entry leads to its inode. -/
theorem unlink_leaves_extent :
    ∃ tr s, SysRun plainCodec (fun s c => Nameable s c ∧ c.Storing) tr s
      ∧ (∀ fd, s.files fd = none) ∧ ¬ Owned s.world.db := by
  have hrun : ∃ tr, SysRun plainCodec (fun s c => Nameable s c ∧ c.Storing) tr
      writtenSys :=
    run_writtenSys (fun s => ⟨nameable_mount s, trivial⟩)
      ⟨nameable_first trivial (by decide), trivial⟩
      ⟨nameable_first trivial (by decide), trivial⟩ ⟨nameable_write, trivial⟩
  obtain ⟨tr, hrun⟩ := hrun
  obtain ⟨extents, hunlink⟩ := exec_unlink_closedSys
  have hclose : writtenSys.step plainCodec (.close 0) = .ok (0, closedSys) := by
    have hcalm : Calm writtenSys.world := rfl
    refine (step_of_mounted rfl).trans ?_
    show ((vnCloseFile (wroteFile (emptyHandle 0) 0 1)).exec
      writtenSys.world >>= _) = _
    rw [exec_vnCloseFile hcalm]
    rfl
  have hstep : closedSys.step plainCodec (.unlink vnRootIno nameA)
      = .ok (0, { closedSys with
          world := closedSys.world.committed .metaOpt
            (unlinkOps vnRootIno nameA 12 extents) }) := by
    refine (step_of_mounted rfl).trans ?_
    rw [Sys.stepMounted, hunlink]
    rfl
  have hokClose : Nameable writtenSys (.close 0)
      ∧ (Call.close 0).Storing := ⟨nameable_first trivial (by decide), trivial⟩
  have hokUnlink : Nameable closedSys (.unlink vnRootIno nameA)
      ∧ (Call.unlink vnRootIno nameA).Storing :=
    ⟨nameable_first trivial (by decide), trivial⟩
  refine ⟨_, _, .step (.step hrun (.call hokClose hclose))
    (.call hokUnlink hstep), fun fd => ?_, fun howned => ?_⟩
  · cases fd <;> rfl
  · obtain ⟨⟨p, a, hv⟩, -⟩ := howned 0 vnFirstUserIno (by decide) (by decide) (by
      show (Store.applyBatch _ (unlinkOps ..)).dataCf[_]? ≠ none
      rw [Store.applyBatch_data_of_notData _ (unlinkOps_notData _ _ _ _)]
      exact closedSys_extent)
    change (Store.applyBatch _ (unlinkOps ..)).metaCf[_]? = _ at hv
    rw [unlinkOps_meta] at hv
    split at hv
    · cases hv
    · next hne =>
      rw [closedSys_meta, if_neg (fileKey_ne_inodeKey (by decide) p a).symm]
        at hv
      change (Store.applyBatch _ (createOps ..)).metaCf[_]? = _ at hv
      rw [createOps_meta, if_neg (fileKey_ne_inodeSeedKey p a).symm,
        if_neg (fileKey_ne_inodeKey (by decide) p a).symm, if_neg hne,
        drawn_db, mountedSys_db, formattedStore_meta,
        if_neg (fileKey_ne_inodeSeedKey p a).symm,
        if_neg (fileKey_ne_superblockKey p a).symm] at hv
      cases hv

end ViveNas
