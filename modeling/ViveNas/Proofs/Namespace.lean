/-
meta_cf refines the namespace of Namespace.lean.

# The relation

`NsRel` is the simulation relation. An entry's value is its name's
number and nothing else is under an entry's key; a record's key holds a
record of its own number. Both need the two key formats to stay apart
for every number in use (`Apart`), which is why a create may only draw a
number whose 8 bytes are no entry's key. Numbers below
0x0101010101010101 all qualify: their 8 bytes include a zero, and a name
has none.

# The simulation

Only a create and an unlink change what is named; `NsRel.create` and
`NsRel.unlink` are about their batches. Every other call rewrites at
most the record and the extents of one number, and the lemmas of the
last section but one (`NsRel.putInode` to `NsRel.mounted`) say that the
relation does not notice. `Effect.simulated` matches each effect with
the step of the namespace it is.
-/
import ViveNas.Lib.Trace
import ViveNas.Namespace
import ViveNas.Proofs.System
import ViveNas.Proofs.Batches

namespace ViveNas

open LittleEndian

variable {codec : SuperblockCodec} {s s' : Sys} {N : Namespace} {call : Call}
  {r : Int}

-- ============================================================ the relation

/-- No entry has the number's key. -/
def Apart (n : Nat) : Prop := ∀ p a, fileKey p a ≠ inodeKey n

theorem apart_of_lt {n : Nat} (h : n < 0x0101010101010101) : Apart n :=
  fileKey_ne_inodeKey h

/-- The inode is the one the number stands for. A file's has one link
and an extent size; the root's is whatever it is. -/
structure Own (n : ViveInode) (ino : Nat) : Prop where
  number : n.iNo.toNat = ino
  links : ino ≠ vnRootIno → n.iLinksCount = 1
  extent : ino ≠ vnRootIno → 0 < n.iExtentSize.toNat

structure NsRel (codec : SuperblockCodec) (s : Sys) (N : Namespace) :
    Prop where
  base : SysInv codec s N.next
  wellFormed : N.WellFormed
  entries : ∀ p a, s.world.db.metaCf[fileKey p a]?
    = (N.find p a).map (leBytes 8)
  mapped : ∀ p a n, N.find p a = some n →
    Apart n ∧ ∃ v, s.world.db.metaCf[inodeKey n]? = some v
  records : ∀ n v, n < 2 ^ 64 → Apart n →
    s.world.db.metaCf[inodeKey n]? = some v →
    ∃ rec : ViveInode, v = rec.toBytes ∧ Own rec n
  keys : ∀ key v, s.world.db.metaCf[key]? = some v →
    key = superblockKey ∨ key = inodeSeedKey ∨ (∃ p a, key = fileKey p a)
      ∨ ∃ n, n < 2 ^ 64 ∧ Apart n ∧ key = inodeKey n
  memory : ∀ addr n, s.inodes addr = some n →
    Apart n.iNo.toNat ∧ Own n n.iNo.toNat

/-- The committed seed is what it says. -/
theorem SysInv.eq_of_seed {c k : Nat} (inv : SysInv codec s c)
    (hk : k < 2 ^ 64)
    (hseed : s.world.db.metaCf[inodeSeedKey]? = some (leBytes 8 k)) :
    c = k := by
  have hhigh := inv.high
  exact leBytes_inj (by omega) (by omega)
    (Option.some.inj (inv.seed.symm.trans hseed))

namespace NsRel

variable (rel : NsRel codec s N)
include rel

theorem mapped_lt {p : Int} {a : FileName} {n : Nat}
    (h : N.find p a = some n) : n < 2 ^ 63 := by
  have hused := rel.wellFormed.used p a n h
  have hhigh := rel.base.high
  omega

theorem mapped_ne_root {p : Int} {a : FileName} {n : Nat}
    (h : N.find p a = some n) : n ≠ vnRootIno := by
  rintro rfl
  exact absurd (rel.wellFormed.low p a _ h) (by decide)

/-- The record of a name's number. -/
theorem mapped_record {p : Int} {a : FileName} {n : Nat}
    (h : N.find p a = some n) :
    ∃ rec : ViveInode, s.world.db.metaCf[inodeKey n]? = some rec.toBytes
      ∧ rec.iNo.toNat = n ∧ rec.iLinksCount = 1
      ∧ 0 < rec.iExtentSize.toNat := by
  obtain ⟨hapart, v, hv⟩ := rel.mapped p a n h
  have hlt := rel.mapped_lt h
  obtain ⟨rec, rfl, hown⟩ := rel.records n v (by omega) hapart hv
  have hroot := rel.mapped_ne_root h
  exact ⟨rec, hv, hown.number, hown.links hroot, hown.extent hroot⟩

/-- A name that is there, by its entry. -/
theorem found {p : Int} {a : FileName} {v : Bytes}
    (hkey : s.world.db.metaCf[fileKey p a]? = some v) :
    ∃ n, N.find p a = some n ∧ v = inodeKey n ∧ leNat (v.take 8) = n := by
  rw [rel.entries] at hkey
  obtain ⟨n, hn, rfl⟩ := Option.map_eq_some_iff.mp hkey
  have hlt := rel.mapped_lt hn
  refine ⟨n, hn, rfl, ?_⟩
  rw [List.take_of_length_le (by rw [leBytes_length]),
    leNat_leBytes_of_lt (by omega)]

theorem not_found {p : Int} {a : FileName}
    (hkey : s.world.db.metaCf[fileKey p a]? = none) : N.find p a = none := by
  rw [rel.entries] at hkey
  exact Option.map_eq_none_iff.mp hkey

/-- A name whose record is lost cannot be. -/
theorem unnamed {p : Int} {a : FileName} (h : Unnamed s.world.db p a) :
    N.find p a = none := by
  rcases h with hkey | ⟨v, hkey, hlost⟩
  · exact rel.not_found hkey
  · obtain ⟨n, hn, rfl, -⟩ := rel.found hkey
    obtain ⟨-, u, hu⟩ := rel.mapped p a n hn
    rw [hlost] at hu
    cases hu

/-- An open that finds nothing has no name to find. -/
theorem nothingToOpen {p : Int} {a : FileName} {flags : UInt32}
    (h : NothingToOpen s.world.db p a flags) :
    N.find p a = none ∧ hasFlag flags oCreat = false := by
  rcases h with ⟨hkey, hflag⟩ | ⟨v, hkey, hlost⟩
  · exact ⟨rel.not_found hkey, hflag⟩
  · exfalso
    obtain ⟨n, hn, -, hnum⟩ := rel.found hkey
    obtain ⟨rec, hrec, hno, -⟩ := rel.mapped_record hn
    rw [hnum] at hlost
    rcases hlost with hnone | ⟨rec', hrec', hnone⟩
    · rw [hnone] at hrec
      cases hrec
    · cases ViveInode.toBytes_inj (Option.some.inj (hrec.symm.trans hrec'))
      rw [hno, hrec] at hnone
      cases hnone

-- ------------------------------------------------------ keeping the map

/-- A step that changes at most one record, and to one of the same
number, keeps the relation. -/
theorem record {P : Prop} [Decidable P] {rec : ViveInode} {n c : Nat}
    (hbase : SysInv codec s' c) (hapart : Apart n) (hown : Own rec n)
    (hmeta : ∀ key : Bytes, s'.world.db.metaCf[key]?
      = if P ∧ inodeKey n = key then some rec.toBytes
        else s.world.db.metaCf[key]?)
    (hmemory : ∀ addr n, s'.inodes addr = some n →
      Apart n.iNo.toNat ∧ Own n n.iNo.toNat) :
    NsRel codec s' N := by
  have hn : n < 2 ^ 64 := hown.number ▸ rec.iNo.toNat_lt
  have hhigh := rel.base.high
  have hc : c = N.next := by
    refine hbase.eq_of_seed (by omega) ?_
    rw [hmeta, if_neg fun h => inodeKey_ne_inodeSeedKey n h.2]
    exact rel.base.seed
  exact {
    base := hc ▸ hbase
    wellFormed := rel.wellFormed
    entries := fun p a => by
      rw [hmeta, if_neg fun h => hapart p a h.2.symm]
      exact rel.entries p a
    mapped := fun p a m hm => by
      obtain ⟨hapart', v, hv⟩ := rel.mapped p a m hm
      refine ⟨hapart', ?_⟩
      rw [hmeta]
      split
      · exact ⟨_, rfl⟩
      · exact ⟨v, hv⟩
    records := fun m v hm hapart' hv => by
      rw [hmeta] at hv
      split at hv
      · next hput =>
        cases hv
        obtain rfl := inodeKey_inj hn hm hput.2
        exact ⟨rec, rfl, hown⟩
      · exact rel.records m v hm hapart' hv
    keys := fun key v hv => by
      rw [hmeta] at hv
      split at hv
      · next hput => exact Or.inr (Or.inr (Or.inr ⟨n, hn, hapart,
          hput.2.symm⟩))
      · exact rel.keys key v hv
    memory := hmemory }

/-- A step that leaves the store alone keeps the relation. -/
theorem quiet {c : Nat} (hbase : SysInv codec s' c)
    (hdb : s'.world.db = s.world.db)
    (hmemory : ∀ addr n, s'.inodes addr = some n →
      Apart n.iNo.toNat ∧ Own n n.iNo.toNat) :
    NsRel codec s' N := by
  have hhigh := rel.base.high
  have hc : c = N.next := by
    refine hbase.eq_of_seed (by omega) ?_
    rw [hdb]
    exact rel.base.seed
  exact {
    base := hc ▸ hbase
    wellFormed := rel.wellFormed
    entries := hdb ▸ rel.entries
    mapped := hdb ▸ rel.mapped
    records := hdb ▸ rel.records
    keys := hdb ▸ rel.keys
    memory := hmemory }

/-- An inode stored in memory. -/
theorem memory_set {addr : Nat} {n : ViveInode} (hapart : Apart n.iNo.toNat)
    (hown : Own n n.iNo.toNat) :
    ∀ a m, Function.update s.inodes addr (some n) a = some m →
      Apart m.iNo.toNat ∧ Own m m.iNo.toNat := by
  refine Partial.forall_update (fun m hm => ?_)
    fun a _ m hm => rel.memory a m hm
  cases hm
  exact ⟨hapart, hown⟩

end NsRel

-- ============================================================== the steps

/-- An inode that agrees on the three fields is the number's too. -/
theorem Own.of_same {m n : ViveInode} {ino : Nat} (h : Own m ino)
    (hno : n.iNo = m.iNo) (hlinks : n.iLinksCount = m.iLinksCount)
    (hextent : n.iExtentSize = m.iExtentSize) : Own n ino where
  number := by rw [hno, h.number]
  links hne := by rw [hlinks, h.links hne]
  extent hne := by rw [hextent]; exact h.extent hne

theorem own_newInode {ino : Nat} (hino : ino < 2 ^ 64)
    (mode uid gid : UInt16) (now : UInt64) :
    Own (newInode ino mode uid gid now) ino where
  number := newInode_iNo hino mode uid gid now
  links _ := rfl
  extent _ := by rw [newInode_iExtentSize]; decide

/-- A file's inode is persisted with an extent size. -/
def Sized (call : Call) : Prop :=
  ∀ addr inode, call = .persist addr inode →
    inode.iNo.toNat ≠ vnRootIno → 0 < inode.iExtentSize.toNat

/-- The entries after a create: the new name's holds the number. -/
theorem createOps_entries (db : Store) {p : Int} {a : FileName} {ino : Nat}
    (hapart : Apart ino) (n : ViveInode) (q : Int) (b : FileName) :
    (db.applyBatch (createOps p a ino n)).metaCf[fileKey q b]?
      = if (p, a) = (q, b) then some (leBytes 8 ino)
        else db.metaCf[fileKey q b]? := by
  rw [createOps_meta, if_neg (fileKey_ne_inodeSeedKey q b).symm,
    if_neg (hapart q b).symm]
  by_cases h : (p, a) = (q, b)
  · cases h
    rw [if_pos rfl, if_pos rfl]
  · rw [if_neg h, if_neg]
    intro hkey
    exact h (Prod.ext_iff.mpr (fileKey_inj hkey))

/-- The records after a create: the number's is the new inode. -/
theorem createOps_records (db : Store) (p : Int) (a : FileName) {ino m : Nat}
    (hino : ino < 2 ^ 64) (hm : m < 2 ^ 64) (hapart : Apart m)
    (n : ViveInode) :
    (db.applyBatch (createOps p a ino n)).metaCf[inodeKey m]?
      = if ino = m then some n.toBytes else db.metaCf[inodeKey m]? := by
  rw [createOps_meta, if_neg (inodeKey_ne_inodeSeedKey m).symm]
  by_cases h : ino = m
  · rw [if_pos (by rw [h]), if_pos h]
  · rw [if_neg fun hkey => h (inodeKey_inj hino hm hkey), if_neg h,
      if_neg (hapart p a)]

/-- The keys after a create: three more at most. -/
theorem createOps_keys {db : Store} {p : Int} {a : FileName} {ino : Nat}
    {n : ViveInode} {key v : Bytes}
    (h : (db.applyBatch (createOps p a ino n)).metaCf[key]? = some v) :
    key = inodeSeedKey ∨ key = inodeKey ino ∨ key = fileKey p a
      ∨ db.metaCf[key]? = some v := by
  rw [createOps_meta] at h
  split at h
  · next hkey => exact Or.inl hkey.symm
  · split at h
    · next hkey => exact Or.inr (Or.inl hkey.symm)
    · split at h
      · next hkey => exact Or.inr (Or.inr (Or.inl hkey.symm))
      · exact Or.inr (Or.inr (Or.inr h))

/-- A create that found its name free binds it to a fresh number. -/
theorem NsRel.create (rel : NsRel codec s N) (hm : s.mounted = true)
    {p : Int} {a : FileName} (mode uid gid : UInt16)
    (hseed : s.world.inodeSeed + 1 < 2 ^ 63)
    (hapart : Apart s.world.inodeSeed) {c : Nat}
    (hbase : SysInv codec s' c)
    (hdb : s'.world.db = s.world.db.applyBatch
      (createOps p a s.world.inodeSeed
        (newInode s.world.inodeSeed mode uid gid s.world.clock)))
    (hmemory : ∀ addr n, s'.inodes addr = some n →
      Apart n.iNo.toNat ∧ Own n n.iNo.toNat) :
    NsRel codec s' (N.bind p a s.world.inodeSeed) := by
  obtain ⟨hle, -⟩ := rel.base.counter hm
  have hlt : s.world.inodeSeed < 2 ^ 64 := by omega
  have hc : c = s.world.inodeSeed + 1 := by
    refine hbase.eq_of_seed (by omega) ?_
    rw [hdb, createOps_meta, if_pos rfl]
  subst hc
  exact {
    base := hbase
    wellFormed := rel.wellFormed.bind hle
    entries := fun q b => by
      rw [hdb, createOps_entries _ hapart, Namespace.find_bind,
        rel.entries q b]
      split <;> rfl
    mapped := fun q b n hn => by
      rw [hdb]
      rw [Namespace.find_bind] at hn
      split at hn
      · cases hn
        exact ⟨hapart, _, by
          rw [createOps_records _ _ _ hlt hlt hapart, if_pos rfl]⟩
      · obtain ⟨hapart', v, hv⟩ := rel.mapped q b n hn
        have hn' := rel.mapped_lt hn
        refine ⟨hapart', ?_⟩
        rw [createOps_records _ _ _ hlt (by omega) hapart']
        split
        · exact ⟨_, rfl⟩
        · exact ⟨v, hv⟩
    records := fun n v hn hapart' hv => by
      rw [hdb, createOps_records _ _ _ hlt hn hapart'] at hv
      split at hv
      · next heq =>
        cases hv
        exact ⟨_, rfl, heq ▸ own_newInode hlt ..⟩
      · exact rel.records n v hn hapart' hv
    keys := fun key v hv => by
      rw [hdb] at hv
      rcases createOps_keys hv with hkey | hkey | hkey | hold
      · exact Or.inr (Or.inl hkey)
      · exact Or.inr (Or.inr (Or.inr ⟨_, hlt, hapart, hkey⟩))
      · exact Or.inr (Or.inr (Or.inl ⟨p, a, hkey⟩))
      · exact rel.keys key v hold
    memory := hmemory }

/-- Unlinking a name takes it away and nothing else. -/
theorem NsRel.unlink (rel : NsRel codec s N) {p : Int} {a : FileName}
    {c : Nat} (hbase : SysInv codec s' c)
    (hmeta : ∀ key : Bytes, s'.world.db.metaCf[key]?
      = if fileKey p a = key then none else s.world.db.metaCf[key]?)
    (hmemory : s'.inodes = s.inodes) :
    NsRel codec s' (N.unbind p a) := by
  have hhigh := rel.base.high
  have hc : c = N.next := by
    refine hbase.eq_of_seed (by omega) ?_
    rw [hmeta, if_neg (fileKey_ne_inodeSeedKey p a)]
    exact rel.base.seed
  have hold : ∀ (key : Bytes) v, s'.world.db.metaCf[key]? = some v →
      s.world.db.metaCf[key]? = some v := by
    intro key v hv
    rw [hmeta] at hv
    split at hv
    · cases hv
    · exact hv
  exact {
    base := hc ▸ hbase
    wellFormed := rel.wellFormed.unbind
    entries := fun q b => by
      rw [hmeta, Namespace.find_unbind, rel.entries q b]
      by_cases h : (p, a) = (q, b)
      · cases h
        rw [if_pos rfl, if_pos rfl]
        rfl
      · rw [if_neg h, if_neg]
        intro hkey
        exact h (Prod.ext_iff.mpr (fileKey_inj hkey))
    mapped := fun q b n hn => by
      rw [Namespace.find_unbind] at hn
      split at hn
      · cases hn
      · obtain ⟨hapart', v, hv⟩ := rel.mapped q b n hn
        exact ⟨hapart', v, by rw [hmeta, if_neg (hapart' p a), hv]⟩
    records := fun n v hn hapart' hv =>
      rel.records n v hn hapart' (hold _ v hv)
    keys := fun key v hv => rel.keys key v (hold key v hv)
    memory := hmemory ▸ rel.memory }

/-- A name's record, as an open or a lookup fetches it. -/
theorem NsRel.fetched (rel : NsRel codec s N) {p : Int} {a : FileName}
    {v : Bytes} {n : ViveInode}
    (hkey : s.world.db.metaCf[fileKey p a]? = some v)
    (hrec : s.world.db.metaCf[inodeKey (leNat (v.take 8))]?
      = some n.toBytes) :
    N.find p a = some n.iNo.toNat ∧ Apart n.iNo.toNat
      ∧ Own n n.iNo.toNat := by
  obtain ⟨ino, hino, -, hnum⟩ := rel.found hkey
  obtain ⟨rec, hrec', hno, hlinks, hextent⟩ := rel.mapped_record hino
  rw [hnum] at hrec
  cases ViveInode.toBytes_inj (Option.some.inj (hrec.symm.trans hrec'))
  rw [hno]
  exact ⟨hino, (rel.mapped p a ino hino).1, hno, fun _ => hlinks,
    fun _ => hextent⟩

/-- A name that is there keeps an open from drawing a number. -/
theorem draws_openFile_of_found {fd addr : Nat} {p : Int} {a : FileName}
    {flags : UInt32} {mode : UInt16} {v : Bytes}
    (hkey : s.world.db.metaCf[fileKey p a]? = some v) :
    s.draws (.openFile fd addr p a flags mode) = false := by
  rw [Sys.draws, hkey, Option.isNone_some, Bool.and_false]

/-- An open that finds nothing draws nothing. -/
theorem draws_openFile_of_nothing {fd addr : Nat} {p : Int} {a : FileName}
    {flags : UInt32} {mode : UInt16}
    (h : NothingToOpen s.world.db p a flags) :
    s.draws (.openFile fd addr p a flags mode) = false := by
  rcases h with ⟨-, hflag⟩ | ⟨v, hkey, -⟩
  · rw [Sys.draws, hflag, Bool.false_and]
  · exact draws_openFile_of_found hkey

/-- An open that has to create its file draws a number. -/
theorem draws_openFile_of_absent {fd addr : Nat} {p : Int} {a : FileName}
    {flags : UInt32} {mode : UInt16} (hflag : hasFlag flags oCreat = true)
    (hkey : s.world.db.metaCf[fileKey p a]? = none) :
    s.draws (.openFile fd addr p a flags mode) = true := by
  rw [Sys.draws, hflag, hkey]
  rfl

/-- After a create its name is there, whether it was before or not. -/
theorem Effect.entry_of_create {addr : Option Nat} {p : Int} {a : FileName}
    {mode uid gid : UInt16}
    (heff : Effect s (.create addr p a mode uid gid) r s') :
    ∃ v, s'.world.db.metaCf[fileKey p a]? = some v := by
  cases heff with
  | createTaken hm hseed hkey => exact ⟨_, hkey⟩
  | createFresh hm hfree hseed hkey =>
      obtain ⟨v, hv, -⟩ := createOps_entry s.world.db p a
        (show s.world.inodeSeed < 2 ^ 64 by omega) mode uid gid s.world.clock
      cases addr <;> exact ⟨v, hv⟩
  | wrote hcall => cases hcall

/-- A write names nothing. -/
theorem nameless_of_writes {x : Nat × Bytes × Nat}
    (h : call.writes = some x) :
    Namespace.Nameless call ∧ s.draws call = false := by
  cases call with
  | write => exact ⟨trivial, rfl⟩
  | writev => exact ⟨trivial, rfl⟩
  | _ => cases h

/-- The create of an open with O_CREAT, then the open, as one step. -/
theorem openCreate_step {N₁ N₂ : Namespace} {p : Int} {a : FileName}
    {fd addr : Nat} {flags : UInt32} {mode : UInt16} {ino : Int}
    (hflag : hasFlag flags oCreat = true) (hnone : N.find p a = none)
    (hcreate : N.Step (.call (.create none p a mode 0 0) ino true) N₁)
    (hopen : N₁.Step (.call (.openFile fd addr p a flags mode) r false) N₂) :
    N.Step (.call (.openFile fd addr p a flags mode) r true) N₂ := by
  cases hcreate with
  | createTaken h =>
      rw [hnone] at h
      cases h
  | @createFresh _ _ _ _ _ _ n h hn =>
      have hbound : (N.bind p a n).find p a = some n := by
        rw [Namespace.find_bind, if_pos rfl]
      cases hopen with
      | openNone h' _ =>
          rw [hbound] at h'
          cases h'
      | openFound h' =>
          cases hbound.symm.trans h'
          exact .openCreate hnone hflag hn
      | other h' => exact h'.elim

-- ============================================================== each call

section Calls

variable (rel : NsRel codec s N) {c : Nat} (hbase : SysInv codec s' c)
include rel hbase

/-- A create of a free name, and where it leaves the new inode. -/
theorem NsRel.createFresh (hm : s.mounted = true) (addr : Option Nat)
    {p : Int} {a : FileName} (mode uid gid : UInt16)
    (hseed : s.world.inodeSeed + 1 < 2 ^ 63)
    (hapart : Apart s.world.inodeSeed)
    (hdb : s'.world.db = s.world.db.applyBatch
      (createOps p a s.world.inodeSeed
        (newInode s.world.inodeSeed mode uid gid s.world.clock)))
    (hinodes : s'.inodes = (s.setInode addr (some (newInode
      s.world.inodeSeed mode uid gid s.world.clock))).inodes) :
    NsRel codec s' (N.bind p a s.world.inodeSeed) := by
  have hlt : s.world.inodeSeed < 2 ^ 64 := by omega
  have hno := newInode_iNo hlt mode uid gid s.world.clock
  refine rel.create hm mode uid gid hseed hapart hbase hdb ?_
  rw [hinodes]
  cases addr with
  | none => exact rel.memory
  | some addr =>
      refine rel.memory_set ?_ ?_
      · rw [hno]
        exact hapart
      · rw [hno]
        exact own_newInode hlt ..

/-- An inode of the memory or of a record is put at an address, and the
store is as it was. -/
theorem NsRel.putInode {addr : Nat} {m n : ViveInode}
    (hm : Apart m.iNo.toNat ∧ Own m m.iNo.toNat)
    (hdb : s'.world.db = s.world.db)
    (hinodes : s'.inodes = Function.update s.inodes addr (some n))
    (hno : n.iNo = m.iNo) (hlinks : n.iLinksCount = m.iLinksCount)
    (hextent : n.iExtentSize = m.iExtentSize) :
    NsRel codec s' N := by
  refine rel.quiet hbase hdb ?_
  rw [hinodes]
  refine rel.memory_set ?_ ?_
  · rw [hno]
    exact hm.1
  · rw [hno]
    exact hm.2.of_same hno hlinks hextent

/-- The same, and the inode's record may be replaced by it. -/
theorem NsRel.putRecord {P : Prop} [Decidable P] {addr : Nat}
    {m n rec : ViveInode} (hm : Apart m.iNo.toNat ∧ Own m m.iNo.toNat)
    (hrec : Own rec m.iNo.toNat)
    (hmeta : ∀ key : Bytes, s'.world.db.metaCf[key]?
      = if P ∧ inodeKey m.iNo.toNat = key then some rec.toBytes
        else s.world.db.metaCf[key]?)
    (hinodes : s'.inodes = Function.update s.inodes addr (some n))
    (hno : n.iNo = m.iNo) (hlinks : n.iLinksCount = m.iLinksCount)
    (hextent : n.iExtentSize = m.iExtentSize) :
    NsRel codec s' N := by
  refine rel.record hbase hm.1 hrec hmeta ?_
  rw [hinodes]
  refine rel.memory_set ?_ ?_
  · rw [hno]
    exact hm.1
  · rw [hno]
    exact hm.2.of_same hno hlinks hextent

/-- A truncation, by name or by inode. -/
theorem NsRel.truncated {addr extents : Nat} {m n : ViveInode}
    (hm : Apart m.iNo.toNat ∧ Own m m.iNo.toNat)
    (hdb : s'.world.db = s.world.db.applyBatch (truncOps m extents))
    (hinodes : s'.inodes = Function.update s.inodes addr (some n))
    (hno : n.iNo = m.iNo) (hlinks : n.iLinksCount = m.iLinksCount)
    (hextent : n.iExtentSize = m.iExtentSize) :
    NsRel codec s' N := by
  have hrec : Own { m with iSize := 0 } m.iNo.toNat :=
    hm.2.of_same rfl rfl rfl
  refine rel.putRecord hbase (P := True) hm hrec (fun key => ?_) hinodes hno
    hlinks hextent
  simp only [true_and]
  rw [hdb]
  exact truncOps_meta _ _ _ key

/-- A write through a handle. -/
theorem NsRel.wrote {fd addr offset : Nat} {data : Bytes} {f : ViveFile}
    (hfile : s.file fd = some (addr, f))
    (hdb : s'.world.db = s.world.db.applyBatch
      (writeOps f.iNo.toNat f.inode.iExtentSize.toNat offset data
        ++ growOps f s.world.clock (offset + data.length)))
    (hinodes : s'.inodes = Function.update s.inodes addr
      (some (wroteFile f s.world.clock (offset + data.length)).inode)) :
    NsRel codec s' N := by
  have hm := rel.memory _ _ (file_eq_some hfile).2
  have hno := wroteFile_iNo f s.world.clock (offset + data.length)
  have hlinks := wroteFile_iLinksCount f s.world.clock (offset + data.length)
  have hextent := wroteFile_iExtentSize f s.world.clock (offset + data.length)
  have hmeta (key : Bytes) : s'.world.db.metaCf[key]? = _ :=
    hdb ▸ writeOps_meta s.world.db f s.world.clock _ key
  exact rel.putRecord hbase hm (hm.2.of_same hno hlinks hextent) hmeta
    hinodes hno hlinks hextent

/-- A caller's own inode, persisted. -/
theorem NsRel.persisted {addr : Nat} {inode old : ViveInode}
    (hinode : s.inodes addr = some old)
    (hadm : Admissible s (.persist addr inode))
    (hsized : Sized (.persist addr inode))
    (hdb : s'.world.db = s.world.db.applyBatch
      [.put .metaCf (inodeKey inode.iNo.toNat) inode.toBytes])
    (hinodes : s'.inodes = Function.update s.inodes addr (some inode)) :
    NsRel codec s' N := by
  obtain ⟨hno, hlinks⟩ := hadm.2 _ _ _ rfl hinode
  obtain ⟨hap, hown⟩ := rel.memory _ _ hinode
  rw [← hno] at hap hown
  have hown' : Own inode inode.iNo.toNat := ⟨rfl, fun hne => by
    rw [hlinks, hown.links hne], hsized _ _ rfl⟩
  refine rel.putRecord hbase (P := True) ⟨hap, hown'⟩ hown' (fun key => ?_)
    hinodes rfl rfl rfl
  simp only [true_and]
  rw [hdb]
  exact Store.applyOp_meta s.world.db (.put .metaCf _ _) key

/-- A mount: the root's inode is the only one in memory. -/
theorem NsRel.mounted {addr : Nat} (hdb : s'.world.db = s.world.db)
    (hinodes : s'.inodes = Function.update (fun _ => none) addr
      (some { rootInode s.world.clock with refCnt := 2 })) :
    NsRel codec s' N := by
  refine rel.quiet hbase hdb ?_
  rw [hinodes]
  refine Partial.forall_update (fun n hn => ?_) ?_
  · cases hn
    exact ⟨apart_of_lt (show (UInt64.ofNat vnRootIno).toNat < _ by decide),
      rfl, fun hne => absurd rfl hne, fun hne => absurd rfl hne⟩
  · intro _ _ _ hn
    cases hn

end Calls

/-- An unlink never finds a record with other links. -/
theorem NsRel.one_link (rel : NsRel codec s N) {p : Int} {a : FileName}
    {v : Bytes} {n : ViveInode}
    (hkey : s.world.db.metaCf[fileKey p a]? = some v)
    (hrec : s.world.db.metaCf[v]? = some n.toBytes) : n.iLinksCount = 1 := by
  obtain ⟨ino, hino, rfl, -⟩ := rel.found hkey
  obtain ⟨rec, hrec', -, hone, -⟩ := rel.mapped_record hino
  cases ViveInode.toBytes_inj (Option.some.inj (hrec.symm.trans hrec'))
  exact hone

/-- Every call is a step of the namespace. -/
theorem Effect.simulated (heff : Effect s call r s')
    (rel : NsRel codec s N) (hadm : Admissible s call)
    (hsized : Sized call)
    (hapart : s.draws call = true → Apart s.world.inodeSeed) :
    ∃ N', Namespace.Step N (.call call r (s.draws call)) N'
      ∧ NsRel codec s' N' := by
  obtain ⟨c, -, hbase⟩ := heff.inv rel.base hadm
  induction heff generalizing N c with
  | createTaken hm hseed hkey =>
      obtain ⟨n, hn, -, -⟩ := rel.found hkey
      exact ⟨N, .createTaken hn, rel.quiet hbase rfl rel.memory⟩
  | @createFresh s addr p a mode uid gid hm hfree hseed hkey =>
      refine ⟨_, .createFresh (rel.not_found hkey) (rel.base.counter hm).1,
        rel.createFresh hbase hm addr mode uid gid hseed (hapart rfl) ?_ ?_⟩
      · cases addr <;> rfl
      · cases addr <;> rfl
  | lookupNone hkey => exact ⟨N, .lookupNone (rel.unnamed hkey), rel⟩
  | lookupFound hfree hkey hrec =>
      obtain ⟨ino, hino, rfl, hnum⟩ := rel.found hkey
      obtain ⟨-, hm⟩ := rel.fetched hkey (by rw [hnum]; exact hrec)
      rw [hnum]
      exact ⟨N, .lookupFound hino,
        rel.putInode hbase hm rfl rfl rfl rfl rfl⟩
  | openNull hw hnone =>
      obtain ⟨hfind, hflag⟩ := rel.nothingToOpen hnone
      rw [draws_openFile_of_nothing hnone]
      refine ⟨N, .openNone hfind hflag, rel.quiet hbase ?_ rel.memory⟩
      rcases hw with rfl | rfl <;> rfl
  | openPlain hfree hflag hkey hrec =>
      obtain ⟨hfind, hm⟩ := rel.fetched hkey hrec
      rw [draws_openFile_of_found hkey]
      exact ⟨N, .openFound hfind, rel.putInode hbase hm rfl rfl rfl rfl rfl⟩
  | @openTrunc s fd addr p a flags mode v u n extents hfree hflag hkey hrec
      hrec' hcount =>
      obtain ⟨hfind, hap, hown⟩ := rel.fetched hkey hrec
      rw [draws_openFile_of_found hkey]
      exact ⟨N, .openFound hfind,
        rel.truncated (m := { n with refCnt := 1 }) hbase
          ⟨hap, hown.of_same rfl rfl rfl⟩ rfl rfl rfl rfl rfl⟩
  | @openCreate s s₁ s' fd addr p a flags mode ino r hflag hkey hcreate hopen
      ihc iho =>
      have hnone := rel.not_found hkey
      have hdraws : s.draws (.openFile fd addr p a flags mode) = true :=
        draws_openFile_of_absent hflag hkey
      have hplain : Admissible s (.create none p a mode 0 0) :=
        Call.Plain.admissible trivial
      obtain ⟨c₁, -, hbase₁⟩ := hcreate.inv rel.base hplain
      obtain ⟨N₁, hstep₁, rel₁⟩ := ihc rel hplain
        (fun _ _ h => (by cases h)) (fun _ => hapart hdraws) c₁ hbase₁
      -- the name is there now, so the open draws nothing
      obtain ⟨v, hentry⟩ := hcreate.entry_of_create
      have hquiet : s₁.draws (.openFile fd addr p a flags mode) = false :=
        draws_openFile_of_found hentry
      obtain ⟨N₂, hstep₂, rel₂⟩ := iho rel₁
        (Call.Plain.admissible trivial) hsized
        (fun h => by rw [hquiet] at h; cases h) c hbase
      rw [hquiet] at hstep₂
      rw [hdraws]
      exact ⟨N₂, openCreate_step hflag hnone hstep₁ hstep₂, rel₂⟩
  | byInodePlain hinode hflag =>
      exact ⟨N, .other trivial, rel.putInode hbase (rel.memory _ _ hinode)
        rfl rfl rfl rfl rfl⟩
  | byInodeTrunc hinode hflag hrec hcount =>
      exact ⟨N, .other trivial, rel.truncated hbase (rel.memory _ _ hinode)
        rfl rfl rfl rfl rfl⟩
  | byInodeLost => exact ⟨N, .other trivial, rel.quiet hbase rfl rel.memory⟩
  | @wrote s call fd addr offset data f hcall hfile hE hend =>
      obtain ⟨hnameless, hquiet⟩ := nameless_of_writes (s := s) hcall
      rw [hquiet]
      exact ⟨N, .other hnameless, rel.wrote hbase hfile rfl rfl⟩
  | @didRead s fd addr offset n outBuf f hfile =>
      exact ⟨N, .other trivial, rel.putInode hbase
        (rel.memory _ _ (file_eq_some hfile).2) rfl rfl
        (touched_inode_iNo f s.world.clock)
        (touched_iLinksCount f s.world.clock)
        (touched_iExtentSize f s.world.clock)⟩
  | synced hfile =>
      have hm := rel.memory _ _ (file_eq_some hfile).2
      exact ⟨N, .other trivial, rel.putRecord hbase hm hm.2
        (syncOps_meta _ _) rfl rfl rfl rfl⟩
  | closed hfile =>
      obtain ⟨hap, hown⟩ := rel.memory _ _ (file_eq_some hfile).2
      exact ⟨N, .other trivial, rel.record hbase hap hown (syncOps_meta _ _)
        rel.memory⟩
  | persisted hinode =>
      exact ⟨N, .other trivial,
        rel.persisted hbase hinode hadm hsized rfl rfl⟩
  | unlinkNone hkey => exact ⟨N, .unlinkNone (rel.unnamed hkey), rel⟩
  | unlinkLast hkey hrec hlinks hcount =>
      obtain ⟨n, hn, -, -⟩ := rel.found hkey
      exact ⟨_, .unlinkFound hn, rel.unlink hbase
        (unlinkOps_meta _ _ _ _ _) rfl⟩
  | unlinkMore hkey hrec hlinks =>
      exact absurd (rel.one_link hkey hrec) hlinks
  | umounted =>
      exact ⟨N, .other trivial, rel.quiet hbase rfl fun _ _ h => by cases h⟩
  | mounted hm hseed hrange =>
      exact ⟨N, .other trivial, rel.mounted hbase rfl rfl⟩

end ViveNas
