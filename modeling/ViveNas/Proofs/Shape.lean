/-
The shape of a store the file system has written: what its keys and
values may look like, below a bound `c` on the inode numbers given out.

Nothing here needs the three key formats of meta_cf to stay apart. A
value is a number of at most `c` or a record of a number below it,
whatever key it is under; that is enough for every number read back from
the store, by a name or by a record, to be one that was given out.

# The bound

The bound is a parameter and only grows (`StoreShape.mono`). A batch
keeps the shape if each of its writes fits the bound (`WriteOp.Fits`),
and the last section goes through the batches of the calls.
-/
import ViveNas.Mount
import ViveNas.Proofs.Keys
import ViveNas.Proofs.Store
import ViveNas.Proofs.CallSpec
import ViveNas.Proofs.WriteSpec

namespace ViveNas

open LittleEndian FlatFile

-- =============================================================== values

/-- A value of meta_cf other than the superblock: a number, or a
record. -/
def MetaValue (c : Nat) (v : Bytes) : Prop :=
  (∃ m ≤ c, v = leBytes 8 m) ∨ ∃ n : ViveInode, v = n.toBytes ∧ n.iNo.toNat < c

theorem MetaValue.mono {c c' : Nat} {v : Bytes} (h : MetaValue c v)
    (hc : c ≤ c') : MetaValue c' v := by
  rcases h with ⟨m, hm, rfl⟩ | ⟨n, rfl, hn⟩
  · exact Or.inl ⟨m, by omega, rfl⟩
  · exact Or.inr ⟨n, rfl, by omega⟩

/-- A value is 8 or 256 bytes long. -/
theorem MetaValue.length {c : Nat} {v : Bytes} (h : MetaValue c v) :
    v.length = 8 ∨ v.length = vivefsInodeSize := by
  rcases h with ⟨m, hm, rfl⟩ | ⟨n, rfl, hn⟩
  · exact Or.inl (leBytes_length 8 m)
  · exact Or.inr n.toBytes_length

theorem MetaValue.eight_le {c : Nat} {v : Bytes} (h : MetaValue c v) :
    8 ≤ v.length := by
  rcases h.length with h8 | h256
  · omega
  · rw [h256]
    decide

/-- No value is as long as the superblock's key. -/
theorem MetaValue.ne_superblockKey {c : Nat} {v : Bytes}
    (h : MetaValue c v) : v ≠ superblockKey := by
  rintro rfl
  rcases h.length with hlen | hlen <;> revert hlen <;> decide

/-- The number a value starts with is one that was given out, or the
next. -/
theorem MetaValue.number_le {c : Nat} {v : Bytes} (h : MetaValue c v)
    (hc : c < 2 ^ 63) : leNat (v.take 8) ≤ c := by
  rcases h with ⟨m, hm, rfl⟩ | ⟨n, rfl, hn⟩
  · rw [List.take_of_length_le (by rw [leBytes_length]),
      leNat_leBytes_of_lt (by omega)]
    exact hm
  · rw [n.leNat_take_toBytes]
    omega

/-- A value that deserialises is a record. -/
theorem MetaValue.record {c : Nat} {v : Bytes} (h : MetaValue c v)
    {n' : ViveInode} (hd : deserializeInode v = .ok n') :
    ∃ n : ViveInode, v = n.toBytes ∧ n.iNo.toNat < c := by
  rcases h with ⟨m, -, rfl⟩ | hrec
  · rw [deserializeInode, leBytes_length, if_neg (by decide)] at hd
    cases hd
  · exact hrec

-- ============================================================== the shape

/-- What the store looks like while numbers below `c` have been given out. -/
structure StoreShape (codec : SuperblockCodec) (db : Store) (c : Nat) :
    Prop where
  superblock : db.metaCf[superblockKey]?
    = some (codec.serialize vivefsSuperBlock)
  values : ∀ key v, db.metaCf[key]? = some v → key ≠ superblockKey →
    MetaValue c v
  extents : ∀ key e, db.dataCf[key]? = some e →
    ∃ idx ino, key = vnExtentKey idx ino ∧ ino < c

/-- A record is one of a number below the bound. -/
theorem StoreShape.record_lt {codec : SuperblockCodec} {db : Store} {c : Nat}
    (h : StoreShape codec db c) {key : Bytes} {n : ViveInode}
    (hkey : key ≠ superblockKey) (hrec : db.metaCf[key]? = some n.toBytes) :
    n.iNo.toNat < c := by
  rcases h.values key _ hrec hkey with ⟨m, -, hm⟩ | ⟨n', hn', hlt⟩
  · have hlen := congrArg List.length hm
    rw [n.toBytes_length, leBytes_length] at hlen
    exact absurd hlen (by decide)
  · rw [ViveInode.toBytes_inj hn']
    exact hlt

/-- A write that keeps the shape and leaves the seed alone. -/
def WriteOp.Fits (c : Nat) : WriteOp → Prop
  | .put .metaCf k v => k ≠ superblockKey ∧ k ≠ inodeSeedKey ∧ MetaValue c v
  | .put .dataCf k _ => ∃ idx ino, k = vnExtentKey idx ino ∧ ino < c
  | .put .defaultCf _ _ => True
  | .merge k _ => ∃ idx ino, k = vnExtentKey idx ino ∧ ino < c
  | .delete .metaCf k => k ≠ superblockKey ∧ k ≠ inodeSeedKey
  | .delete .dataCf _ => True
  | .delete .defaultCf _ => True

theorem WriteOp.Fits.mono {c c' : Nat} {op : WriteOp} (h : op.Fits c)
    (hc : c ≤ c') : op.Fits c' := by
  have hextent {k : Bytes}
      (hk : ∃ idx ino, k = vnExtentKey idx ino ∧ ino < c) :
      ∃ idx ino, k = vnExtentKey idx ino ∧ ino < c' := by
    obtain ⟨idx, ino, hkey, hino⟩ := hk
    exact ⟨idx, ino, hkey, by omega⟩
  cases op with
  | put cf k v =>
      cases cf with
      | metaCf => exact ⟨h.1, h.2.1, h.2.2.mono hc⟩
      | dataCf => exact hextent h
      | defaultCf => trivial
  | merge k v => exact hextent h
  | delete cf k => cases cf <;> exact h

section Shape

variable {codec : SuperblockCodec} {db : Store} {c c' : Nat}

/-- A store keeps its shape as the bound grows. -/
theorem StoreShape.mono (h : StoreShape codec db c) (hc : c ≤ c') :
    StoreShape codec db c' where
  superblock := h.superblock
  values key v hv hkey := (h.values key v hv hkey).mono hc
  extents key e he := by
    obtain ⟨idx, ino, hkey, hino⟩ := h.extents key e he
    exact ⟨idx, ino, hkey, by omega⟩

/-- A write to one key of the metadata, other than the superblock's. -/
theorem StoreShape.on_meta (h : StoreShape codec db c) {op : WriteOp}
    {k : Bytes} {new : Option Bytes} (hk : k ≠ superblockKey)
    (hmeta : ∀ key old, op.onMeta key old = if k = key then new else old)
    (hdata : (db.applyOp op).dataCf = db.dataCf)
    (hnew : ∀ v, new = some v → MetaValue c v) :
    StoreShape codec (db.applyOp op) c where
  superblock := by
    rw [Store.applyOp_meta, hmeta, if_neg hk]
    exact h.superblock
  values key u hu hkey := by
    rw [Store.applyOp_meta, hmeta] at hu
    split at hu
    · exact hnew u hu
    · exact h.values key u hu hkey
  extents := by
    rw [hdata]
    exact h.extents

theorem StoreShape.put_meta (h : StoreShape codec db c) {k v : Bytes}
    (hk : k ≠ superblockKey) (hv : MetaValue c v) :
    StoreShape codec (db.applyOp (.put .metaCf k v)) c :=
  h.on_meta hk (fun _ _ => rfl) rfl fun _ hu => Option.some.inj hu ▸ hv

theorem StoreShape.delete_meta (h : StoreShape codec db c) {k : Bytes}
    (hk : k ≠ superblockKey) :
    StoreShape codec (db.applyOp (.delete .metaCf k)) c :=
  h.on_meta hk (fun _ _ => rfl) rfl fun _ hu => by cases hu

/-- A write to data_cf keeps the shape if its key is an extent's, of a
number that was given out. -/
theorem StoreShape.on_data (h : StoreShape codec db c) {op : WriteOp}
    {k : Bytes} (hmeta : op.NotMeta)
    (hdata : ∀ key old, k ≠ key → op.onData key old = old)
    (hk : ∃ idx ino, k = vnExtentKey idx ino ∧ ino < c) :
    StoreShape codec (db.applyOp op) c where
  superblock := by
    rw [Store.applyOp_meta, WriteOp.onMeta_of_notMeta hmeta]
    exact h.superblock
  values key u hu hkey := by
    rw [Store.applyOp_meta, WriteOp.onMeta_of_notMeta hmeta] at hu
    exact h.values key u hu hkey
  extents key e he := by
    by_cases hkey : k = key
    · exact hkey ▸ hk
    · rw [Store.applyOp_data, hdata key _ hkey] at he
      exact h.extents key e he

/-- One write that fits keeps the shape ... -/
theorem StoreShape.applyOp (h : StoreShape codec db c) {op : WriteOp}
    (hop : op.Fits c) : StoreShape codec (db.applyOp op) c := by
  cases op with
  | put cf k v =>
      cases cf with
      | metaCf => exact h.put_meta hop.1 hop.2.2
      | dataCf =>
          refine h.on_data (fun hc => by cases hc) (fun key old hne => ?_) hop
          rw [WriteOp.onData, if_neg hne]
      | defaultCf => exact ⟨h.superblock, h.values, h.extents⟩
  | merge k v =>
      refine h.on_data trivial (fun key old hne => ?_) hop
      rw [WriteOp.onData, if_neg hne]
  | delete cf k =>
      cases cf with
      | metaCf => exact h.delete_meta hop.1
      | dataCf =>
          refine ⟨h.superblock, h.values, fun key e he => ?_⟩
          rw [Store.applyOp_data, WriteOp.onData] at he
          split at he
          · cases he
          · exact h.extents key e he
      | defaultCf => exact ⟨h.superblock, h.values, h.extents⟩

/-- ... and so does a batch of them. -/
theorem StoreShape.applyBatch (h : StoreShape codec db c)
    {batch : List WriteOp} (hb : ∀ op ∈ batch, op.Fits c) :
    StoreShape codec (db.applyBatch batch) c := by
  induction batch generalizing db with
  | nil => exact h
  | cons op batch ih =>
      exact ih (h.applyOp (hb op (List.mem_cons_self ..)))
        fun q hq => hb q (List.mem_cons_of_mem _ hq)

/-- Writes of that kind leave the committed seed alone. -/
theorem applyBatch_seed_of_fits {batch : List WriteOp}
    (hb : ∀ op ∈ batch, op.Fits c) :
    (db.applyBatch batch).metaCf[inodeSeedKey]?
      = db.metaCf[inodeSeedKey]? := by
  induction batch generalizing db with
  | nil => rfl
  | cons op batch ih =>
      have hop := hb op (List.mem_cons_self ..)
      refine (ih fun q hq => hb q (List.mem_cons_of_mem _ hq)).trans ?_
      rw [Store.applyOp_meta]
      cases op with
      | put cf k v =>
          cases cf with
          | metaCf => rw [WriteOp.onMeta, if_neg hop.2.1]
          | dataCf => rfl
          | defaultCf => rfl
      | merge k v => rfl
      | delete cf k =>
          cases cf with
          | metaCf => rw [WriteOp.onMeta, if_neg hop.2]
          | dataCf => rfl
          | defaultCf => rfl

end Shape

-- ==================================================== the batches that fit

section Batches

variable {c : Nat}

/-- A record may be written under its own number's key. -/
theorem fits_record {n : ViveInode} (hn : n.iNo.toNat < c) :
    (WriteOp.put .metaCf (inodeKey n.iNo.toNat) n.toBytes).Fits c :=
  ⟨inodeKey_ne_superblockKey _, inodeKey_ne_inodeSeedKey _,
    Or.inr ⟨n, rfl, hn⟩⟩

/-- What a write puts and merges. -/
theorem fits_writeOps {ino E offset : Nat} (data : Bytes) (hino : ino < c) :
    ∀ op ∈ writeOps ino E offset data, op.Fits c := by
  intro op hop
  obtain ⟨j, -, rfl⟩ := List.mem_map.mp hop
  rw [segmentOp]
  split
  · exact ⟨j, ino, rfl, hino⟩
  · exact ⟨j, ino, rfl, hino⟩

theorem fits_growOps {file : ViveFile} {now : UInt64} {endOff : Nat}
    (hino : file.inode.iNo.toNat < c) :
    ∀ op ∈ growOps file now endOff, op.Fits c := by
  intro op hop
  rw [growOps] at hop
  split at hop
  · obtain rfl := List.mem_singleton.mp hop
    have hsame := wroteFile_iNo file now endOff
    have hfit := fits_record (c := c) (n := (wroteFile file now endOff).inode)
      (by rw [hsame]; exact hino)
    rwa [hsame] at hfit
  · cases hop

/-- The deletes of a truncation and of an unlink: a delete fits anywhere
outside meta_cf. -/
theorem fits_deleteOps {cf : Cf} (hcf : cf ≠ .metaCf) (ino n i : Nat) :
    ∀ op ∈ deleteOps cf ino n i, op.Fits c := by
  intro op hop
  obtain ⟨j, -, rfl⟩ := List.mem_map.mp hop
  cases cf with
  | metaCf => exact absurd rfl hcf
  | dataCf => trivial
  | defaultCf => trivial

theorem fits_truncOps {inode : ViveInode} (hino : inode.iNo.toNat < c)
    (extents : Nat) : ∀ op ∈ truncOps inode extents, op.Fits c := by
  intro op hop
  rcases List.mem_append.mp hop with hdel | hput
  · exact fits_deleteOps (by decide) _ _ _ op hdel
  · obtain rfl := List.mem_singleton.mp hput
    exact fits_record (n := { inode with iSize := 0 }) hino

/-- An unlink deletes and writes nothing, so no bound is needed. -/
theorem fits_unlinkOps (parent : Int) (name : FileName) (ino extents : Nat) :
    ∀ op ∈ unlinkOps parent name ino extents, op.Fits c := by
  intro op hop
  rcases List.mem_append.mp hop with hdel | hentry
  · exact fits_deleteOps (by decide) _ _ _ op hdel
  · obtain rfl := List.mem_singleton.mp hentry
    exact ⟨fileKey_ne_superblockKey parent name,
      fileKey_ne_inodeSeedKey parent name⟩

theorem fits_syncOps {file : ViveFile} (hino : file.inode.iNo.toNat < c) :
    ∀ op ∈ syncOps file, op.Fits c := by
  intro op hop
  rw [syncOps] at hop
  split at hop
  · obtain rfl := List.mem_singleton.mp hop
    exact fits_record hino
  · cases hop

/-- A create keeps the shape and moves the seed past its number. -/
theorem StoreShape.create {codec : SuperblockCodec} {db : Store}
    (h : StoreShape codec db c) {seed : Nat} (hc : c ≤ seed)
    (hseed : seed < 2 ^ 64) (parent : Int) (name : FileName)
    (mode uid gid : UInt16) (now : UInt64) :
    StoreShape codec (db.applyBatch
      (createOps parent name seed (newInode seed mode uid gid now)))
      (seed + 1) := by
  have hbump := h.mono (show c ≤ seed + 1 by omega)
  have hentry := hbump.put_meta (fileKey_ne_superblockKey parent name)
    (Or.inl ⟨seed, by omega, rfl⟩)
  have hrecord := hentry.put_meta (inodeKey_ne_superblockKey seed)
    (v := (newInode seed mode uid gid now).toBytes)
    (Or.inr ⟨_, rfl, by rw [newInode_iNo hseed]; omega⟩)
  exact hrecord.put_meta superblockKey_ne_inodeSeedKey.symm
    (Or.inl ⟨seed + 1, Nat.le_refl _, rfl⟩)

/-- A create, seen from a key of meta_cf. -/
theorem createOps_meta (db : Store) (parent : Int) (name : FileName)
    (seed : Nat) (inode : ViveInode) (key : Bytes) :
    (db.applyBatch (createOps parent name seed inode)).metaCf[key]?
      = if inodeSeedKey = key then some (leBytes 8 (seed + 1))
        else if inodeKey seed = key then some inode.toBytes
        else if fileKey parent name = key then some (leBytes 8 seed)
        else db.metaCf[key]? := by
  rw [Store.applyBatch_meta]
  rfl

/-- A new name leads to its number, even if the name's key should be the
number's own bytes. -/
theorem createOps_entry (db : Store) (parent : Int) (name : FileName)
    {seed : Nat} (hseed : seed < 2 ^ 64) (mode uid gid : UInt16)
    (now : UInt64) :
    ∃ v, (db.applyBatch (createOps parent name seed
        (newInode seed mode uid gid now))).metaCf[fileKey parent name]?
        = some v
      ∧ leNat (v.take 8) = seed := by
  rw [createOps_meta, if_neg (fileKey_ne_inodeSeedKey parent name).symm]
  by_cases hclash : inodeKey seed = fileKey parent name
  · rw [if_pos hclash]
    refine ⟨_, rfl, ?_⟩
    rw [ViveInode.leNat_take_toBytes, newInode_iNo hseed]
  · rw [if_neg hclash, if_pos rfl]
    refine ⟨_, rfl, ?_⟩
    rw [List.take_of_length_le (by rw [leBytes_length]),
      leNat_leBytes_of_lt hseed]

end Batches

end ViveNas
