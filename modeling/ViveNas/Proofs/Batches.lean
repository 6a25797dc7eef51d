/-
What a call's batch does, seen from one key of one column.

A write, a truncation and a sync each touch the extents of one inode and
that inode's record, and nothing else. The lemmas here say what they
leave under such a key and that every other key keeps its value; proofs
about runs use them and never look into a batch.
-/
import ViveNas.Proofs.Extent
import ViveNas.Proofs.Keys
import ViveNas.Proofs.CallSpec
import ViveNas.Proofs.WriteSpec

namespace ViveNas

open LittleEndian Overlay Paging FlatFile

variable (db : Store)

-- ============================================================== extents

/-- The key belongs to another inode's extent, or to none. -/
def NotExtentOf (ino : Nat) (key : Bytes) : Prop :=
  ∀ idx, vnExtentKey idx ino ≠ key

/-- Extents of two inodes have different keys. -/
theorem notExtentOf_of_ne {ino ino' : Nat} (idx : Nat) (hino : ino < 2 ^ 64)
    (hino' : ino' < 2 ^ 64) (hne : ino ≠ ino') :
    NotExtentOf ino (vnExtentKey idx ino') := by
  intro j h
  have htail := congrArg (List.drop 8) h
  rw [vnExtentKey, vnExtentKey, List.drop_left' (leBytes_length 8 j),
    List.drop_left' (leBytes_length 8 idx)] at htail
  exact hne (leBytes_inj (by omega) (by omega) htail)

/-- A batch that holds one write for each of `n` extents of an inode, seen
from another extent. -/
theorem applyBatch_data_notExtent {ino : Nat} {f : Nat → WriteOp}
    {key : Bytes} (hkey : NotExtentOf ino key)
    (hf : ∀ j old, vnExtentKey j ino ≠ key → (f j).onData key old = old)
    (i n : Nat) :
    (db.applyBatch ((List.range' i n).map f)).dataCf[key]?
      = db.dataCf[key]? := by
  refine db.applyBatch_data_of_fixed ?_
  intro op hop old
  obtain ⟨j, -, rfl⟩ := List.mem_map.mp hop
  exact hf j old (hkey j)

/-- The same batch, seen from the extent `j` of that inode. -/
theorem applyBatch_data_extent {ino : Nat} {f : Nat → WriteOp}
    (hino : ino < 2 ^ 64)
    (hf : ∀ j key old, vnExtentKey j ino ≠ key → (f j).onData key old = old)
    {i n j : Nat} (hn : i + n ≤ 2 ^ 64) (hj : j < 2 ^ 64) :
    (db.applyBatch ((List.range' i n).map f)).dataCf[vnExtentKey j ino]?
      = if i ≤ j ∧ j < i + n then
          (f j).onData (vnExtentKey j ino) db.dataCf[vnExtentKey j ino]?
        else db.dataCf[vnExtentKey j ino]? := by
  refine db.applyBatch_data_indexed ?_
  intro k _ hk hne old
  refine hf k _ old fun heq => hne ?_
  exact (vnExtentKey_inj (by omega) hj hino hino heq).1

-- ============================================================ truncation

/-- The number of extents a size covers. -/
theorem extentCount_ok {n : ViveInode} (hE : 0 < n.iExtentSize.toNat)
    (hsize : n.iSize.toNat < 2 ^ 63) :
    extentCount n = .ok ((n.iSize.toNat + n.iExtentSize.toNat - 1)
      / n.iExtentSize.toNat) := by
  have hE' := n.iExtentSize.toNat_lt
  have hle := roundUp_le hE n.iSize.toNat
  rw [extentCount, if_neg (by omega), u64_of_lt (by omega),
    asInt64_of_lt (by omega), Int.toNat_natCast]

theorem deleteOp_onData {ino j : Nat} {key : Bytes}
    (old : Option (Entry Bytes)) (hne : vnExtentKey j ino ≠ key) :
    (WriteOp.delete .dataCf (vnExtentKey j ino)).onData key old = old :=
  if_neg hne

theorem deleteOps_notMeta {cf : Cf} (hcf : cf ≠ .metaCf) (ino n i : Nat) :
    ∀ op ∈ deleteOps cf ino n i, op.NotMeta := by
  intro op hop
  obtain ⟨j, -, rfl⟩ := List.mem_map.mp hop
  exact hcf

/-- A truncation, seen from an extent of the file. -/
theorem truncOps_extent {inode : ViveInode} {extents j : Nat}
    (hn : extents ≤ 2 ^ 64) (hj : j < 2 ^ 64) :
    (db.applyBatch (truncOps inode extents)).dataCf[
        vnExtentKey j inode.iNo.toNat]?
      = if j < extents then none
        else db.dataCf[vnExtentKey j inode.iNo.toNat]? := by
  rw [truncOps, Store.applyBatch_append, Store.applyBatch_data_of_notData]
  · rw [deleteOps, applyBatch_data_extent db inode.iNo.toNat_lt
      (fun j key old hne => deleteOp_onData old hne) (by omega) hj]
    by_cases hlt : j < extents
    · rw [if_pos (by omega), if_pos hlt]
      exact if_pos rfl
    · rw [if_neg (by omega), if_neg hlt]
  · intro op hop
    obtain rfl := List.mem_singleton.mp hop
    exact fun h => by cases h

/-- A truncation, seen from any other extent. -/
theorem truncOps_data {inode : ViveInode} {key : Bytes}
    (hkey : NotExtentOf inode.iNo.toNat key) (extents : Nat) :
    (db.applyBatch (truncOps inode extents)).dataCf[key]?
      = db.dataCf[key]? := by
  rw [truncOps, Store.applyBatch_append, Store.applyBatch_data_of_notData]
  · exact applyBatch_data_notExtent db hkey
      (fun j old hne => deleteOp_onData old hne) 0 extents
  · intro op hop
    obtain rfl := List.mem_singleton.mp hop
    exact fun h => by cases h

/-- A truncation, seen from a key of meta_cf. -/
theorem truncOps_meta (inode : ViveInode) (extents : Nat) (key : Bytes) :
    (db.applyBatch (truncOps inode extents)).metaCf[key]?
      = if inodeKey inode.iNo.toNat = key then
          some { inode with iSize := 0 }.toBytes
        else db.metaCf[key]? := by
  rw [truncOps, Store.applyBatch_append, Store.applyBatch_singleton,
    Store.applyOp_meta, Store.applyBatch_meta_of_notMeta _
    (deleteOps_notMeta (by decide) _ _ _)]
  rfl

-- =============================================================== writes

section Writes

variable {ino E offset : Nat} {data : Bytes}

theorem segmentOp_notMeta (j : Nat) :
    (segmentOp ino E offset data j).NotMeta := by
  rw [segmentOp]
  split
  · trivial
  · exact fun h => by cases h

theorem segmentOp_onData {j : Nat} {key : Bytes}
    (old : Option (Entry Bytes)) (hne : vnExtentKey j ino ≠ key) :
    (segmentOp ino E offset data j).onData key old = old := by
  rw [segmentOp]
  split
  · exact if_neg hne
  · exact if_neg hne

/-- An extent a write reaches is there afterwards. -/
theorem segmentOp_onData_self {j : Nat} (old : Option (Entry Bytes)) :
    (segmentOp ino E offset data j).onData (vnExtentKey j ino) old
      ≠ none := by
  rw [segmentOp]
  split
  · rw [WriteOp.onData, if_pos rfl]
    exact Option.some_ne_none _
  · rw [WriteOp.onData, if_pos rfl]
    exact Option.some_ne_none _

theorem writeOps_notMeta :
    ∀ op ∈ writeOps ino E offset data, op.NotMeta := by
  intro op hop
  obtain ⟨j, -, rfl⟩ := List.mem_map.mp hop
  exact segmentOp_notMeta j

theorem growOps_notData (file : ViveFile) (now : UInt64) (endOff : Nat) :
    ∀ op ∈ growOps file now endOff, op.NotData := by
  intro op hop
  rw [growOps] at hop
  split at hop
  · obtain rfl := List.mem_singleton.mp hop
    exact fun h => by cases h
  · cases hop

/-- An extent the write does not reach lies before or behind it. -/
theorem outside_of_not_reached {offset len i E : Nat} (hE : 0 < E)
    (h : ¬ (offset / E ≤ i ∧ i < (offset + len + E - 1) / E)) :
    (i + 1) * E ≤ offset ∨ offset + len ≤ i * E := by
  by_cases hlow : offset / E ≤ i
  · right
    have hhigh : (offset + len + E - 1) / E ≤ i := by omega
    calc offset + len ≤ (offset + len + E - 1) / E * E :=
          le_roundUp_mul hE _
      _ ≤ i * E := Nat.mul_le_mul_right E hhigh
  · left
    exact (Nat.le_div_iff_mul_le hE).mp (by omega)

/-- An extent the write reaches begins before its end. -/
theorem begins_before_end {offset len i E : Nat} (hE : 0 < E)
    (h : i < (offset + len + E - 1) / E) : i * E < offset + len := by
  have hmul : (i + 1) * E = i * E + E := Nat.succ_mul i E
  have hle : (i + 1) * E ≤ offset + len + E - 1 :=
    (Nat.le_div_iff_mul_le hE).mp h
  omega

/-- A write's batch, seen from an extent of the file. -/
theorem writeOps_extent (hino : ino < 2 ^ 64) (hE : 0 < E)
    (hE' : E ≤ 2 ^ 32) (hend : offset + data.length < 2 ^ 63)
    (file : ViveFile) (now : UInt64) {j : Nat} (hj : j < 2 ^ 64) :
    (db.applyBatch (writeOps ino E offset data
        ++ growOps file now (offset + data.length))).dataCf[
          vnExtentKey j ino]?
      = if offset / E ≤ j ∧ j < (offset + data.length + E - 1) / E then
          (segmentOp ino E offset data j).onData (vnExtentKey j ino)
            db.dataCf[vnExtentKey j ino]?
        else db.dataCf[vnExtentKey j ino]? := by
  have hturns := startExt_add_turns hE hE' hend
  have hle := roundUp_le hE (offset + data.length)
  rw [Store.applyBatch_append, Store.applyBatch_data_of_notData _
    (growOps_notData file now _), writeOps, applyBatch_data_extent db hino
    (fun j key old hne => segmentOp_onData old hne) (by omega) hj, hturns]
  rfl

/-- A write's batch, seen from any other extent. -/
theorem writeOps_data {key : Bytes} (hkey : NotExtentOf ino key)
    (file : ViveFile) (now : UInt64) (endOff : Nat) :
    (db.applyBatch (writeOps ino E offset data
        ++ growOps file now endOff)).dataCf[key]?
      = db.dataCf[key]? := by
  rw [Store.applyBatch_append, Store.applyBatch_data_of_notData _
    (growOps_notData file now _)]
  exact applyBatch_data_notExtent db hkey
    (fun j old hne => segmentOp_onData old hne) _ _

/-- A write's batch, seen from a key of meta_cf. -/
theorem writeOps_meta (file : ViveFile) (now : UInt64) (endOff : Nat)
    (key : Bytes) :
    (db.applyBatch (writeOps ino E offset data
        ++ growOps file now endOff)).metaCf[key]?
      = if file.inode.iSize.toNat < endOff
            ∧ inodeKey file.inode.iNo.toNat = key then
          some (wroteFile file now endOff).inode.toBytes
        else db.metaCf[key]? := by
  rw [Store.applyBatch_append, growOps]
  by_cases hgrow : file.inode.iSize.toNat < endOff
  · rw [if_pos hgrow, Store.applyBatch_singleton, Store.applyOp_meta,
      Store.applyBatch_meta_of_notMeta _ writeOps_notMeta, WriteOp.onMeta]
    by_cases hkey : inodeKey file.inode.iNo.toNat = key
    · rw [if_pos hkey, if_pos ⟨hgrow, hkey⟩]
    · rw [if_neg hkey, if_neg fun h => hkey h.2]
  · rw [if_neg hgrow, if_neg fun h => hgrow h.1, Store.applyBatch_nil,
      Store.applyBatch_meta_of_notMeta _ writeOps_notMeta]

/-- The piece of an extent that a write reaches, laid over what the extent
held. -/
theorem segmentOp_apply {old : Option (Entry Bytes)} {held : Bytes} {j : Nat}
    (hold : Holds old held) (hj : offset / vivefsExtentSize ≤ j) :
    Holds ((segmentOp ino vivefsExtentSize offset data j).onData
        (vnExtentKey j ino) old)
      ((piece vivefsExtentSize offset data j).apply held) := by
  have hfit := piece_fits extentSize_pos hj data
  rw [segmentOp]
  set p := piece vivefsExtentSize offset data j
  by_cases hwhole : p.data.length ≠ vivefsExtentSize
  · -- a piece of an extent is merged
    have hoff : p.off < 65536 := by
      have := Nat.mod_lt (offset + cut vivefsExtentSize offset data.length j)
        extentSize_pos
      rw [← extentSize_eq]
      exact this
    rw [if_pos hwhole]
    show Holds (if vnExtentKey j ino = vnExtentKey j ino then _ else _) _
    rw [if_pos rfl]
    have hpatch : (Delta.make p.off p.data hfit hoff).patch = _ :=
      Delta.make_patch
    have hpush := hold.push (Delta.make p.off p.data hfit hoff)
    rw [hpatch] at hpush
    exact hpush
  · -- a whole extent is put
    have hlen : p.data.length = vivefsExtentSize := not_ne_iff.mp hwhole
    have hoff : p.off = 0 := by
      rw [Patch.hi] at hfit
      omega
    have hput := holds_put ⟨vnExtentHead p.off ++ p.data, by
      rw [List.length_append, vnExtentHead_length, hlen]⟩
    rw [dataOf_vnExtentHead] at hput
    rw [if_neg hwhole, Patch.apply, hoff, overwrite_all (by
      rw [hlen, hold.length])]
    show Holds (if vnExtentKey j ino = vnExtentKey j ino then _ else _) _
    rw [if_pos rfl, ← hoff]
    exact hput

/-- What the extent held of the file before, it holds of the file
after. -/
theorem segmentOp_holds {f : Bytes} {old : Option (Entry Bytes)} {j : Nat}
    (hold : Holds old (page 0 vivefsExtentSize f j))
    (hj : offset / vivefsExtentSize ≤ j) :
    Holds ((segmentOp ino vivefsExtentSize offset data j).onData
        (vnExtentKey j ino) old)
      (page 0 vivefsExtentSize (write 0 f offset data) j) := by
  rw [page_write extentSize_pos hj]
  exact segmentOp_apply hold hj

end Writes

-- ============================================================== unlinks

/-- Unlinking the last link, seen from a key of meta_cf. -/
theorem unlinkOps_meta (parent : Int) (name : FileName) (ino extents : Nat)
    (key : Bytes) :
    (db.applyBatch (unlinkOps parent name ino extents)).metaCf[key]?
      = if fileKey parent name = key then none else db.metaCf[key]? := by
  rw [unlinkOps, Store.applyBatch_append, Store.applyBatch_singleton,
    Store.applyOp_meta, Store.applyBatch_meta_of_notMeta _
      (deleteOps_notMeta (by decide) _ _ _)]
  rfl

-- ================================================================ syncs

theorem syncOps_notData (file : ViveFile) :
    ∀ op ∈ syncOps file, op.NotData := by
  intro op hop
  rw [syncOps] at hop
  split at hop
  · obtain rfl := List.mem_singleton.mp hop
    exact fun h => by cases h
  · cases hop

/-- A sync, seen from a key of meta_cf. -/
theorem syncOps_meta (file : ViveFile) (key : Bytes) :
    (db.applyBatch (syncOps file)).metaCf[key]?
      = if file.dirty = true ∧ inodeKey file.inode.iNo.toNat = key then
          some file.inode.toBytes
        else db.metaCf[key]? := by
  rw [syncOps]
  by_cases hdirty : file.dirty = true
  · rw [if_pos hdirty, Store.applyBatch_singleton, Store.applyOp_meta,
      WriteOp.onMeta]
    by_cases hkey : inodeKey file.inode.iNo.toNat = key
    · rw [if_pos hkey, if_pos ⟨hdirty, hkey⟩]
    · rw [if_neg hkey, if_neg fun h => hkey h.2]
  · rw [if_neg hdirty, if_neg fun h => hdirty h.1, Store.applyBatch_nil]

end ViveNas
