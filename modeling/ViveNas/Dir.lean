/-
The namespace half of vn_file.cpp: creating, looking up and unlinking
names, and walking a directory.

Each function is the source's, call for call. `Cleaner` and `DeferCall`
are written out as the `rollback` they run on the exits that reach them.
Statuses the source drops are dropped here (`let _ ←`).
-/
import ViveNas.Inode
import ViveNas.Store

namespace ViveNas

open LittleEndian

-- ========================================================= error codes

def enoent : Int := 2
def eio : Int := 5
def eexist : Int := 17

-- ============================================================= records

/-- `_vn_persist_inode`: the record under the inode's own number. -/
def vnPersistInodeTx (inode : ViveInode) : Fs Status :=
  Fs.put .metaCf (inodeKey inode.iNo.toNat) inode.toBytes

/-- `(i_size + i_extent_size - 1) / i_extent_size`, as the loop bound the
deletes use. -/
def extentCount (inode : ViveInode) : Except Fault Nat :=
  if inode.iExtentSize.toNat = 0 then .error .divByZero
  else .ok (asInt64 (u64 (inode.iSize.toNat + inode.iExtentSize.toNat - 1)
    / inode.iExtentSize.toNat)).toNat

/-- `for (i = 0; i < ext_cnt; i++) tx->Delete(cf, ext_k)`, from index `i`
on for `n` turns. -/
def deleteExtents (cf : Cf) (inodeNo : Nat) : Nat → Nat → Fs Unit
  | 0, _ => pure ()
  | n + 1, i => do
      let _ ← Fs.delete cf (vnExtentKey i inodeNo)
      deleteExtents cf inodeNo n (i + 1)

-- ============================================================== create

/-- The inode `vn_create_file` fills in. -/
def newInode (ino : Nat) (mode uid gid : UInt16) (now : UInt64) :
    ViveInode :=
  { vnAllocInode with
    iLinksCount := 1
    iMode := mode
    iNo := UInt64.ofNat ino
    iExtentSize := UInt32.ofNat vivefsExtentSize
    iAtime := now
    iCtime := now
    iMtime := now
    iUid := uid
    iGid := gid }

/-- An error exit of `vn_create_file`. -/
def createFailed (code : Int) : Fs (Int × Option ViveInode) := do
  Fs.rollback
  return (-code, none)

/-- `vn_create_file`; the second component is what `*inode_out` gets. -/
def vnCreateFile (parent : Int) (name : FileName) (mode uid gid : UInt16) :
    Fs (Int × Option ViveInode) := do
  let ino ← Fs.generateInodeNo
  let now ← Fs.time
  let inode := newInode ino mode uid gid now
  Fs.beginTransaction .metaOpt
  match ← Fs.getForUpdate .metaCf (fileKey parent name) with
  | .ok _ => createFailed eexist
  | _ =>
    match ← Fs.put .metaCf (fileKey parent name) (leBytes 8 ino) with
    | .failed => createFailed eio
    | .ok =>
      match ← vnPersistInodeTx inode with
      | .failed => createFailed eio
      | .ok =>
        match ← Fs.putSeed with
        | .failed => createFailed eio
        | .ok =>
          match ← Fs.commit with
          | .failed => createFailed eio
          | .ok => return (asInt64 ino, some inode)

-- ============================================================== lookup

/-- `vn_lookup_inode_no`; `wantInode` is whether the caller passed an
`inode` to fill. The record is fetched under the entry's value as it
stands, whatever its length. -/
def vnLookupInodeNo (parent : Int) (name : FileName) (wantInode : Bool) :
    Fs (Int × Option ViveInode) := do
  match ← Fs.get .metaCf (fileKey parent name) with
  | .notFound => return (-1, none)
  | status =>
    let inodeNoBuf := status.slice
    if wantInode then
      match ← Fs.get .metaCf inodeNoBuf with
      | .notFound => return (-1, none)
      | status =>
        let inode ← Fs.lift (deserializeInode status.slice)
        let ino ← Fs.lift (loadInt64 inodeNoBuf)
        return (asInt64 ino, some inode)
    else
      let ino ← Fs.lift (loadInt64 inodeNoBuf)
      return (asInt64 ino, none)

-- ============================================================== unlink

/-- The end of `vn_unlink` once its writes are in the transaction. -/
def unlinkCommit : Fs Int := do
  match ← Fs.commit with
  | .failed =>
    Fs.rollback
    return -eio
  | .ok => return 0

/-- `vn_unlink`. The last link deletes the extents in default_cf, where
the source looks for them, and the entry; any other persists the lowered
count. -/
def vnUnlink (parent : Int) (name : FileName) : Fs Int := do
  let (ino, inode) ← vnLookupInodeNo parent name true
  if ino < 0 then
    return -enoent
  else
    match inode with
    | none => Prog.raise .outOfBounds
    | some found =>
      Fs.beginTransaction .metaOpt
      let inode := { found with iLinksCount := found.iLinksCount - 1 }
      if inode.iLinksCount = 0 then
        let extCnt ← Fs.lift (extentCount inode)
        deleteExtents .defaultCf inode.iNo.toNat extCnt 0
        let _ ← Fs.delete .metaCf (fileKey parent name)
        unlinkCommit
      else
        match ← vnPersistInodeTx inode with
        | .failed =>
          Fs.rollback
          return -eio
        | .ok => unlinkCommit

-- ============================================================== rename

/-- `vn_rename_file`, which is not implemented and says it went well. -/
def vnRenameFile (_oldDir : Int) (_oldName : FileName) (_newDir : Int)
    (_newName : FileName) : Fs Int :=
  return 0

-- =========================================================== iteration

/-- `vn_inode_iterator`: the entries ahead of the cursor and the prefix
the walk stays under. -/
structure VnInodeIterator where
  itor : List (Bytes × Bytes)
  dir : Bytes

/-- `vn_begin_iterate_dir`. -/
def vnBeginIterateDir (parent : Int) : Fs VnInodeIterator := do
  let itor ← Fs.seekMeta (dirPrefix parent)
  return ⟨itor, dirPrefix parent⟩

/-- `vn_iterator_has_next`: `Valid()` and `key().starts_with(..)`. -/
def vnIteratorHasNext (it : VnInodeIterator) : Bool :=
  match it.itor with
  | [] => false
  | (k, _) :: _ => it.dir.isPrefixOf k

/-- `vn_next_inode`: the inode and the name copied out, or `none` for
NULL, and the iterator after the call. -/
def vnNextInode (it : VnInodeIterator) (bufLen : Nat) :
    Fs (Option (ViveInode × Bytes) × VnInodeIterator) :=
  match it.itor with
  | [] => return (none, it)
  | (k, v) :: rest =>
    if it.dir.isPrefixOf k then do
      let ino ← Fs.lift (loadInt64 v)
      match ← Fs.get .metaCf (inodeKey ino) with
      | .notFound => return (none, it)
      | status =>
        let inode ← Fs.lift (deserializeInode status.slice)
        if inode.iNo.toNat ≠ ino then Prog.raise .assertFailed
        else
          let name := k.drop it.dir.length
          if bufLen ≤ name.length then Prog.raise .assertFailed
          else return (some (inode, name), { it with itor := rest })
    else return (none, it)

/-- The caller's loop: `vn_next_inode` while `vn_iterator_has_next`, for
at most `fuel` turns. -/
def iterateDir (bufLen : Nat) :
    Nat → VnInodeIterator → Fs (List (Bytes × ViveInode))
  | 0, _ => Prog.raise .diverged
  | fuel + 1, it =>
    if vnIteratorHasNext it then do
      let (entry, it) ← vnNextInode it bufLen
      let rest ← iterateDir bufLen fuel it
      match entry with
      | some (inode, name) => return (name, inode) :: rest
      | none => return rest
    else return []

end ViveNas
