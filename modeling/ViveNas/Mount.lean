/-
Formatting, mounting and unmounting (vn_mkfs.cpp, vn_main.cpp).

The superblock travels through a JSON library. `SuperblockCodec` stands
for it: two functions, and the one fact used of them, that the superblock
mkfs writes is read back as it was. Options, environments and column
family handles are RocksDB's and are left out; opening the store that
was formatted is opening the same `Store`.
-/
import ViveNas.Dir

namespace ViveNas

open LittleEndian

-- ========================================================= the superblock

structure ViveSuperBlock where
  magic : Bytes
  version : Nat
  deriving DecidableEq

/-- `VIVEFS_MAGIC_STR`. -/
def vivefsMagicStr : Bytes := ascii "vivefs_0"

/-- `VIVEFS_VER`. -/
def vivefsVer : Nat := 0x00010000

/-- The superblock mkfs writes. -/
def vivefsSuperBlock : ViveSuperBlock := ⟨vivefsMagicStr, vivefsVer⟩

/-- `serialize_superblock` and `deserialize_superblock`; the second
throws on text it cannot parse. -/
structure SuperblockCodec where
  serialize : ViveSuperBlock → Bytes
  deserialize : Bytes → Option ViveSuperBlock
  round_trip : deserialize (serialize vivefsSuperBlock)
    = some vivefsSuperBlock

-- ========================================================= inode numbers

/-- `VN_ROOT_INO`. -/
def vnRootIno : Nat := 2

/-- `VN_FIRST_USER_INO`. -/
def vnFirstUserIno : Nat := 12

-- ============================================================ formatting

/-- `CHECKED_CALL`: a failed status is fatal. -/
def checkedCall (call : Fs Status) : Fs Unit := do
  match ← call with
  | .ok => return ()
  | .failed => Prog.raise .assertFailed

/-- `vn_mkfs_vivefs`, from its transaction on. Its context is a fresh one,
whose `meta_opt` does not sync yet; the flush at the end makes the format
durable. -/
def vnMkfsVivefs (codec : SuperblockCodec) : Fs Int := do
  Fs.beginTransaction .dataOpt
  checkedCall (Fs.put .metaCf superblockKey (codec.serialize vivefsSuperBlock))
  checkedCall (Fs.put .metaCf inodeSeedKey (leBytes 8 vnFirstUserIno))
  checkedCall Fs.commit
  let _ ← Fs.get .metaCf inodeSeedKey
  let _ ← Fs.flushWAL
  return 0

-- ============================================================== mounting

/-- The root inode `vn_mount` fills in; it is not in the store, and its
extent size stays zero. -/
def rootInode (now : UInt64) : ViveInode :=
  { vnAllocInode with
    iNo := UInt64.ofNat vnRootIno
    iMode := 0o40777
    iLinksCount := 2
    iSize := 4096
    iAtime := now
    iCtime := now }

/-- What of a mounted context the modelled functions use. -/
structure ViveFsContext where
  inodeSeed : Nat
  rootInode : ViveInode

/-- `vn_mount`; `none` for NULL. -/
def vnMount (codec : SuperblockCodec) : Fs (Option ViveFsContext) := do
  let now ← Fs.time
  match ← Fs.get .metaCf inodeSeedKey with
  | .ok v =>
    let inodeSeed ← Fs.lift (loadInt64 v)
    match ← Fs.get .metaCf superblockKey with
    | .ok v =>
      match codec.deserialize v with
      | none => Prog.raise .assertFailed
      | some sb =>
        if sb.magic ≠ vivefsMagicStr then return none
        else if sb.version ≠ vivefsVer then return none
        else
          -- the root file takes a reference of its own
          return some ⟨inodeSeed, { rootInode now with refCnt := 2 }⟩
    | _ => return none
  | _ => return none

/-- `vn_umount`: everything is flushed and the context is deleted. -/
def vnUmount : Fs Int := do
  let _ ← Fs.flushWAL
  return 0

-- ============================================================== flushing

/-- `db->Flush(FlushOptions(), cfs)` of the three column families: what is
committed is on disk afterwards. -/
def Fs.flush : Fs Status := Fs.flushWAL

/-- `db->SyncWAL()` behind a flush that left the log nothing to keep. -/
def Fs.syncWAL : Fs Status := Fs.flushWAL

/-- `vn_flush_fs`. -/
def vnFlushFs : Fs Int := do
  match ← Fs.flush with
  | .failed => return -eio
  | .ok =>
    match ← Fs.syncWAL with
    | .failed => return -eio
    | .ok => return 0

end ViveNas
