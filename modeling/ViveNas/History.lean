/-
The stores a file system can have come to.

`Lived` is every world that mkfs and the functions of the API lead to,
with any arguments and any outcomes of their store calls, through crashes
and mounts. Nothing ties the handles and inodes of one call to those of
another: a fact about the committed store that holds in all of these
worlds holds whatever the callers do.

`HandleRun` is the runs on one handle that `vn_open_file` returned in such
a world.
-/
import ViveNas.File
import ViveNas.Mount
import ViveNas.Lib.Trace

namespace ViveNas

/-- The functions a caller can run. -/
inductive Api : {α : Type} → Fs α → Prop where
  | create (parent : Int) (name : FileName) (mode uid gid : UInt16) :
      Api (vnCreateFile parent name mode uid gid)
  | lookup (parent : Int) (name : FileName) (wantInode : Bool) :
      Api (vnLookupInodeNo parent name wantInode)
  | unlink (parent : Int) (name : FileName) : Api (vnUnlink parent name)
  | beginIterate (parent : Int) : Api (vnBeginIterateDir parent)
  | nextInode (it : VnInodeIterator) (bufLen : Nat) :
      Api (vnNextInode it bufLen)
  | openFile (parent : Int) (name : FileName) (flags : UInt32)
      (mode : UInt16) : Api (vnOpenFile parent name flags mode)
  | openByInode (inode : ViveInode) (flags : UInt32) :
      Api (vnOpenFileByInode inode flags)
  | write (file : ViveFile) (inBuf : Bytes) (offset : Nat) :
      Api (vnWrite file inBuf offset)
  | writev (file : ViveFile) (iov : List Bytes) (offset : Nat) :
      Api (vnWritev file iov offset)
  | read (file : ViveFile) (outBuf : Bytes) (offset : Nat) :
      Api (vnRead file outBuf offset)
  | readv (file : ViveFile) (iov : List Bytes) (offset : Nat) :
      Api (vnReadv file iov offset)
  | fsync (file : ViveFile) : Api (vnFsync file)
  | close (file : ViveFile) : Api (vnCloseFile file)
  | persist (inode : ViveInode) : Api (vnPersistInode inode)
  | umount : Api vnUmount

/-- The world with the outcomes and the clock of the next call. -/
def World.at (w : World) (script : List Bool) (clock : UInt64) : World :=
  { w with script := script, clock := clock }

/-- The worlds that histories of calls lead to. -/
inductive Lived (codec : SuperblockCodec) : World → Prop where
  | mkfs {w w' : World} {r : Int} (hdb : w.db = Store.empty)
      (hdurable : w.durable = Store.empty) (htx : w.tx = none)
      (hrun : (vnMkfsVivefs codec).exec w = .ok (r, w')) : Lived codec w'
  | call {w w' : World} {α : Type} {p : Fs α} {a : α} (hw : Lived codec w)
      (hp : Api p) (hrun : p.exec w = .ok (a, w')) : Lived codec w'
  | outside {w : World} (hw : Lived codec w) (script : List Bool)
      (clock : UInt64) : Lived codec (w.at script clock)
  | crash {w : World} (hw : Lived codec w) :
      Lived codec { w with db := w.durable, tx := none }
  | mount {w w' : World} {ctx : ViveFsContext} (hw : Lived codec w)
      (hrun : (vnMount codec).exec w = .ok (some ctx, w')) :
      Lived codec { w' with inodeSeed := ctx.inodeSeed }

-- ====================================================== on one handle

/-- A call on an open handle. -/
inductive HandleCall where
  | write (inBuf : Bytes) (offset : Nat)
  | writev (iov : List Bytes) (offset : Nat)
  | read (outBuf : Bytes) (offset : Nat)
  | readv (iov : List Bytes) (offset : Nat)
  | fsync

namespace HandleCall

/-- The call's code and the handle after it. -/
def run (file : ViveFile) : HandleCall → Fs (Int × ViveFile)
  | write inBuf offset => vnWrite file inBuf offset
  | writev iov offset => vnWritev file iov offset
  | read outBuf offset => do
      let (n, _, file) ← vnRead file outBuf offset
      return (n, file)
  | readv iov offset => do
      let (n, _, file) ← vnReadv file iov offset
      return (n, file)
  | fsync => vnFsync file

/-- What a call writes, and where. -/
def written : HandleCall → Option (Bytes × Nat)
  | write inBuf offset => some (inBuf, offset)
  | writev iov offset => some (iov.flatten, offset)
  | _ => none

/-- The lengths of what is written are `size_t`. -/
def Sized (c : HandleCall) : Prop :=
  ∀ data offset, c.written = some (data, offset) → data.length < 2 ^ 64

end HandleCall

/-- One call on the handle of the state, admitted by `ok`. Its outcomes
and the clock are those the world has when it is made. -/
inductive HandleStep (ok : World → ViveFile → HandleCall → Prop) :
    World × ViveFile → HandleCall × Int → World × ViveFile → Prop where
  | call {w w' : World} {file file' : ViveFile} {c : HandleCall} {r : Int}
      (script : List Bool) (clock : UInt64) (hsized : c.Sized)
      (hok : ok (w.at script clock) file c)
      (hrun : (c.run file).exec (w.at script clock)
        = .ok ((r, file'), w')) :
      HandleStep ok (w, file) (c, r) (w', file')

/-- A handle as `vn_open_file` returned it. -/
def OpenedBy (codec : SuperblockCodec) (s : World × ViveFile) : Prop :=
  ∃ w parent name flags mode, Lived codec w
    ∧ (vnOpenFile parent name flags mode).exec w = .ok (some s.2, s.1)

/-- Runs of calls on one handle. -/
abbrev HandleRun (codec : SuperblockCodec)
    (ok : World → ViveFile → HandleCall → Prop) :
    List (HandleCall × Int) → World × ViveFile → Prop :=
  Trace.Run (OpenedBy codec) (HandleStep ok)

end ViveNas
