/-
The file system as its callers see it: a mounted store, the in-memory
inodes the API has handed out, and the open handles.

# In-memory inodes

A `ViveFile` points to its inode, and so does whoever got the inode from
`vn_create_file`, `vn_lookup_inode_no` or `vn_mount`. `Sys` therefore
keeps the inodes by address and a handle keeps an address; the functions
of Dir.lean and File.lean, which pass inodes by value, are run on the
inode found there and their result is stored back.

# Calls

`Sys.step` runs one call to its end and returns its code. A call on a
handle or an address that is not in use has no meaning here and is a
fault, as is any fault of the call itself. Opens return the handle's
inode number, and -1 for NULL.
-/
import ViveNas.Lib.Trace
import ViveNas.File
import ViveNas.Mount

namespace ViveNas

-- =============================================================== states

/-- A handle: the address of its inode and its own fields. -/
structure FileRef where
  addr : Nat
  iNo : UInt64
  noatime : Bool
  dirty : Bool

structure Sys where
  world : World
  mounted : Bool
  inodes : Nat → Option ViveInode
  files : Nat → Option FileRef

/-- What callers ask for. `addr` and `fd` are where the caller keeps the
inode and the handle it gets; `none` is a NULL `inode_out`. -/
inductive Call where
  | create (addr : Option Nat) (parent : Int) (name : FileName)
      (mode uid gid : UInt16)
  | lookup (addr : Nat) (parent : Int) (name : FileName)
  | openFile (fd addr : Nat) (parent : Int) (name : FileName)
      (flags : UInt32) (mode : UInt16)
  | openByInode (fd addr : Nat) (flags : UInt32)
  | write (fd : Nat) (inBuf : Bytes) (offset : Nat)
  | writev (fd : Nat) (iov : List Bytes) (offset : Nat)
  | read (fd : Nat) (outBuf : Bytes) (offset : Nat)
  | fsync (fd : Nat)
  | close (fd : Nat)
  | persist (addr : Nat) (inode : ViveInode)
  | unlink (parent : Int) (name : FileName)
  | umount
  | mount (addr : Nat)

namespace Sys

/-- The handle with its inode, as the file functions take it. -/
def file (s : Sys) (fd : Nat) : Option (Nat × ViveFile) :=
  match s.files fd with
  | none => none
  | some r =>
    match s.inodes r.addr with
    | none => none
    | some inode => some (r.addr, ⟨inode, r.iNo, r.noatime, r.dirty⟩)

/-- The handle stored back after a call on it. -/
def setFile (s : Sys) (fd addr : Nat) (f : ViveFile) : Sys :=
  { s with
    inodes := Function.update s.inodes addr (some f.inode)
    files := Function.update s.files fd
      (some ⟨addr, f.iNo, f.noatime, f.dirty⟩) }

/-- An inode stored at the caller's address, if one was given. -/
def setInode (s : Sys) (addr : Option Nat) (inode : Option ViveInode) : Sys :=
  match addr with
  | none => s
  | some a => { s with inodes := Function.update s.inodes a inode }

/-- A caller's place for an inode is free. -/
def freeAddr (s : Sys) (addr : Option Nat) : Bool :=
  match addr with
  | none => true
  | some a => (s.inodes a).isNone

/-- A call on an open handle: `op` gives the code and the handle. -/
def onFile (s : Sys) (fd : Nat) (op : ViveFile → Fs (Int × ViveFile)) :
    Except Fault (Int × Sys) :=
  match s.file fd with
  | none => .error .outOfBounds
  | some (addr, f) => do
      let ((r, f), w) ← (op f).exec s.world
      return (r, { s with world := w }.setFile fd addr f)

/-- A fresh handle, or NULL, at the caller's places. -/
def opened (s : Sys) (fd addr : Nat) : Option ViveFile → Int × Sys
  | none => (-1, s)
  | some f => (f.iNo.toNat, s.setFile fd addr f)

/-- One call on a mounted file system. -/
def stepMounted (s : Sys) : Call → Except Fault (Int × Sys)
  | .create addr parent name mode uid gid =>
      if s.freeAddr addr then do
        let ((r, out), w) ←
          (vnCreateFile parent name mode uid gid).exec s.world
        return (r, { s with world := w }.setInode addr out)
      else .error .outOfBounds
  | .lookup addr parent name =>
      if s.freeAddr (some addr) then do
        let ((r, out), w) ← (vnLookupInodeNo parent name true).exec s.world
        return (r, { s with world := w }.setInode (some addr) out)
      else .error .outOfBounds
  | .openFile fd addr parent name flags mode =>
      if s.freeAddr (some addr) ∧ (s.files fd).isNone then do
        let (f, w) ← (vnOpenFile parent name flags mode).exec s.world
        return { s with world := w }.opened fd addr f
      else .error .outOfBounds
  | .openByInode fd addr flags =>
      match s.inodes addr with
      | none => .error .outOfBounds
      | some inode =>
        if (s.files fd).isNone then do
          let ((f, inode), w) ← (vnOpenFileByInode inode flags).exec s.world
          return ({ s with world := w }.setInode (some addr)
            (some inode)).opened fd addr f
        else .error .outOfBounds
  | .write fd inBuf offset => s.onFile fd fun f => vnWrite f inBuf offset
  | .writev fd iov offset => s.onFile fd fun f => vnWritev f iov offset
  | .read fd outBuf offset => s.onFile fd fun f => do
      let (n, _, f) ← vnRead f outBuf offset
      return (n, f)
  | .fsync fd => s.onFile fd vnFsync
  | .close fd =>
      match s.file fd with
      | none => .error .outOfBounds
      | some (_, f) => do
          let (r, w) ← (vnCloseFile f).exec s.world
          return (r, { s with
            world := w, files := Function.update s.files fd none })
  | .persist addr inode =>
      -- the caller may have edited the inode it holds
      match s.inodes addr with
      | none => .error .outOfBounds
      | some _ => do
          let (r, w) ← (vnPersistInode inode).exec s.world
          return (r, { s with world := w }.setInode (some addr) (some inode))
  | .unlink parent name => do
      let (r, w) ← (vnUnlink parent name).exec s.world
      return (r, { s with world := w })
  | .umount => do
      let (r, w) ← vnUmount.exec s.world
      return (r, ⟨w, false, fun _ => none, fun _ => none⟩)
  | .mount _ => .error .outOfBounds

/-- One call. An unmounted file system can only be mounted. -/
def step (codec : SuperblockCodec) (s : Sys) (c : Call) :
    Except Fault (Int × Sys) :=
  if s.mounted then s.stepMounted c
  else
    match c with
    | .mount addr => do
        let (ctx, w) ← (vnMount codec).exec s.world
        match ctx with
        | none => return (-1, { s with world := w })
        | some ctx =>
            return (0, {
              world := { w with inodeSeed := ctx.inodeSeed }
              mounted := true
              inodes := Function.update (fun _ => none) addr
                (some ctx.rootInode)
              files := fun _ => none })
    | _ => .error .outOfBounds

end Sys

-- ================================================================= runs

/-- The store before it is formatted, with every store call to come
succeeding. -/
def blankWorld (clock : UInt64) : World where
  db := Store.empty
  durable := Store.empty
  tx := none
  inodeSeed := 0
  clock := clock
  script := []

/-- A formatted file system, not yet mounted. -/
def Formatted (codec : SuperblockCodec) (s : Sys) : Prop :=
  ∃ clock r, (vnMkfsVivefs codec).exec (blankWorld clock) = .ok (r, s.world)
    ∧ s.mounted = false ∧ s.inodes = (fun _ => none)
    ∧ s.files = fun _ => none

/-- The call runs `vn_create_file`, which draws a number: a create, or an
open with O_CREAT that does not find its name. -/
def Sys.draws (s : Sys) : Call → Bool
  | .create .. => true
  | .openFile _ _ parent name flags _ =>
      hasFlag flags oCreat
        && (s.world.db.metaCf[fileKey parent name]?).isNone
  | _ => false

/-- What an observer of a run sees: each call with its code and whether it
drew a number, and the clock moving. -/
inductive Event where
  | tick
  | call (c : Call) (r : Int) (drew : Bool)

/-- The event drew a number. -/
def Event.drew : Event → Bool
  | .tick => false
  | .call _ _ drew => drew

/-- One step of a run of calls that `ok` admits. -/
inductive Sys.Step (codec : SuperblockCodec) (ok : Sys → Call → Prop) :
    Sys → Event → Sys → Prop where
  | tick {s : Sys} (clock : UInt64) :
      Sys.Step codec ok s .tick
        { s with world := { s.world with clock := clock } }
  | call {s s' : Sys} {c : Call} {r : Int} (hok : ok s c)
      (hstep : s.step codec c = .ok (r, s')) :
      Sys.Step codec ok s (.call c r (s.draws c)) s'

/-- Runs from mkfs of calls that `ok` admits, the clock moving as it likes
between calls. -/
abbrev SysRun (codec : SuperblockCodec) (ok : Sys → Call → Prop) :
    List Event → Sys → Prop :=
  Trace.Run (Formatted codec) (Sys.Step codec ok)

/-- The states these runs reach. -/
def Reachable (codec : SuperblockCodec) (ok : Sys → Call → Prop)
    (s : Sys) : Prop :=
  ∃ tr, SysRun codec ok tr s

end ViveNas
