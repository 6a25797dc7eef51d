/-
The whole API among concurrent callers.

Concurrent.lean interleaves creates and unlinks. Here a caller runs any
function of vn_vivenas.h over the same store: with the same locks, with
store calls that fail, callers that are aborted, crashes and mounts.

# What callers pass

Handles and inodes are passed by value, each call working on what its
caller has at the time. They are what the API handed out earlier, edited
since: sizes, times and the reference count move with the calls on them,
and `vn_persist_inode` is there for callers that edit the rest. `Lasting`
is a reading of an inode that stays: its number, its extent size and its
link count at least, since the store's layout rests on them. What it does
not read callers may edit; a run in which they edit the owner or the mode
is one for a reading without these.

# Which runs are meant

`Proper` steps start calls on what was handed out, and draw numbers only
below `plainNos`, about 7 * 10^16: below it no inode's key is the text of
a directory entry. The draw is atomic, as Concurrent.lean says. `Reliable`
steps are those in which moreover no `Put`, `Merge` or `Delete` of an
extent fails, which the source logs and goes on from, and in which writes
end before 2^63.
-/
import ViveNas.Concurrent

namespace ViveNas

-- ================================================================ calls

/-- A call of the API. `listDir` is a caller's walk over a directory, with
room for names of `bufLen` bytes and for at most `fuel` turns. -/
inductive Task where
  | create (parent : Int) (name : FileName) (mode uid gid : UInt16)
  | lookup (parent : Int) (name : FileName) (wantInode : Bool)
  | unlink (parent : Int) (name : FileName)
  | rename (oldDir : Int) (oldName : FileName) (newDir : Int)
      (newName : FileName)
  | listDir (parent : Int) (bufLen fuel : Nat)
  | openFile (parent : Int) (name : FileName) (flags : UInt32)
      (mode : UInt16)
  | openByInode (inode : ViveInode) (flags : UInt32)
  | write (file : ViveFile) (inBuf : Bytes) (offset : Nat)
  | writev (file : ViveFile) (iov : List Bytes) (offset : Nat)
  | read (file : ViveFile) (outBuf : Bytes) (offset : Nat)
  | readv (file : ViveFile) (iov : List Bytes) (offset : Nat)
  | fsync (file : ViveFile)
  | close (file : ViveFile)
  | persist (inode : ViveInode)

/-- What a call returns, with what it leaves of the handle. -/
inductive Answer where
  | code (r : Int)
  | inode (r : Int) (inode : Option ViveInode)
  | file (file : Option ViveFile)
  | wrote (r : Int) (file : ViveFile)
  | data (n : Nat) (bufs : List Bytes) (file : ViveFile)
  | entries (es : List (Bytes × ViveInode))

/-- The function a call runs. -/
def Task.prog : Task → Fs Answer
  | create parent name mode uid gid => do
      let (r, inode) ← vnCreateFile parent name mode uid gid
      return .inode r inode
  | lookup parent name wantInode => do
      let (r, inode) ← vnLookupInodeNo parent name wantInode
      return .inode r inode
  | unlink parent name => do
      let r ← vnUnlink parent name
      return .code r
  | rename oldDir oldName newDir newName => do
      let r ← vnRenameFile oldDir oldName newDir newName
      return .code r
  | listDir parent bufLen fuel => do
      let it ← vnBeginIterateDir parent
      let es ← iterateDir bufLen fuel it
      return .entries es
  | openFile parent name flags mode => do
      let file ← vnOpenFile parent name flags mode
      return .file file
  | openByInode inode flags => do
      let (file, _) ← vnOpenFileByInode inode flags
      return .file file
  | write file inBuf offset => do
      let (r, file) ← vnWrite file inBuf offset
      return .wrote r file
  | writev file iov offset => do
      let (r, file) ← vnWritev file iov offset
      return .wrote r file
  | read file outBuf offset => do
      let (n, buf, file) ← vnRead file outBuf offset
      return .data n [buf] file
  | readv file iov offset => do
      let (n, bufs, file) ← vnReadv file iov offset
      return .data n bufs file
  | fsync file => do
      let (r, file) ← vnFsync file
      return .wrote r file
  | close file => do
      let r ← vnCloseFile file
      return .code r
  | persist inode => do
      let r ← vnPersistInode inode
      return .code r

-- ======================================================= what is passed

/-- The handle a call works on. -/
def Task.file : Task → Option ViveFile
  | write file .. | writev file .. | read file .. | readv file .. => some file
  | fsync file | close file => some file
  | _ => none

/-- The inode a call works on, its handle's if it has one. -/
def Task.inode : Task → Option ViveInode
  | openByInode inode _ | persist inode => some inode
  | task => task.file.map ViveFile.inode

/-- The handles an answer hands out or back. -/
def Answer.files : Answer → List ViveFile
  | file f => f.toList
  | wrote _ f | data _ _ f => [f]
  | _ => []

/-- The inodes an answer hands out or back. -/
def Answer.inodes : Answer → List ViveInode
  | inode _ n => n.toList
  | entries es => es.map Prod.snd
  | a => a.files.map ViveFile.inode

/-- A reading of an inode that no call changes. -/
structure Lasting (A : Type) where
  of : ViveInode → A
  steady : ∀ (n : ViveInode) (size atime mtime : UInt64) (refs : UInt32),
    of { n with iSize := size, iAtime := atime, iMtime := mtime,
                refCnt := refs } = of n
  number : ∀ {m n : ViveInode}, of m = of n → m.iNo = n.iNo
  extentSize : ∀ {m n : ViveInode}, of m = of n →
    m.iExtentSize = n.iExtentSize
  links : ∀ {m n : ViveInode}, of m = of n → m.iLinksCount = n.iLinksCount

/-- The inode without its size, its access and modification times and its
reference count. -/
def ViveInode.cleared (n : ViveInode) : ViveInode :=
  { n with iSize := 0, iAtime := 0, iMtime := 0, refCnt := 0 }

theorem ViveInode.eq_of_cleared {B : Type} (f : ViveInode → B)
    (hf : ∀ n : ViveInode, f n.cleared = f n) {m n : ViveInode}
    (h : m.cleared = n.cleared) : f m = f n := by
  rw [← hf m, h, hf n]

/-- All that is left then. -/
def attributes : Lasting ViveInode where
  of := ViveInode.cleared
  steady _ _ _ _ _ := rfl
  number := ViveInode.eq_of_cleared ViveInode.iNo fun _ => rfl
  extentSize := ViveInode.eq_of_cleared ViveInode.iExtentSize fun _ => rfl
  links := ViveInode.eq_of_cleared ViveInode.iLinksCount fun _ => rfl

variable {A : Type}

/-- Below this number an inode's key has a NUL byte, so that it is not the
text of a directory entry. -/
def plainNos : Nat := 0x0101010101010101

/-- A number a file can have. -/
def FileNo (m : Nat) : Prop := vnFirstUserIno ≤ m ∧ m < plainNos

/-- The root's inode, which `vn_mount` makes up. -/
def IsRoot (n : ViveInode) : Prop :=
  n.iNo.toNat = vnRootIno ∧ n.iExtentSize = 0

/-- An inode of the file whose record is under its number, as far as `F`
tells. -/
structure Matches (F : Lasting A) (db : Store) (n : ViveInode) : Prop where
  number : FileNo n.iNo.toNat
  extentSize : n.iExtentSize.toNat = vivefsExtentSize
  record : ∃ rec : ViveInode,
    db.metaCf[inodeKey n.iNo.toNat]? = some rec.toBytes ∧ F.of n = F.of rec

/-- An inode the API can have handed out. -/
def Handed (F : Lasting A) (db : Store) (n : ViveInode) : Prop :=
  IsRoot n ∨ Matches F db n

/-- A call whose handle or inode was handed out. -/
structure Task.Given (F : Lasting A) (db : Store) (task : Task) : Prop where
  inode : ∀ n, task.inode = some n → Handed F db n
  file : ∀ f, task.file = some f → f.iNo = f.inode.iNo

/-- An answer whose handles and inodes can be passed to a call. -/
structure Answer.Gives (F : Lasting A) (db : Store) (a : Answer) : Prop where
  inodes : ∀ n ∈ a.inodes, Handed F db n
  files : ∀ f ∈ a.files, f.iNo = f.inode.iNo

-- ============================================================== callers

/-- Callers of the API over the store. -/
def service (codec : SuperblockCodec) :
    Pool.Machine StoreCall StoreCall.Resp Fault Answer Shared (Option Tx)
      Task where
  prog := Task.prog
  fresh := none
  reply := reply
  leave := Shared.release
  reset := Remounts codec

/-- The callers and what they share. -/
abbrev Service :=
  Pool.State StoreCall StoreCall.Resp Fault Answer Shared (Option Tx) Task

abbrev ServiceLabel := Pool.Label StoreCall StoreCall.Resp Answer Task

/-- A file system just formatted and mounted, with no caller yet. -/
def Service.Fresh (codec : SuperblockCodec) (n : Service) : Prop :=
  n.threads = (fun _ => none) ∧ ∃ clock r w,
    (vnMkfsVivefs codec).exec (blankWorld clock) = .ok (r, w)
      ∧ Remounts codec ⟨w.db, w.durable, 0, fun _ => none⟩ n.shared

/-- Calls on what was handed out, while numbers last. -/
def Proper (F : Lasting A) (s : Shared) : ServiceLabel → Prop
  | .spawn _ task => task.Given F s.db
  | .call _ _ .generateInodeNo _ => s.inodeSeed < plainNos
  | _ => True

/-- The range of a write, past whose end the source's offsets wrap. -/
def Task.InRange : Task → Prop
  | write _ inBuf offset => offset + inBuf.length < 2 ^ 63
  | writev _ iov offset => offset + iov.flatten.length < 2 ^ 63
  | _ => True

/-- Replies that keep a write of an extent. The source commits without
those that fail. -/
def StoreCall.Kept : (c : StoreCall) → c.Resp → Prop
  | .merge _ _, r => r = .ok
  | .put cf _ _, r => cf = .dataCf → r = .ok
  | .delete cf _, r => cf = .dataCf → r = .ok
  | _, _ => True

/-- Such calls in range, with no write of an extent left out. -/
def Reliable (F : Lasting A) (s : Shared) : ServiceLabel → Prop
  | .spawn i task => Proper F s (.spawn i task) ∧ task.InRange
  | .call i task c r => Proper F s (.call i task c r) ∧ c.Kept r
  | _ => True

theorem Reliable.proper {F : Lasting A} {s : Shared} {lab : ServiceLabel}
    (h : Reliable F s lab) : Proper F s lab := by
  cases lab with
  | spawn i task => exact h.1
  | call i task c r => exact h.1
  | ret i task a | abort i task => exact trivial
  | reset => exact trivial

/-- Runs of the service whose steps `ok` admits. -/
abbrev ServiceRun (codec : SuperblockCodec)
    (ok : Shared → ServiceLabel → Prop) :
    List ServiceLabel → Service → Prop :=
  Trace.Run (Service.Fresh codec) (Pool.Step (service codec) ok)

end ViveNas
