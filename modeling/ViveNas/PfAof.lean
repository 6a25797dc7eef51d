/-
The file system RocksDB is given over PureFlash (vn_pfaof.cpp): reading a
file in order, the names of the files, appending, and the directories.

# PureFlash

PureFlash itself is a library of its own. Its append-only files are a map
from names to contents, and each `pf_*` call takes a `PfOutcome` that says
how it ends: carried out, or failed with a negative code and nothing done.
An open with O_CREAT makes an empty file of an absent name; opening,
deleting and renaming anything else that is absent fails by itself. Names
reach PureFlash through `c_str()`; its tenants are the directories.

# Offsets

`off_t` is `int64_t`. `offset += bytes_read` is signed, so a sum outside it
is a fault; `offset += n` in `Skip` has a `uint64_t` operand and wraps.
-/
import ViveNas.File
import ViveNas.Lib.Trace

namespace ViveNas

-- ============================================================= statuses

/-- The `IOStatus` values these functions return, with their messages. -/
inductive IOStatus where
  | ok
  | ioError (msg : Bytes)
  | pathNotFound
  | notFound
  deriving DecidableEq

/-- How a PureFlash call ends. -/
inductive PfOutcome where
  | done
  | failed (code : Int) (neg : code < 0)

/-- The bytes of a file; their number is an `off_t`. -/
abbrev AofContent := { b : Bytes // b.length < 2 ^ 63 }

def AofContent.empty : AofContent := ⟨[], by decide⟩

-- ================================================== sequential reading

/-- What a `pread` of `n` bytes at `off` finds; before the start of the
file there is nothing. -/
def AofContent.available (content : AofContent) (n : Nat) (off : Int) :
    Bytes :=
  if off < 0 then [] else (content.val.drop off.toNat).take n

/-- `read_cache.pread(scratch, n, off)`: the return value and what it left
in `scratch`. -/
def aofPread (content : AofContent) (n : Nat) (off : Int) :
    PfOutcome → Int × Bytes
  | .done =>
      let scratch := content.available n off
      (scratch.length, scratch)
  | .failed code _ => (code, [])

/-- `a + b` on `off_t`. -/
def addOff (a b : Int) : Except Fault Int :=
  if -2 ^ 63 ≤ a + b ∧ a + b < 2 ^ 63 then .ok (a + b)
  else .error .overflow

/-- `"Want %ld bytes at offset:%ld in file:%s"`. -/
def wantMessage (n : UInt64) (offset : Int) (fileName : FileName) : Bytes :=
  ascii "Want " ++ formatLd (asInt64 n.toNat) ++ ascii " bytes at offset:"
    ++ formatLd offset ++ ascii " in file:" ++ fileName.val

structure PfAofSeqFile where
  offset : Int
  fileName : FileName

namespace PfAofSeqFile

/-- `Read`: the status, the slice if one is set, and the file after the
call. The cursor moves before the result is looked at, and the message
has the moved cursor. -/
def read (content : AofContent) (file : PfAofSeqFile) (n : UInt64)
    (out : PfOutcome) :
    Except Fault ((IOStatus × Option Bytes) × PfAofSeqFile) := do
  let (bytesRead, scratch) := aofPread content n.toNat file.offset out
  let offset ← addOff file.offset bytesRead
  let file := { file with offset := offset }
  if bytesRead < 0 then
    return ((.ioError (wantMessage n offset file.fileName), none), file)
  else return ((.ok, some scratch), file)

/-- `PositionedRead`; the position is passed on as an `off_t`. -/
def positionedRead (content : AofContent) (file : PfAofSeqFile)
    (posOffset n : UInt64) (out : PfOutcome) : IOStatus × Option Bytes :=
  let pos := asInt64 posOffset.toNat
  let (bytesRead, scratch) := aofPread content n.toNat pos out
  if bytesRead < 0 then (.ioError (wantMessage n pos file.fileName), none)
  else (.ok, some scratch)

/-- `Skip`. -/
def skip (file : PfAofSeqFile) (n : UInt64) : IOStatus × PfAofSeqFile :=
  (.ok, { file with
    offset := asInt64 ((file.offset + n.toNat) % 2 ^ 64).toNat })

end PfAofSeqFile

/-- What a reader asks of a sequential file. -/
inductive SeqCall where
  | read (n : UInt64) (out : PfOutcome)
  | positionedRead (posOffset n : UInt64) (out : PfOutcome)
  | skip (n : UInt64)

/-- One call. -/
def PfAofSeqFile.step (content : AofContent) (file : PfAofSeqFile) :
    SeqCall → Except Fault ((IOStatus × Option Bytes) × PfAofSeqFile)
  | .read n out => file.read content n out
  | .positionedRead pos n out =>
      .ok (file.positionedRead content pos n out, file)
  | .skip n =>
      let (status, file) := file.skip n
      .ok ((status, none), file)

/-- A call as its caller saw it. -/
structure SeqEvent where
  call : SeqCall
  status : IOStatus
  result : Option Bytes

/-- One step of a run of calls that `ok` admits. -/
inductive PfAofSeqFile.Step (content : AofContent)
    (ok : PfAofSeqFile → SeqCall → Prop) :
    PfAofSeqFile → SeqEvent → PfAofSeqFile → Prop where
  | call {file file' : PfAofSeqFile} {c : SeqCall} {status : IOStatus}
      {result : Option Bytes} (hok : ok file c)
      (hstep : file.step content c = .ok ((status, result), file')) :
      Step content ok file ⟨c, status, result⟩ file'

/-- Runs of calls that `ok` admits on a file just opened. -/
abbrev SeqRun (content : AofContent) (ok : PfAofSeqFile → SeqCall → Prop) :
    List SeqEvent → PfAofSeqFile → Prop :=
  Trace.Run (fun file => file.offset = 0) (PfAofSeqFile.Step content ok)

-- ================================================================ names

/-- The files of PureFlash. -/
abbrev PureFlash := FileName → Option AofContent

def oRdonly : UInt32 := 0
def oRdwr : UInt32 := 2

/-- `PfAof`, as far as it is used here. -/
structure PfAof where
  path : FileName

/-- `pf_open_aof`; `none` for NULL. -/
def pfOpenAof (pf : PureFlash) (name : FileName) (flags : UInt32) :
    PfOutcome → Option PfAof × PureFlash
  | .failed _ _ => (none, pf)
  | .done =>
    match pf name with
    | some _ => (some ⟨name⟩, pf)
    | none =>
      if hasFlag flags oCreat then
        (some ⟨name⟩, Function.update pf name (some AofContent.empty))
      else (none, pf)

/-- `pf_aof_access`. -/
def pfAofAccess (pf : PureFlash) (name : FileName) : Int :=
  if (pf name).isSome then 0 else -enoent

/-- `pf_delete_aof`. -/
def pfDeleteAof (pf : PureFlash) (name : FileName) :
    PfOutcome → Int × PureFlash
  | .failed code _ => (code, pf)
  | .done =>
    match pf name with
    | none => (-enoent, pf)
    | some _ => (0, Function.update pf name none)

/-- `pf_rename_aof`. A target that exists is replaced, unless the call
fails. -/
def pfRenameAof (pf : PureFlash) (src target : FileName) :
    PfOutcome → Int × PureFlash
  | .failed code _ => (code, pf)
  | .done =>
    match pf src with
    | none => (-enoent, pf)
    | some content =>
      (0, Function.update (Function.update pf src none) target
        (some content))

structure PfAofRandomFile where
  aof : PfAof
  fileName : FileName

structure PfAofWriteableFile where
  aof : PfAof
  fileName : FileName

namespace PfAofFileSystem

/-- What `NewSequentialFile`, `NewRandomAccessFile` and `NewWritableFile`
share: the open, with O_CREAT in all three, and the object `mk` makes. -/
def newFileObject {α : Type} (mk : PfAof → FileName → α) (pf : PureFlash)
    (fname : FileName) (out : PfOutcome) :
    (IOStatus × Option α) × PureFlash :=
  match pfOpenAof pf fname (oCreat ||| oRdwr) out with
  | (none, pf) => ((.pathNotFound, none), pf)
  | (some aof, pf) => ((.ok, some (mk aof fname)), pf)

/-- `NewSequentialFile`. -/
def newSequentialFile :
    PureFlash → FileName → PfOutcome →
      (IOStatus × Option PfAofSeqFile) × PureFlash :=
  newFileObject fun _ fname => ⟨0, fname⟩

/-- `NewRandomAccessFile`. -/
def newRandomAccessFile :
    PureFlash → FileName → PfOutcome →
      (IOStatus × Option PfAofRandomFile) × PureFlash :=
  newFileObject PfAofRandomFile.mk

/-- `NewWritableFile`. -/
def newWritableFile :
    PureFlash → FileName → PfOutcome →
      (IOStatus × Option PfAofWriteableFile) × PureFlash :=
  newFileObject PfAofWriteableFile.mk

/-- `FileExists`. -/
def fileExists (pf : PureFlash) (fname : FileName) : IOStatus :=
  if pfAofAccess pf fname = 0 then .ok else .notFound

/-- `GetFileSize`; the second component is what `*file_size` gets. -/
def getFileSize (pf : PureFlash) (fname : FileName) (out : PfOutcome) :
    (IOStatus × Option Nat) × PureFlash :=
  match pfOpenAof pf fname oRdonly out with
  | (none, pf) => ((.notFound, none), pf)
  | (some aof, pf) =>
    ((.ok, (pf aof.path).map fun content => content.val.length), pf)

/-- `DeleteFile`. -/
def deleteFile (pf : PureFlash) (fname : FileName) (out : PfOutcome) :
    IOStatus × PureFlash :=
  let (rc, pf) := pfDeleteAof pf fname out
  (if rc = 0 then .ok else .ioError (ascii "DeleteFile error"), pf)

/-- `RenameFile`. -/
def renameFile (pf : PureFlash) (src target : FileName) (out : PfOutcome) :
    IOStatus × PureFlash :=
  let (rc, pf) := pfRenameAof pf src target out
  (if rc = 0 then .ok
    else .ioError (ascii "rename volume error, rc:" ++ formatLd rc), pf)

end PfAofFileSystem

/-- What RocksDB asks of the file system. -/
inductive AofCall where
  | newSequentialFile (fname : FileName) (out : PfOutcome)
  | newRandomAccessFile (fname : FileName) (out : PfOutcome)
  | newWritableFile (fname : FileName) (out : PfOutcome)
  | fileExists (fname : FileName)
  | getFileSize (fname : FileName) (out : PfOutcome)
  | deleteFile (fname : FileName) (out : PfOutcome)
  | renameFile (src target : FileName) (out : PfOutcome)

/-- One call: its status and the files after it. -/
def PfAofFileSystem.step (pf : PureFlash) : AofCall → IOStatus × PureFlash
  | .newSequentialFile fname out =>
      let ((status, _), pf) := newSequentialFile pf fname out
      (status, pf)
  | .newRandomAccessFile fname out =>
      let ((status, _), pf) := newRandomAccessFile pf fname out
      (status, pf)
  | .newWritableFile fname out =>
      let ((status, _), pf) := newWritableFile pf fname out
      (status, pf)
  | .fileExists fname => (fileExists pf fname, pf)
  | .getFileSize fname out =>
      let ((status, _), pf) := getFileSize pf fname out
      (status, pf)
  | .deleteFile fname out => deleteFile pf fname out
  | .renameFile src target out => renameFile pf src target out

/-- One step of a run of calls that `ok` admits. -/
inductive PureFlash.Step (ok : PureFlash → AofCall → Prop) :
    PureFlash → AofCall × IOStatus → PureFlash → Prop where
  | call {pf pf' : PureFlash} {c : AofCall} {status : IOStatus}
      (hok : ok pf c)
      (hstep : PfAofFileSystem.step pf c = (status, pf')) :
      Step ok pf (c, status) pf'

/-- Runs of calls that `ok` admits, from no files. -/
abbrev AofRun (ok : PureFlash → AofCall → Prop) :
    List (AofCall × IOStatus) → PureFlash → Prop :=
  Trace.Run (fun pf => pf = fun _ => none) (PureFlash.Step ok)

-- ============================================================ appending

/-- `PfAof::append`, at the end of the file. A file that would outgrow
`off_t` is refused. -/
def aofAppend (pf : PureFlash) (aof : PfAof) (data : Bytes) :
    PfOutcome → Int × PureFlash
  | .failed code _ => (code, pf)
  | .done =>
    match pf aof.path with
    | none => (-enoent, pf)
    | some content =>
      if h : (content.val ++ data).length < 2 ^ 63 then
        (data.length,
          Function.update pf aof.path (some ⟨content.val ++ data, h⟩))
      else (-eio, pf)

/-- `PfAof::file_length`. -/
def aofFileLength (pf : PureFlash) (aof : PfAof) : Nat :=
  match pf aof.path with
  | some content => content.val.length
  | none => 0

namespace PfAofWriteableFile

/-- `Append`. -/
def append (pf : PureFlash) (file : PfAofWriteableFile) (data : Bytes)
    (out : PfOutcome) : IOStatus × PureFlash :=
  let (rc, pf) := aofAppend pf file.aof data out
  (if rc ≠ data.length then .ioError [] else .ok, pf)

/-- `GetFileSize`. -/
def getFileSize (pf : PureFlash) (file : PfAofWriteableFile) : Nat :=
  aofFileLength pf file.aof

end PfAofWriteableFile

/-- `Append` calls on `file` that all return OK, with their data. -/
inductive Appends (file : PfAofWriteableFile) :
    PureFlash → List Bytes → PureFlash → Prop where
  | nil (pf : PureFlash) : Appends file pf [] pf
  | cons {pf pf' pf'' : PureFlash} {data : Bytes} {datas : List Bytes}
      {out : PfOutcome} (happend : file.append pf data out = (.ok, pf'))
      (hrest : Appends file pf' datas pf'') :
      Appends file pf (data :: datas) pf''

/-- One `Read` of as many bytes as there are. -/
def PfAofSeqFile.readAll (content : AofContent) (file : PfAofSeqFile) :
    Option Bytes :=
  match file.read content (UInt64.ofNat content.val.length) .done with
  | .ok ((_, result), _) => result
  | .error _ => none

/-- What a reader gets of a file that it opens and reads in one go. -/
def readBack (pf : PureFlash) (fname : FileName) : Option Bytes :=
  match PfAofFileSystem.newSequentialFile pf fname .done with
  | ((_, none), _) => none
  | ((_, some file), pf) =>
      (pf fname).bind fun content => file.readAll content

-- ========================================================== directories

/-- `'/'`. -/
def slash : UInt8 := 47

/-- `s.c_str()`, which PureFlash reads up to the first NUL. -/
def cStr (s : Bytes) : FileName :=
  ⟨s.takeWhile (· ≠ 0), fun h => by simpa using List.mem_takeWhile_imp h⟩

/-- `s.back()`; an empty string has none. -/
def back (s : Bytes) : Except Fault UInt8 :=
  match s.getLast? with
  | some c => .ok c
  | none => .error .outOfBounds

/-- `s.substr(pos, count)`, which throws behind the end; no count is
`npos`. -/
def substr (s : Bytes) (pos : Nat) (count : Option Nat) :
    Except Fault Bytes :=
  if s.length < pos then .error .outOfBounds
  else match count with
    | some n => .ok ((s.drop pos).take n)
    | none => .ok (s.drop pos)

namespace PfAofFileSystem

/-- The tenant `GetChildren` asks for. -/
def childrenTenant (dirName : Bytes) : Except Fault FileName := do
  let last ← back dirName
  let tName ←
    if last = slash then substr dirName 0 (some (dirName.length - 1))
    else .ok dirName
  return cStr tName

/-- `*i = i->substr(len + 1)` over the paths. -/
def stripChildren (len : Nat) : List Bytes → Except Fault (List Bytes)
  | [] => .ok []
  | path :: rest => do
      let child ← substr path (len + 1) none
      let rest ← stripChildren len rest
      return child :: rest

/-- `GetChildren`; `ls` is `pf_ls_aof_children`. The length stripped is
that of the name as it was given. -/
def getChildren (ls : FileName → Int × List Bytes) (dirName : Bytes) :
    Except Fault (IOStatus × List Bytes) := do
  let tenant ← childrenTenant dirName
  let (rc, result) := ls tenant
  if rc = 0 then
    let result ← stripChildren dirName.length result
    return (.ok, result)
  else if rc = -enoent then return (.pathNotFound, result)
  else
    return (.ioError (ascii "ls_children error, rc:" ++ formatLd rc), result)

/-- The tenant `CreateDirIfMissing` makes. -/
def createDirTenant (dname : Bytes) : Except Fault FileName := do
  let s := 0
  let last ← back dname
  let e := if last = slash then some (dname.length - 1) else none
  if s ≠ 0 ∨ e ≠ none then
    let dirName ← substr dname s e
    return cStr dirName
  else return cStr dname

/-- `CreateDirIfMissing`; `create` is `pf_create_tenant`. -/
def createDirIfMissing (create : FileName → Int) (dname : Bytes) :
    Except Fault IOStatus := do
  let tenant ← createDirTenant dname
  let rc := create tenant
  if rc = 0 then return .ok
  else return .ioError (ascii "Failed create dir, rc:" ++ formatLd rc)

end PfAofFileSystem

end ViveNas
