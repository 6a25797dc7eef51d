/-
The users of one PureFlash file (vn_pfaof.cpp).

Every object over a file holds a reference to the one `PfAof` and is
counted there, in `reader_cnt` or in `writer_cnt`. The reference comes
with `pf_open_aof`, the count is raised next, and only then is the object
constructed; what lowers both is the object's destructor, or `Close`.

# Construction

The two readers set up a read cache in their constructors, and throw if
that fails. An object whose constructor throws has never been there: its
destructor does not run.
-/
import ViveNas.PfAof

namespace ViveNas

-- =============================================================== objects

/-- An object over the file. `Close` sets the `aof` of a writable file to
NULL. -/
inductive AofUser where
  | seqFile
  | randomFile
  | writeableFile (closed : Bool)
  deriving DecidableEq

def AofUser.isReader : AofUser → Bool
  | .seqFile => true
  | .randomFile => true
  | .writeableFile _ => false

/-- A writable file that has not been closed. -/
def AofUser.isWriter : AofUser → Bool
  | .writeableFile closed => !closed
  | _ => false

/-- The counts of a `PfAof`, the references its objects hold, and these
objects. -/
structure AofUsers where
  refs : Int
  readerCnt : Int
  writerCnt : Int
  objects : List AofUser

/-- How a call ends: with a status, or with an exception. -/
inductive CallEnd where
  | returned (status : IOStatus)
  | threw (what : Bytes)
  deriving DecidableEq

namespace AofUsers

/-- A file that nobody uses. -/
def unused : AofUsers := ⟨0, 0, 0, []⟩

/-- What `pf_open_aof` and the count do before a reader is constructed. -/
def countReader (s : AofUsers) : AofUsers :=
  { s with refs := s.refs + 1, readerCnt := s.readerCnt + 1 }

def countWriter (s : AofUsers) : AofUsers :=
  { s with refs := s.refs + 1, writerCnt := s.writerCnt + 1 }

/-- What the destructor of a reader takes back. -/
def dropReader (s : AofUsers) : AofUsers :=
  { s with refs := s.refs - 1, readerCnt := s.readerCnt - 1 }

def dropWriter (s : AofUsers) : AofUsers :=
  { s with refs := s.refs - 1, writerCnt := s.writerCnt - 1 }

/-- A constructed object, handed to the caller. -/
def add (s : AofUsers) (object : AofUser) : AofUsers :=
  { s with objects := s.objects ++ [object] }

-- ================================================================ calls

/-- What `NewSequentialFile` and `NewRandomAccessFile` share; `rc` is what
`read_cache.init` returns. -/
def newReader (object : AofUser) (s : AofUsers) (out : PfOutcome)
    (rc : Int) : CallEnd × AofUsers :=
  match out with
  | .failed _ _ => (.returned .pathNotFound, s)
  | .done =>
    if rc ≠ 0 then
      (.threw (ascii "Failed to init read_cache, rc:" ++ formatLd rc),
        s.countReader)
    else (.returned .ok, s.countReader.add object)

/-- `NewSequentialFile`. -/
def newSequentialFile : AofUsers → PfOutcome → Int → CallEnd × AofUsers :=
  newReader .seqFile

/-- `NewRandomAccessFile`. -/
def newRandomAccessFile : AofUsers → PfOutcome → Int → CallEnd × AofUsers :=
  newReader .randomFile

/-- `NewWritableFile`. -/
def newWritableFile (s : AofUsers) (out : PfOutcome) : CallEnd × AofUsers :=
  match out with
  | .failed _ _ => (.returned .pathNotFound, s)
  | .done => (.returned .ok, s.countWriter.add (.writeableFile false))

/-- `PfAofWriteableFile::Close`. A second one goes through NULL. -/
def close (s : AofUsers) (i : Nat) : Except Fault (CallEnd × AofUsers) :=
  match s.objects[i]? with
  | some (.writeableFile false) =>
    .ok (.returned .ok, { s.dropWriter with
      objects := s.objects.set i (.writeableFile true) })
  | _ => .error .outOfBounds

/-- The destructor of the object at `i`. -/
def destroy (s : AofUsers) (i : Nat) : Except Fault (CallEnd × AofUsers) :=
  let rest := s.objects.eraseIdx i
  match s.objects[i]? with
  | none => .error .outOfBounds
  | some .seqFile => .ok (.returned .ok, { s.dropReader with objects := rest })
  | some .randomFile =>
    .ok (.returned .ok, { s.dropReader with objects := rest })
  | some (.writeableFile false) =>
    .ok (.returned .ok, { s.dropWriter with objects := rest })
  | some (.writeableFile true) =>
    .ok (.returned .ok, { s with objects := rest })

end AofUsers

/-- What the file's users do. Objects go by their place in the list. -/
inductive AofUse where
  | newSequentialFile (out : PfOutcome) (rc : Int)
  | newRandomAccessFile (out : PfOutcome) (rc : Int)
  | newWritableFile (out : PfOutcome)
  | close (i : Nat)
  | destroy (i : Nat)

/-- One of these. -/
def AofUsers.step (s : AofUsers) :
    AofUse → Except Fault (CallEnd × AofUsers)
  | .newSequentialFile out rc => .ok (s.newSequentialFile out rc)
  | .newRandomAccessFile out rc => .ok (s.newRandomAccessFile out rc)
  | .newWritableFile out => .ok (s.newWritableFile out)
  | .close i => s.close i
  | .destroy i => s.destroy i

/-- One step of a run of what `ok` admits. -/
inductive AofUsers.Step (ok : AofUse → Prop) :
    AofUsers → AofUse × CallEnd → AofUsers → Prop where
  | call {s s' : AofUsers} {u : AofUse} {r : CallEnd} (hok : ok u)
      (hstep : s.step u = .ok (r, s')) : Step ok s (u, r) s'

/-- Runs of what `ok` admits, on a file nobody used before. -/
abbrev UsersRun (ok : AofUse → Prop) :
    List (AofUse × CallEnd) → AofUsers → Prop :=
  Trace.Run (fun s => s = AofUsers.unused) (AofUsers.Step ok)

end ViveNas
