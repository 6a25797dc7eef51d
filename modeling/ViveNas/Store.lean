/-
The transactional store the file system is written against, and the
interface its functions use.

`StoreCall` is that interface: the RocksDB calls the sources make, the
two steps that touch the mounted context (`generate_inode_no`, and the
`Put` of the seed, whose value is read from the context once the key's
lock is held), and the clock. A file system function is a program over
it (`Fs`), so that it can be run alone (`World`, below) and interleaved
(Concurrent.lean) from one text.

# Running alone

`World` is the store as one caller sees it: the committed column
families, the part of them that survives a crash, the open transaction,
and the context's seed. `script` decides which of the calls still to
come fail; an empty script lets all of them succeed. A failed write call
leaves the transaction without its operation, and a failed `Commit`
leaves the store unchanged.
-/
import ViveNas.Keys
import ViveNas.Merge
import ViveNas.Lib.Prog
import ViveNas.Lib.Table

namespace ViveNas

open LittleEndian ViveDataMergeOperator

-- ===================================================== column families

inductive Cf where
  | defaultCf
  | metaCf
  | dataCf
  deriving DecidableEq

/-- The three column families. Only data_cf has a merge operator, so only
its keys can hold pending operands. -/
structure Store where
  defaultCf : Table Bytes Bytes
  metaCf : Table Bytes Bytes
  dataCf : Table Bytes (Entry Bytes)

/-- A write in a transaction's batch. -/
inductive WriteOp where
  | put (cf : Cf) (key val : Bytes)
  | merge (key val : Bytes)
  | delete (cf : Cf) (key : Bytes)

namespace Store

/-- The column families as they are created. -/
def empty : Store := ⟨∅, ∅, ∅⟩

/-- One write applied. -/
def applyOp (s : Store) : WriteOp → Store
  | .put .defaultCf k v => { s with defaultCf := s.defaultCf.insert k v }
  | .put .metaCf k v => { s with metaCf := s.metaCf.insert k v }
  | .put .dataCf k v => { s with dataCf := s.dataCf.insert k (.value v []) }
  | .merge k v =>
      { s with dataCf := s.dataCf.insert k (Entry.push s.dataCf[k]? v) }
  | .delete .defaultCf k => { s with defaultCf := s.defaultCf.erase k }
  | .delete .metaCf k => { s with metaCf := s.metaCf.erase k }
  | .delete .dataCf k => { s with dataCf := s.dataCf.erase k }

/-- A batch applied in order. -/
def applyBatch (s : Store) (batch : List WriteOp) : Store :=
  batch.foldl applyOp s

/-- The value data_cf resolves for a key; `none` when it is absent. -/
def getData (s : Store) (key : Bytes) : Except Fault (Option Bytes) :=
  match s.dataCf[key]? with
  | none => .ok none
  | some e => (e.resolve fun b ops => fullMergeV2 b ops []).map some

/-- `Get`. -/
def get (s : Store) (cf : Cf) (key : Bytes) : Except Fault (Option Bytes) :=
  match cf with
  | .defaultCf => .ok s.defaultCf[key]?
  | .metaCf => .ok s.metaCf[key]?
  | .dataCf => s.getData key

end Store

-- ======================================================= the interface

/-- The outcome of a read. Any status but OK delivers no value. -/
inductive GetStatus where
  | ok (value : Bytes)
  | notFound
  | failed
  deriving DecidableEq

/-- The outcome of a write call, a commit or a flush. -/
inductive Status where
  | ok
  | failed
  deriving DecidableEq

/-- The value a read left in its slice. -/
def GetStatus.slice : GetStatus → Bytes
  | ok v => v
  | notFound => []
  | failed => []

/-- `meta_opt` (synced at commit) and `data_opt` (not synced). -/
inductive WriteOpt where
  | metaOpt
  | dataOpt
  deriving DecidableEq

inductive StoreCall where
  | get (cf : Cf) (key : Bytes)
  | beginTransaction (opt : WriteOpt)
  | getForUpdate (cf : Cf) (key : Bytes)
  | put (cf : Cf) (key val : Bytes)
  | putSeed
  | merge (key val : Bytes)
  | delete (cf : Cf) (key : Bytes)
  | commit
  | rollback
  | flushWAL
  | seekMeta (target : Bytes)
  | generateInodeNo
  | time

/-- What each call replies with. -/
@[reducible] def StoreCall.Resp : StoreCall → Type
  | get .. | getForUpdate .. => GetStatus
  | put .. | putSeed | merge .. | delete .. | commit | flushWAL => Status
  | beginTransaction _ | rollback => Unit
  | seekMeta _ => List (Bytes × Bytes)
  | generateInodeNo => Nat
  | time => UInt64

/-- A file system function. -/
abbrev Fs (α : Type) := Prog StoreCall StoreCall.Resp Fault α

namespace Fs

/-- `db->Get`. -/
def get (cf : Cf) (key : Bytes) : Fs GetStatus :=
  Prog.perform (StoreCall.get cf key)

/-- `db->BeginTransaction`. -/
def beginTransaction (opt : WriteOpt) : Fs Unit :=
  Prog.perform (StoreCall.beginTransaction opt)

/-- `tx->GetForUpdate`. -/
def getForUpdate (cf : Cf) (key : Bytes) : Fs GetStatus :=
  Prog.perform (StoreCall.getForUpdate cf key)

/-- `tx->Put`. -/
def put (cf : Cf) (key val : Bytes) : Fs Status :=
  Prog.perform (StoreCall.put cf key val)

/-- `tx->Put(meta_cf, INODE_SEED_KEY, ctx->inode_seed)`. -/
def putSeed : Fs Status := Prog.perform StoreCall.putSeed

/-- `tx->Merge(data_cf, ..)`. -/
def merge (key val : Bytes) : Fs Status :=
  Prog.perform (StoreCall.merge key val)

/-- `tx->Delete`. -/
def delete (cf : Cf) (key : Bytes) : Fs Status :=
  Prog.perform (StoreCall.delete cf key)

/-- `tx->Commit`. -/
def commit : Fs Status := Prog.perform StoreCall.commit

/-- `tx->Rollback`. -/
def rollback : Fs Unit := Prog.perform StoreCall.rollback

/-- `db->FlushWAL(true)`. -/
def flushWAL : Fs Status := Prog.perform StoreCall.flushWAL

/-- `NewIterator(meta_cf)` and `Seek`: the entries still ahead of it. -/
def seekMeta (target : Bytes) : Fs (List (Bytes × Bytes)) :=
  Prog.perform (StoreCall.seekMeta target)

/-- `ctx->generate_inode_no()`. -/
def generateInodeNo : Fs Nat := Prog.perform StoreCall.generateInodeNo

/-- `time(NULL)`. -/
def time : Fs UInt64 := Prog.perform StoreCall.time

/-- A step that makes no store call but can die. -/
def lift {α : Type} (x : Except Fault α) : Fs α := Prog.ofExcept x

end Fs

-- ======================================================= running alone

/-- An open transaction: how it commits and what it holds so far. -/
structure Tx where
  opt : WriteOpt
  batch : List WriteOp

structure World where
  db : Store
  durable : Store
  tx : Option Tx
  inodeSeed : Nat
  clock : UInt64
  script : List Bool

namespace World

/-- The outcome of the next fallible call. -/
def outcome (w : World) : Bool := w.script.headD true

/-- The world with that outcome used up. -/
def advance (w : World) : World := { w with script := w.script.tail }

/-- The batch so far; empty without a transaction. -/
def batch (w : World) : List WriteOp := (w.tx.map Tx.batch).getD []

/-- A write added to the open transaction. -/
def push (w : World) (op : WriteOp) : World :=
  { w with tx := w.tx.map fun t => { t with batch := t.batch ++ [op] } }

/-- The transaction's writes made visible, and durable if it syncs. -/
def commitTx (w : World) : World :=
  match w.tx with
  | none => w
  | some t =>
      { w with
        db := w.db.applyBatch t.batch
        durable := if t.opt = .metaOpt then w.db.applyBatch t.batch
          else w.durable
        tx := none }

/-- A read of `s` as the reply of a call. -/
def replyGet (w : World) (s : Store) (cf : Cf) (key : Bytes) :
    Except Fault (GetStatus × World) :=
  if w.outcome then
    (s.get cf key).map fun r =>
      match r with
      | some v => (.ok v, w.advance)
      | none => (.notFound, w.advance)
  else .ok (.failed, w.advance)

/-- A write call's reply: `f` happens only if it succeeds. -/
def replyWrite (w : World) (f : World → World) :
    Except Fault (Status × World) :=
  if w.outcome then .ok (.ok, f w.advance) else .ok (.failed, w.advance)

/-- What each call does when its caller is alone. -/
def handle (c : StoreCall) (w : World) : Except Fault (c.Resp × World) :=
  match c with
  | .get cf key => w.replyGet w.db cf key
  | .beginTransaction opt => .ok ((), { w with tx := some ⟨opt, []⟩ })
  | .getForUpdate cf key => w.replyGet (w.db.applyBatch w.batch) cf key
  | .put cf key val => w.replyWrite fun w => w.push (.put cf key val)
  | .putSeed => w.replyWrite fun w =>
      w.push (.put .metaCf inodeSeedKey (leBytes 8 w.inodeSeed))
  | .merge key val => w.replyWrite fun w => w.push (.merge key val)
  | .delete cf key => w.replyWrite fun w => w.push (.delete cf key)
  | .commit => w.replyWrite commitTx
  | .rollback => .ok ((), { w with tx := none })
  | .flushWAL => w.replyWrite fun w => { w with durable := w.db }
  | .seekMeta target => .ok (w.db.metaCf.seek target, w)
  | .generateInodeNo =>
      -- inode_seed++ on an int64_t
      if w.inodeSeed + 1 < 2 ^ 63 then
        .ok (w.inodeSeed, { w with inodeSeed := w.inodeSeed + 1 })
      else .error .overflow
  | .time => .ok (w.clock, w)

end World

/-- A file system function run alone. -/
def Fs.exec {α : Type} (p : Fs α) (w : World) : Except Fault (α × World) :=
  Prog.run World.handle p w

end ViveNas
