/-
Several callers at once: the functions of Dir.lean interleaved, store
call by store call, over one TransactionDB.

The program texts are those that run alone in Store.lean; what changes
is what a call may do. `Shared` is the state all callers see: the
committed column families, their durable part, the context's seed and
the lock table. A caller's own state is its open transaction.

# Locks

GetForUpdate, Put, Merge and Delete take the lock of their key, which is
exclusive and held until the transaction commits or rolls back. A
request for a lock that another caller holds is either made later, when
the lock is free, or gives up with a status that is not OK. Any call
that has a status may also fail for reasons of its own, and then changes
nothing but the locks it got. Reads outside a transaction take no
lock.

`Put` of the seed copies the context's counter once it holds the lock on
INODE_SEED_KEY, so reading the counter and entering it in the
transaction is one step.

# What is assumed of the machine

`generate_inode_no` is one step here. The source increments a plain
`int64_t` without a lock, so on a real machine two creates can race there
and draw one number; the runs of this model have no such race, and nothing
proved over them speaks of one.

A crash leaves exactly the store of the last sync. Commits that were not
synced but had reached the disk all the same are lost here, where a
machine may keep some of them.

`vn_mount` after a crash or an unmount is run with store calls that
succeed. A mount whose `Get` fails returns NULL and leaves the store as it
is; it is no step of a run.
-/
import ViveNas.System
import ViveNas.Lib.Pool

namespace ViveNas

open LittleEndian

-- ========================================================== shared state

/-- What all callers of a mounted file system share. -/
structure Shared where
  db : Store
  durable : Store
  inodeSeed : Nat
  locks : Cf × Bytes → Option Nat

namespace Shared

/-- The lock is free, or the caller's already. -/
def Grants (s : Shared) (i : Nat) (key : Cf × Bytes) : Prop :=
  s.locks key = none ∨ s.locks key = some i

/-- The lock given to a caller. -/
def lock (s : Shared) (i : Nat) (key : Cf × Bytes) : Shared :=
  { s with locks := Function.update s.locks key (some i) }

/-- All of a caller's locks given back. -/
def release (i : Nat) (s : Shared) : Shared :=
  { s with locks := fun key =>
      if s.locks key = some i then none else s.locks key }

/-- A transaction's writes made visible, and durable if it syncs. -/
def commitTx (s : Shared) (i : Nat) (tx : Option Tx) : Shared :=
  match tx with
  | none => s.release i
  | some t =>
      { s.release i with
        db := s.db.applyBatch t.batch
        durable := if t.opt = .metaOpt then s.db.applyBatch t.batch
          else s.durable }

variable {s : Shared} {i j : Nat} {key key' : Cf × Bytes}

theorem release_of_ne (hj : j ≠ i) (h : s.locks key = some j) :
    (s.release i).locks key = some j := by
  show (if s.locks key = some i then none else s.locks key) = some j
  rw [if_neg (by rw [h]; simpa using hj), h]

/-- A lock that is granted is not taken from another caller. -/
theorem lock_of_ne (hj : j ≠ i) (hgrant : s.Grants i key)
    (h : s.locks key' = some j) : (s.lock i key).locks key' = some j := by
  show Function.update s.locks key (some i) key' = some j
  by_cases hkey : key' = key
  · subst hkey
    rcases hgrant with hfree | hown
    · cases h.symm.trans hfree
    · exact absurd (Option.some.inj (h.symm.trans hown)) hj
  · rw [Function.update_of_ne hkey, h]

theorem lock_self (s : Shared) (i : Nat) (key : Cf × Bytes) :
    (s.lock i key).locks key = some i :=
  Function.update_self ..

/-- A caller keeps the locks it has. -/
theorem lock_of_own (h : s.locks key' = some i) :
    (s.lock i key).locks key' = some i := by
  show Function.update s.locks key (some i) key' = some i
  rw [Function.update_apply]
  split
  · rfl
  · exact h

/-- Where every lock is free or the caller's, so it is after a lock. -/
theorem grants_lock (h : ∀ key, s.Grants i key) (key : Cf × Bytes) :
    ∀ key', (s.lock i key).Grants i key' := by
  intro key'
  by_cases hkey : key' = key
  · subst hkey
    exact Or.inr (s.lock_self i key')
  · show Function.update s.locks key (some i) key' = none
      ∨ Function.update s.locks key (some i) key' = some i
    rw [Function.update_of_ne hkey]
    exact h key'

/-- ... and after a release no lock is left. -/
theorem release_locks (h : ∀ key, s.Grants i key) :
    (s.release i).locks = fun _ => none := by
  funext key
  show (if s.locks key = some i then none else s.locks key) = none
  split
  · rfl
  · next hne => exact (h key).resolve_right hne

theorem commitTx_metaOpt (s : Shared) (i : Nat) (batch : List WriteOp) :
    s.commitTx i (some ⟨.metaOpt, batch⟩)
      = { s.release i with
          db := s.db.applyBatch batch
          durable := s.db.applyBatch batch } := by
  rw [commitTx, if_pos rfl]

end Shared

-- ================================================================ replies

/-- The status a read of `db` may have. -/
def Store.Replies (db : Store) (cf : Cf) (key : Bytes) : GetStatus → Prop
  | .ok v => db.get cf key = .ok (some v)
  | .notFound => db.get cf key = .ok none
  | .failed => True

/-- The writes of a transaction so far. -/
def txBatch (tx : Option Tx) : List WriteOp := (tx.map Tx.batch).getD []

/-- A write added to a transaction. -/
def txPush (op : WriteOp) (tx : Option Tx) : Option Tx :=
  tx.map fun t => { t with batch := t.batch ++ [op] }

/-- A write call: the lock of its key and the write in the transaction,
or neither. -/
def Shared.Writes (s : Shared) (i : Nat) (tx : Option Tx)
    (key : Cf × Bytes) (op : WriteOp) (r : Status) (s' : Shared)
    (tx' : Option Tx) : Prop :=
  (r = .ok ∧ s.Grants i key ∧ s' = s.lock i key ∧ tx' = txPush op tx)
    ∨ (r = .failed ∧ s' = s ∧ tx' = tx)

/-- What a call of caller `i` may do. -/
def reply (i : Nat) : (c : StoreCall) → Shared → Option Tx → c.Resp →
    Shared → Option Tx → Prop
  | .get cf key, s, tx, r, s', tx' =>
      s.db.Replies cf key r ∧ s' = s ∧ tx' = tx
  | .beginTransaction opt, s, _, _, s', tx' =>
      s' = s ∧ tx' = some ⟨opt, []⟩
  | .getForUpdate cf key, s, tx, r, s', tx' =>
      (s.Grants i (cf, key) ∧ (s.db.applyBatch (txBatch tx)).Replies cf key r
        ∧ s' = s.lock i (cf, key) ∧ tx' = tx)
      ∨ (r = .failed ∧ s' = s ∧ tx' = tx)
  | .put cf key val, s, tx, r, s', tx' =>
      s.Writes i tx (cf, key) (.put cf key val) r s' tx'
  | .putSeed, s, tx, r, s', tx' =>
      s.Writes i tx (.metaCf, inodeSeedKey)
        (.put .metaCf inodeSeedKey (leBytes 8 s.inodeSeed)) r s' tx'
  | .merge key val, s, tx, r, s', tx' =>
      s.Writes i tx (.dataCf, key) (.merge key val) r s' tx'
  | .delete cf key, s, tx, r, s', tx' =>
      s.Writes i tx (cf, key) (.delete cf key) r s' tx'
  | .commit, s, tx, r, s', tx' =>
      (r = .ok ∧ s' = s.commitTx i tx ∧ tx' = none)
      ∨ (r = .failed ∧ s' = s ∧ tx' = tx)
  | .rollback, s, _, _, s', tx' => s' = s.release i ∧ tx' = none
  | .flushWAL, s, tx, r, s', tx' =>
      (r = .ok ∧ s' = { s with durable := s.db } ∧ tx' = tx)
      ∨ (r = .failed ∧ s' = s ∧ tx' = tx)
  | .seekMeta target, s, tx, r, s', tx' =>
      r = s.db.metaCf.seek target ∧ s' = s ∧ tx' = tx
  | .generateInodeNo, s, tx, r, s', tx' =>
      -- inode_seed++ on an int64_t, taken to be atomic; past its range
      -- there is no step
      r = s.inodeSeed ∧ s.inodeSeed + 1 < 2 ^ 63
      ∧ s' = { s with inodeSeed := s.inodeSeed + 1 } ∧ tx' = tx
  | .time, s, tx, _, s', tx' => s' = s ∧ tx' = tx

-- ================================================================ callers

/-- What a caller was asked to do. -/
inductive Job where
  | create (parent : Int) (name : FileName) (mode uid gid : UInt16)
  | unlink (parent : Int) (name : FileName)

/-- The call, with what it returns. -/
def Job.prog : Job → Fs Int
  | create parent name mode uid gid => do
      let (r, _) ← vnCreateFile parent name mode uid gid
      return r
  | unlink parent name => vnUnlink parent name

/-- The file system is mounted again: from the durable part after a
crash, from all of it after an unmount, which flushes. Stores in between,
with some of the commits since the last sync, are left out. No caller and
no lock is left, and the seed is the one `vn_mount` loads; its own calls
succeed. -/
def Remounts (codec : SuperblockCodec) (s s' : Shared) : Prop :=
  ∃ db clock ctx w, (db = s.durable ∨ db = s.db)
    ∧ (vnMount codec).exec ⟨db, db, none, 0, clock, []⟩ = .ok (some ctx, w)
    ∧ s' = ⟨db, db, ctx.inodeSeed, fun _ => none⟩

/-- Callers over the store. A caller that ends or is aborted gives its
locks back: its transaction is deleted. -/
def server (codec : SuperblockCodec) :
    Pool.Machine StoreCall StoreCall.Resp Fault Int Shared (Option Tx) Job
    where
  prog := Job.prog
  fresh := none
  reply := reply
  leave := Shared.release
  reset := Remounts codec

/-- The callers and what they share. -/
abbrev Server :=
  Pool.State StoreCall StoreCall.Resp Fault Int Shared (Option Tx) Job

abbrev ServerLabel := Pool.Label StoreCall StoreCall.Resp Int Job

/-- A file system just formatted and mounted, with no caller yet. -/
def Server.Fresh (codec : SuperblockCodec) (n : Server) : Prop :=
  n.threads = (fun _ => none) ∧ ∃ clock r w,
    (vnMkfsVivefs codec).exec (blankWorld clock) = .ok (r, w)
      ∧ Remounts codec ⟨w.db, w.durable, 0, fun _ => none⟩ n.shared

/-- Runs of a server whose steps `ok` admits. -/
abbrev ServerRun (codec : SuperblockCodec) (init : Server → Prop)
    (ok : Shared → ServerLabel → Prop) : List ServerLabel → Server → Prop :=
  Trace.Run init (Pool.Step (server codec) ok)

end ViveNas
