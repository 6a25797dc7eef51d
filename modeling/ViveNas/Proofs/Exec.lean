/-
Stepping a file system function through a world: one equation per store
call, whatever its outcome, and the shape every function's transaction has
(`within` while it is open, `committed` afterwards).

# Outcomes

`outcomeAt i` is the outcome of the `i`-th fallible call from now on and
`skip n` the world after `n` of them, so a function whose calls are counted
has its result in closed form over `outcomeAt`: an operation whose status
is dropped contributes to the batch exactly when its call succeeded
(`kept`). In a `Calm` world the script is empty, all outcomes are success,
and each equation loses its case split; those are the ones most specs use.

# How a function's spec is proved

By rewriting with `exec_bind_ok` and the equations below in the order the
function makes its calls. `World.handle` is not unfolded elsewhere, so that
a change to it is met by this module alone.
-/
import ViveNas.File

namespace ViveNas

open LittleEndian

-- ============================================================== worlds

/-- Every store call still to come succeeds. -/
def Calm (w : World) : Prop := w.script = []

/-- The world with a transaction open. -/
def World.within (w : World) (opt : WriteOpt) (batch : List WriteOp) :
    World :=
  { w with tx := some ⟨opt, batch⟩ }

/-- The world after a transaction's commit. -/
def World.committed (w : World) (opt : WriteOpt) (batch : List WriteOp) :
    World :=
  { w with
    db := w.db.applyBatch batch
    durable := if opt = .metaOpt then w.db.applyBatch batch else w.durable
    tx := none }

/-- The world after a transaction is given up. -/
def World.idle (w : World) : World := { w with tx := none }

/-- The world once `generate_inode_no` has drawn a number. -/
def World.drawn (w : World) : World := { w with inodeSeed := w.inodeSeed + 1 }

variable {w : World} {α β : Type}

/-- None of what a transaction does to the world touches the script. -/
theorem Calm.within (h : Calm w) (opt : WriteOpt) (b : List WriteOp) :
    Calm (w.within opt b) := h

theorem Calm.committed (h : Calm w) (opt : WriteOpt) (b : List WriteOp) :
    Calm (w.committed opt b) := h

theorem Calm.idle (h : Calm w) : Calm w.idle := h

theorem Calm.drawn (h : Calm w) : Calm w.drawn := h

@[simp] theorem within_db (opt : WriteOpt) (b : List WriteOp) :
    (w.within opt b).db = w.db := rfl

@[simp] theorem committed_db (opt : WriteOpt) (b : List WriteOp) :
    (w.committed opt b).db = w.db.applyBatch b := rfl

@[simp] theorem committed_inodeSeed (opt : WriteOpt) (b : List WriteOp) :
    (w.committed opt b).inodeSeed = w.inodeSeed := rfl

@[simp] theorem idle_db : w.idle.db = w.db := rfl

@[simp] theorem drawn_db : w.drawn.db = w.db := rfl

-- ============================================================= outcomes

namespace World

/-- The outcome of the `i`-th fallible call from now on. -/
def outcomeAt (w : World) (i : Nat) : Bool := w.script.getD i true

/-- The world after `n` fallible calls that left no other trace. -/
def skip (w : World) (n : Nat) : World :=
  { w with script := w.script.drop n }

/-- The operations that `n` calls in a row leave in a batch: those whose
calls succeed. -/
def kept (w : World) : List WriteOp → List WriteOp
  | [] => []
  | op :: ops =>
      (if w.outcomeAt 0 then [op] else []) ++ (w.skip 1).kept ops

end World

/-- The world's own words for the next call, in these terms. -/
theorem outcomeAt_zero (w : World) : w.outcomeAt 0 = w.outcome := by
  rw [World.outcomeAt, World.outcome]
  cases w.script <;> rfl

theorem advance_eq_skip (w : World) : w.advance = w.skip 1 := by
  rw [World.advance, World.skip, List.drop_one]

@[simp] theorem skip_zero (w : World) : w.skip 0 = w := rfl

@[simp] theorem skip_skip (w : World) (m n : Nat) :
    (w.skip m).skip n = w.skip (m + n) := by
  rw [World.skip, World.skip, World.skip]
  dsimp only
  rw [List.drop_drop]

@[simp] theorem outcomeAt_skip (w : World) (m i : Nat) :
    (w.skip m).outcomeAt i = w.outcomeAt (m + i) := by
  simp [World.outcomeAt, World.skip, List.getD_eq_getElem?_getD]

@[simp] theorem skip_db (w : World) (n : Nat) : (w.skip n).db = w.db := rfl

@[simp] theorem skip_clock (w : World) (n : Nat) :
    (w.skip n).clock = w.clock := rfl

/-- Which operations survive. -/
theorem mem_kept {op : WriteOp} {ops : List WriteOp} :
    op ∈ w.kept ops ↔ ∃ i, ops[i]? = some op ∧ w.outcomeAt i = true := by
  induction ops generalizing w with
  | nil => simp [World.kept]
  | cons first ops ih =>
      rw [World.kept, List.mem_append, ih]
      constructor
      · rintro (hfirst | ⟨i, hi, hout⟩)
        · by_cases hout : w.outcomeAt 0 = true
          · rw [if_pos hout, List.mem_singleton] at hfirst
            exact ⟨0, by rw [hfirst]; rfl, hout⟩
          · rw [if_neg hout] at hfirst
            cases hfirst
        · refine ⟨i + 1, hi, ?_⟩
          rwa [outcomeAt_skip, Nat.add_comm] at hout
      · rintro ⟨i, hi, hout⟩
        cases i with
        | zero =>
            rw [List.getElem?_cons_zero, Option.some.injEq] at hi
            left
            rw [if_pos hout, hi]
            exact List.mem_singleton_self op
        | succ i =>
            right
            refine ⟨i, hi, ?_⟩
            rwa [outcomeAt_skip, Nat.add_comm]

theorem mem_of_mem_kept {op : WriteOp} {ops : List WriteOp}
    (h : op ∈ w.kept ops) : op ∈ ops := by
  obtain ⟨i, hi, -⟩ := mem_kept.mp h
  exact List.mem_of_getElem? hi

/-- With nothing left in the script every outcome is success ... -/
theorem Calm.outcomeAt (h : Calm w) (i : Nat) : w.outcomeAt i = true := by
  rw [World.outcomeAt, h]
  rfl

/-- ... using one up changes nothing ... -/
theorem Calm.skip (h : Calm w) (n : Nat) : w.skip n = w := by
  rw [World.skip, h, List.drop_nil, ← h]

/-- ... and every operation stays. -/
theorem Calm.kept (h : Calm w) (ops : List WriteOp) : w.kept ops = ops := by
  induction ops with
  | nil => rfl
  | cons op ops ih =>
      rw [World.kept, h.outcomeAt, h.skip, ih]
      rfl

-- =========================================================== sequencing

/-- A function that returns leaves the world alone. -/
@[simp] theorem exec_ret (a : α) :
    Fs.exec (Prog.ret a : Fs α) w = .ok (a, w) := rfl

/-- A fault ends the call, with no world after it. -/
@[simp] theorem exec_raise (e : Fault) :
    Fs.exec (Prog.raise e : Fs α) w = .error e := rfl

/-- What a function calls, if it goes on by the status of a call. -/
theorem calls_onStatus {Q : StoreCall → Prop} {x : Fs Status}
    {k : Status → Fs α} (hx : x.Calls Q) (hfailed : (k .failed).Calls Q)
    (hok : (k .ok).Calls Q) : Prog.Calls Q (x >>= k) := by
  refine hx.bind fun s => ?_
  cases s with
  | failed => exact hfailed
  | ok => exact hok

/-- What it can die of. -/
theorem dies_onStatus {Q : Fault → Prop} {x : Fs Status}
    {k : Status → Fs α} (hx : x.Dies Q) (hfailed : (k .failed).Dies Q)
    (hok : (k .ok).Dies Q) : Prog.Dies Q (x >>= k) := by
  refine hx.bind fun s => ?_
  cases s with
  | failed => exact hfailed
  | ok => exact hok

/-- A first part whose result is known, stepped over. -/
theorem exec_bind_ok {x : Fs α} {f : α → Fs β} {w' : World} {a : α}
    (hx : x.exec w = .ok (a, w')) : (x >>= f).exec w = (f a).exec w' :=
  Prog.run_bind_ok hx

/-- A first part that dies ends the whole. -/
theorem exec_bind_error {x : Fs α} {f : α → Fs β} {e : Fault}
    (hx : x.exec w = .error e) : (x >>= f).exec w = .error e :=
  Prog.run_bind_error hx

/-- A result of a sequence, split at the seam. -/
theorem exec_bind_inv {x : Fs α} {f : α → Fs β} {w' : World} {b : β}
    (hx : (x >>= f).exec w = .ok (b, w')) :
    ∃ a w₁, x.exec w = .ok (a, w₁) ∧ (f a).exec w₁ = .ok (b, w') :=
  Prog.run_bind_inv hx

/-- A step without store calls, by what it computes. -/
theorem exec_lift_ok {x : Except Fault α} {a : α} (hx : x = .ok a) :
    (Fs.lift x).exec w = .ok (a, w) := by
  rw [hx]
  rfl

theorem exec_lift_error {x : Except Fault α} {e : Fault}
    (hx : x = .error e) : (Fs.lift x).exec w = .error e := by
  rw [hx]
  rfl

-- ============================================================ the calls

/-- One call, run: what the handler says. -/
theorem exec_perform (c : StoreCall) :
    Fs.exec (Prog.perform c) w = w.handle c := by
  rw [Fs.exec, Prog.perform, Prog.run]
  cases World.handle c w with
  | ok p => rfl
  | error e => rfl

/-- The status of a call with a given outcome. -/
def Status.of (outcome : Bool) : Status := if outcome then .ok else .failed

/-- The status of a read of meta_cf. -/
def World.readMeta (w : World) (key : Bytes) : GetStatus :=
  if w.outcomeAt 0 then (w.db.metaCf[key]?.map GetStatus.ok).getD .notFound
  else .failed

/-- What such a status says of the store. -/
theorem readMeta_eq_ok {key v : Bytes} :
    w.readMeta key = .ok v
      ↔ w.outcomeAt 0 = true ∧ w.db.metaCf[key]? = some v := by
  rw [World.readMeta]
  cases w.outcomeAt 0 with
  | false => simp
  | true => cases w.db.metaCf[key]? <;> simp

theorem readMeta_eq_notFound {key : Bytes} :
    w.readMeta key = .notFound
      ↔ w.outcomeAt 0 = true ∧ w.db.metaCf[key]? = none := by
  rw [World.readMeta]
  cases w.outcomeAt 0 with
  | false => simp
  | true => cases w.db.metaCf[key]? <;> simp

theorem replyGet_meta (key : Bytes) :
    w.replyGet w.db .metaCf key = .ok (w.readMeta key, w.skip 1) := by
  rw [World.replyGet, World.readMeta, outcomeAt_zero, ← advance_eq_skip]
  cases w.outcome with
  | false => rfl
  | true =>
      rw [if_pos rfl, if_pos rfl, Store.get]
      cases w.db.metaCf[key]? <;> rfl

/-- A read outside a transaction sees the committed value. -/
theorem exec_readMeta (key : Bytes) :
    (Fs.get .metaCf key).exec w = .ok (w.readMeta key, w.skip 1) :=
  (exec_perform _).trans (replyGet_meta key)

/-- A locked read at the start of a transaction sees the committed
value. -/
theorem exec_lockMeta (opt : WriteOpt) (key : Bytes) :
    (Fs.getForUpdate .metaCf key).exec (w.within opt [])
      = .ok (w.readMeta key, (w.skip 1).within opt []) :=
  (exec_perform _).trans (replyGet_meta (w := w.within opt []) key)

/-- A write call in an open transaction. -/
theorem replyWrite_push (opt : WriteOpt) (b : List WriteOp) (op : WriteOp) :
    (w.within opt b).replyWrite (fun w => w.push op)
      = .ok (Status.of (w.outcomeAt 0), (w.skip 1).within opt
          (b ++ if w.outcomeAt 0 then [op] else [])) := by
  rw [World.replyWrite, outcomeAt_zero]
  show (if w.outcome = true then _ else _) = _
  rw [← advance_eq_skip]
  cases w.outcome with
  | false =>
      rw [if_neg Bool.false_ne_true, if_neg Bool.false_ne_true,
        List.append_nil]
      rfl
  | true => rfl

/-- The writing calls: an operation in the transaction, or none. -/
theorem exec_tryPut (opt : WriteOpt) (b : List WriteOp) (cf : Cf)
    (k v : Bytes) :
    (Fs.put cf k v).exec (w.within opt b)
      = .ok (Status.of (w.outcomeAt 0), (w.skip 1).within opt
          (b ++ if w.outcomeAt 0 then [.put cf k v] else [])) :=
  (exec_perform _).trans (replyWrite_push opt b _)

theorem exec_tryMerge (opt : WriteOpt) (b : List WriteOp) (k v : Bytes) :
    (Fs.merge k v).exec (w.within opt b)
      = .ok (Status.of (w.outcomeAt 0), (w.skip 1).within opt
          (b ++ if w.outcomeAt 0 then [.merge k v] else [])) :=
  (exec_perform _).trans (replyWrite_push opt b _)

theorem exec_tryDelete (opt : WriteOpt) (b : List WriteOp) (cf : Cf)
    (k : Bytes) :
    (Fs.delete cf k).exec (w.within opt b)
      = .ok (Status.of (w.outcomeAt 0), (w.skip 1).within opt
          (b ++ if w.outcomeAt 0 then [.delete cf k] else [])) :=
  (exec_perform _).trans (replyWrite_push opt b _)

/-- The seed goes in as the counter is at the time of the call. -/
theorem exec_tryPutSeed (opt : WriteOpt) (b : List WriteOp) :
    Fs.putSeed.exec (w.within opt b)
      = .ok (Status.of (w.outcomeAt 0), (w.skip 1).within opt
          (b ++ if w.outcomeAt 0 then
            [.put .metaCf inodeSeedKey (leBytes 8 w.inodeSeed)] else [])) :=
  (exec_perform _).trans (replyWrite_push opt b _)

theorem exec_tryPersist (opt : WriteOpt) (b : List WriteOp)
    (n : ViveInode) :
    (vnPersistInodeTx n).exec (w.within opt b)
      = .ok (Status.of (w.outcomeAt 0), (w.skip 1).within opt
          (b ++ if w.outcomeAt 0 then
            [.put .metaCf (inodeKey n.iNo.toNat) n.toBytes] else [])) :=
  exec_tryPut opt b _ _ _

/-- A commit applies the transaction, durably if it was opened to sync. -/
theorem exec_commit_ok (hout : w.outcomeAt 0 = true) (opt : WriteOpt)
    (b : List WriteOp) :
    Fs.commit.exec (w.within opt b)
      = .ok (.ok, (w.skip 1).committed opt b) := by
  refine (exec_perform _).trans ?_
  show (if w.outcome = true then _ else _) = _
  rw [if_pos (by rwa [← outcomeAt_zero]), ← advance_eq_skip]
  rfl

/-- One that fails leaves it open. -/
theorem exec_commit_failed (hout : w.outcomeAt 0 = false) (opt : WriteOpt)
    (b : List WriteOp) :
    Fs.commit.exec (w.within opt b)
      = .ok (.failed, (w.skip 1).within opt b) := by
  refine (exec_perform _).trans ?_
  show (if w.outcome = true then _ else _) = _
  rw [if_neg (by rw [← outcomeAt_zero, hout]; exact Bool.false_ne_true),
    ← advance_eq_skip]
  rfl

/-- A flush makes everything committed durable. -/
theorem exec_tryFlush :
    Fs.flushWAL.exec w = .ok (Status.of (w.outcomeAt 0),
      { w.skip 1 with
        durable := if w.outcomeAt 0 then w.db else w.durable }) := by
  refine (exec_perform _).trans ?_
  show (if w.outcome = true then _ else _) = _
  rw [outcomeAt_zero, ← advance_eq_skip]
  cases w.outcome <;> rfl

-- ======================================================= calls that work

/-- A read of either store, where no call fails. -/
theorem replyGet_calm (h : Calm w) {s : Store} {cf : Cf} {key : Bytes}
    {r : Option Bytes} (hr : s.get cf key = .ok r) :
    w.replyGet s cf key
      = .ok ((r.map GetStatus.ok).getD .notFound, w) := by
  rw [World.replyGet, ← outcomeAt_zero, advance_eq_skip, h.outcomeAt, h.skip,
    if_pos rfl, hr]
  cases r <;> rfl

/-- A transaction starts with nothing in it. -/
theorem exec_begin (opt : WriteOpt) :
    (Fs.beginTransaction opt).exec w = .ok ((), w.within opt []) :=
  exec_perform _

/-- Where no call fails, the writing calls add to the open transaction. -/
theorem exec_put (h : Calm w) (opt : WriteOpt) (b : List WriteOp) (cf : Cf)
    (k v : Bytes) :
    (Fs.put cf k v).exec (w.within opt b)
      = .ok (.ok, w.within opt (b ++ [.put cf k v])) := by
  rw [exec_tryPut, h.outcomeAt, h.skip]
  rfl

theorem exec_putSeed (h : Calm w) (opt : WriteOpt) (b : List WriteOp) :
    Fs.putSeed.exec (w.within opt b)
      = .ok (.ok, w.within opt
          (b ++ [.put .metaCf inodeSeedKey (leBytes 8 w.inodeSeed)])) := by
  rw [exec_tryPutSeed, h.outcomeAt, h.skip]
  rfl

theorem exec_delete (h : Calm w) (opt : WriteOpt) (b : List WriteOp)
    (cf : Cf) (k : Bytes) :
    (Fs.delete cf k).exec (w.within opt b)
      = .ok (.ok, w.within opt (b ++ [.delete cf k])) := by
  rw [exec_tryDelete, h.outcomeAt, h.skip]
  rfl

theorem exec_commit (h : Calm w) (opt : WriteOpt) (b : List WriteOp) :
    Fs.commit.exec (w.within opt b) = .ok (.ok, w.committed opt b) := by
  rw [exec_commit_ok (h.outcomeAt 0), h.skip]

/-- A rollback leaves the store as it was. -/
theorem exec_rollback : Fs.rollback.exec w = .ok ((), w.idle) :=
  exec_perform _

theorem exec_flushWAL (h : Calm w) :
    Fs.flushWAL.exec w = .ok (.ok, { w with durable := w.db }) := by
  rw [exec_tryFlush, h.outcomeAt, h.skip]
  rfl

/-- The clock is the world's. -/
theorem exec_time : Fs.time.exec w = .ok (w.clock, w) := exec_perform _

/-- An iterator sees the pairs of meta_cf from its target on. -/
theorem exec_seekMeta (target : Bytes) :
    (Fs.seekMeta target).exec w = .ok (w.db.metaCf.seek target, w) :=
  exec_perform _

/-- Drawing a number; the counter is an `int64_t`. -/
theorem exec_generateInodeNo (h : w.inodeSeed + 1 < 2 ^ 63) :
    Fs.generateInodeNo.exec w
      = .ok (w.inodeSeed, w.drawn) :=
  (exec_perform _).trans (if_pos h)

/-- A read outside a transaction sees the committed value ... -/
theorem exec_getMeta (h : Calm w) (key : Bytes) :
    (Fs.get .metaCf key).exec w
      = .ok ((w.db.metaCf[key]?.map GetStatus.ok).getD .notFound, w) := by
  rw [exec_readMeta, World.readMeta, h.outcomeAt, h.skip, if_pos rfl]

/-- ... which for an extent is what its operands merge to. -/
theorem exec_getData (h : Calm w) {key : Bytes} {r : Option Bytes}
    (hr : w.db.getData key = .ok r) :
    (Fs.get .dataCf key).exec w
      = .ok ((r.map GetStatus.ok).getD .notFound, w) :=
  (exec_perform _).trans (replyGet_calm h hr)

/-- A locked read at the start of a transaction sees the committed
value. -/
theorem exec_getForUpdate (h : Calm w) (opt : WriteOpt) (key : Bytes) :
    (Fs.getForUpdate .metaCf key).exec (w.within opt [])
      = .ok ((w.db.metaCf[key]?.map GetStatus.ok).getD .notFound,
          w.within opt []) := by
  rw [exec_lockMeta, World.readMeta, h.outcomeAt, h.skip, if_pos rfl]

/-- The record into the open transaction. -/
theorem exec_persistTx (h : Calm w) (opt : WriteOpt) (b : List WriteOp)
    (n : ViveInode) :
    (vnPersistInodeTx n).exec (w.within opt b)
      = .ok (.ok, w.within opt
          (b ++ [.put .metaCf (inodeKey n.iNo.toNat) n.toBytes])) :=
  exec_put h opt b _ _ _

/-- The deletes of `n` consecutive extents. -/
def deleteOps (cf : Cf) (inodeNo n i : Nat) : List WriteOp :=
  (List.range' i n).map fun j => .delete cf (vnExtentKey j inodeNo)

/-- The loop of deletes that `vn_unlink` and a truncating open share. Its
statuses are dropped. -/
theorem exec_tryDeleteExtents (opt : WriteOpt) (cf : Cf) (ino n i : Nat)
    (b : List WriteOp) :
    (deleteExtents cf ino n i).exec (w.within opt b)
      = .ok ((), (w.skip n).within opt
          (b ++ w.kept (deleteOps cf ino n i))) := by
  induction n generalizing i b w with
  | zero => simp [deleteExtents, deleteOps, World.kept]
  | succ n ih =>
      rw [deleteExtents, exec_bind_ok (exec_tryDelete opt b cf _), ih,
        skip_skip, Nat.add_comm 1 n, List.append_assoc]
      rfl

/-- What the loop calls. -/
theorem calls_deleteExtents {Q : StoreCall → Prop}
    (hdel : ∀ cf key, Q (.delete cf key)) (cf : Cf) (ino n i : Nat) :
    Prog.Calls Q (deleteExtents cf ino n i) := by
  induction n generalizing i with
  | zero => exact trivial
  | succ n ih => exact (Prog.Calls.perform (hdel _ _)).bind fun _ => ih _

theorem exec_deleteExtents (h : Calm w) (opt : WriteOpt) (cf : Cf)
    (inodeNo n i : Nat) (b : List WriteOp) :
    (deleteExtents cf inodeNo n i).exec (w.within opt b)
      = .ok ((), w.within opt (b ++ deleteOps cf inodeNo n i)) := by
  rw [exec_tryDeleteExtents, h.skip, h.kept]

end ViveNas
