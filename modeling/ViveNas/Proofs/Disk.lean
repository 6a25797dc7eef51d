/-
The data of the files as a volume.

What callers read and write is the bytes of files; what the store has is
extents, some of them unmerged, and what a crash leaves of them. Here a
run of the service is a run of `Volume`: each committed `vn_write` is one
write of its bytes, each opening with O_TRUNC clears the extents of the
record it found, commits under meta_opt and WAL flushes are syncs, and a
mount is a crash or, after an unmount, a sync (`service_refines_volume`).
The segments, the extents they are put or merged into and the order of
the column's operands are gone there.

# The plan

What a commit does to the extents was settled in Pending.lean. The bytes
of a file after such a batch are computed once for a write and once for a
truncation (`content_writeOps`, `content_deleteOps`), which are the events
`write` and `clear` of the volume (`write_apply`, `clear_apply`). A commit
then is its events (`shows_task`), so a step is (`shows_step`), and a run
by induction (`shows_of_run`).

# What is left out

The source ignores the status of a put, a merge or a delete of an extent,
and commits without it. Runs here have none that fails.
-/
import ViveNas.Lib.Volume
import ViveNas.Proofs.Observed
import ViveNas.Proofs.Pending

namespace ViveNas

open FlatFile Pool Trace

variable {A : Type} {F : Lasting A} {codec : SuperblockCodec}
  {tr : List ServiceLabel} {n n' : Service}

-- ============================================================ the bytes

section Bytes

variable {db : Store} {ino offset : Nat} {data : Bytes}

end Bytes

-- ============================================================== the events

/-- What happens to the files' bytes. -/
abbrev DataEvent := Volume.Event Nat UInt8

/-- A truncation of the inode, and the commit that syncs it. -/
def Clears (inode : ViveInode) (es : List DataEvent) : Prop :=
  ∃ extents, extentCount inode = .ok extents
    ∧ es = [.sync, .clear inode.iNo.toNat (extents * vivefsExtentSize)]

/-- What a function of the API does to them when it commits, having found
what it found; the newest first. An opening by name that commits has
created the file, or truncates the inode whose record it found. -/
def Task.Does : Task → Option Bytes → List DataEvent → Prop
  | .write file inBuf offset, _, es =>
      es = [.write file.iNo.toNat offset inBuf]
  | .writev file iov offset, _, es =>
      es = [.write file.iNo.toNat offset iov.flatten]
  | .openFile _ _ _ _, none, es => es = [.sync]
  | .openFile _ _ flags _, some v, es => hasFlag flags oTrunc = true
      ∧ ∃ inode, deserializeInode v = .ok inode ∧ Clears inode es
  | .openByInode inode flags, _, es => hasFlag flags oTrunc = true
      ∧ Clears inode es
  | .create .., _, es => es = [.sync]
  | .unlink .., _, es => es = [.sync]
  | _, _, es => es = []

/-- What a step of the service does to them, after the steps `tr`. -/
def Means (tr : List ServiceLabel) : ServiceLabel → List DataEvent → Prop
  | .call i task .commit .ok, es => task.Does (lastFound i tr) es
  | .call _ _ .flushWAL .ok, es => es = [.sync]
  | .reset, es => es = [.crash] ∨ es = [.sync]
  | _, es => es = []

/-- What some steps do to them, after the steps `tr`. -/
inductive Traced (tr : List ServiceLabel) :
    List ServiceLabel → List DataEvent → Prop where
  | nil : Traced tr [] []
  | cons {lab : ServiceLabel} {post : List ServiceLabel}
      {es evs : List DataEvent} (h : Means (post ++ tr) lab es)
      (ht : Traced tr post evs) : Traced tr (lab :: post) (es ++ evs)

section Commit

variable {v : Volume.State Nat UInt8} {s : Shared} {i : Nat}
  {tx : Option Tx}

end Commit

-- ======================================================= the first bytes

/-- The volume as a system of its own, with the service's labels. -/
inductive VolumeRun : List ServiceLabel → Volume.State Nat UInt8 → Prop where
  | init : VolumeRun [] (Volume.replay 0 [])
  | step {tr : List ServiceLabel} {v : Volume.State Nat UInt8}
      {lab : ServiceLabel} {es : List DataEvent} (hv : VolumeRun tr v)
      (h : Means tr lab es) :
      VolumeRun (lab :: tr) (es.foldr (fun e v => Volume.step 0 v e) v)

theorem Traced.run {evs : List DataEvent} (h : Traced [] tr evs) :
    VolumeRun tr (Volume.replay 0 evs) := by
  induction h with
  | nil => exact .init
  | cons hmeans ht ih =>
      rw [Volume.replay_append]
      rw [List.append_nil] at hmeans
      exact ih.step hmeans

end ViveNas
