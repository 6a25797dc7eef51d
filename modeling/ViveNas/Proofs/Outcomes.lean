/-
Writes whatever the outcomes of their calls.

The loop of `vn_write` drops the statuses of its `Put`s and `Merge`s
(WriteSpec.lean), its end does not: the record's `Put`, if the file grew,
and the commit decide what the call returns. So a write has its result in
closed form over `outcomeAt`: it is acknowledged if the closing calls
succeed, with the operations `kept` of its loop, and refused otherwise,
with nothing committed.
-/
import ViveNas.Proofs.CallSpec
import ViveNas.Proofs.WriteSpec

namespace ViveNas

open LittleEndian Overlay Paging FlatFile

variable {w : World}

-- ============================================================== writing

variable {E offset : Nat} {data : Bytes}

/-- The calls that close a write: the record's, if the file grew, and the
commit. -/
def closingCalls (file : ViveFile) (endOff : Nat) : Nat :=
  if file.inode.iSize.toNat < endOff then 2 else 1

/-- The handle after a write that was refused: as after one that was not,
but for the dirty flag, which only a record that got into the transaction
clears. -/
def refusedFile (file : ViveFile) (now : UInt64) (endOff : Nat)
    (persisted : Bool) : ViveFile :=
  { wroteFile file now endOff with
    dirty := !(decide (file.inode.iSize.toNat < endOff) && persisted) }

theorem ofNat_u64 (n : Nat) : UInt64.ofNat (u64 n) = UInt64.ofNat n := by
  apply UInt64.toNat_inj.mp
  rw [UInt64.toNat_ofNat', UInt64.toNat_ofNat', u64, Nat.mod_mod]

section Finish

variable (opt : WriteOpt) (b : List WriteOp) (file : ViveFile)
  (offset len : Nat)

/-- The end of a write whose closing calls succeed. -/
theorem exec_finishWrite_acked
    (hok : ∀ i < closingCalls file (u64 (offset + len)),
      w.outcomeAt i = true) :
    (finishWrite file offset len).exec (w.within opt b)
      = .ok ((len, wroteFile file w.clock (u64 (offset + len))),
          (w.skip (closingCalls file (u64 (offset + len)))).committed opt
            (b ++ growOps file w.clock (u64 (offset + len)))) := by
  rw [finishWrite, exec_bind_ok exec_time, growOps]
  dsimp only
  by_cases hgrow : file.inode.iSize.toNat < u64 (offset + len)
  · rw [closingCalls, if_pos hgrow] at hok
    rw [closingCalls, if_pos hgrow, if_pos hgrow, if_pos hgrow,
      exec_bind_ok (exec_tryPersist opt b _), hok 0 (by omega)]
    refine (exec_bind_ok (exec_commit_ok (w := w.skip 1)
      (by rw [outcomeAt_skip]; exact hok 1 (by omega)) opt _)).trans ?_
    rw [skip_skip, wroteFile, if_pos hgrow, ofNat_u64]
    rfl
  · rw [closingCalls, if_neg hgrow] at hok
    rw [closingCalls, if_neg hgrow, if_neg hgrow, if_neg hgrow,
      exec_bind_ok (exec_commit_ok (hok 0 (by omega)) opt b), wroteFile,
      if_neg hgrow, List.append_nil]
    rfl

/-- The end of a write one of whose closing calls fails. -/
theorem exec_finishWrite_refused
    (hno : ∃ i < closingCalls file (u64 (offset + len)),
      w.outcomeAt i = false) :
    ∃ k, (finishWrite file offset len).exec (w.within opt b)
      = .ok ((-eio, refusedFile file w.clock (u64 (offset + len))
            (w.outcomeAt 0)), (w.skip k).idle) := by
  obtain ⟨i, hi, hout⟩ := hno
  rw [finishWrite, exec_bind_ok exec_time, refusedFile]
  dsimp only
  by_cases hgrow : file.inode.iSize.toNat < u64 (offset + len)
  · rw [closingCalls, if_pos hgrow] at hi
    rw [if_pos hgrow, exec_bind_ok (exec_tryPersist opt b _), wroteFile,
      if_pos hgrow, ofNat_u64, decide_eq_true hgrow]
    cases hput : w.outcomeAt 0 with
    | false =>
        refine ⟨1, ?_⟩
        refine (exec_bind_ok exec_rollback).trans ?_
        rfl
    | true =>
        obtain rfl : i = 1 := by
          rcases i with _ | _ | i
          · rw [hput] at hout
            cases hout
          · rfl
          · omega
        refine ⟨2, ?_⟩
        refine (exec_bind_ok (exec_commit_failed (w := w.skip 1)
          (by rwa [outcomeAt_skip]) opt _)).trans ?_
        refine (exec_bind_ok exec_rollback).trans ?_
        rw [skip_skip]
        rfl
  · rw [closingCalls, if_neg hgrow] at hi
    obtain rfl : i = 0 := by omega
    rw [if_neg hgrow, wroteFile, if_neg hgrow, decide_eq_false hgrow]
    refine ⟨1, ?_⟩
    refine (exec_bind_ok (exec_commit_failed hout opt b)).trans ?_
    refine (exec_bind_ok exec_rollback).trans ?_
    rfl

end Finish

/-- Of `k` calls in a row all succeed, or one fails. -/
theorem outcomes_cases (w : World) (k n : Nat) :
    (∀ i < k, w.outcomeAt (n + i) = true)
      ∨ ∃ i < k, w.outcomeAt (n + i) = false := by
  by_cases hno : ∃ i < k, w.outcomeAt (n + i) = false
  · exact Or.inr hno
  · left
    intro i hi
    rw [← Bool.not_eq_false]
    exact fun hout => hno ⟨i, hi, hout⟩

section Write

variable (file : ViveFile) (hE : 0 < file.inode.iExtentSize.toNat)
  (hlen : data.length < 2 ^ 64)
include hE hlen

/-- `vn_write` up to its closing calls. -/
theorem exec_vnWrite_closing :
    (vnWrite file data offset).exec w
      = (finishWrite file offset data.length).exec
        ((w.skip (extentTurns file.inode.iExtentSize.toNat offset
          data.length)).within .dataOpt (w.kept (writeOps file.iNo.toNat
            file.inode.iExtentSize.toNat offset data))) := by
  have hE' : file.inode.iExtentSize.toNat ≤ 2 ^ 32 :=
    Nat.le_of_lt file.inode.iExtentSize.toNat_lt
  have hloop := exec_tryWriteSegments (w := w) .dataOpt file.iNo.toNat hE hE'
    hlen (extentTurns file.inode.iExtentSize.toNat offset data.length)
    (Nat.le_refl (offset / file.inode.iExtentSize.toNat)) []
  rw [cut_first] at hloop
  rw [vnWrite, if_neg (by omega), exec_bind_ok (exec_begin .dataOpt), startExt,
    exec_bind_ok hloop]
  rfl

/-- A `vn_write` whose closing calls succeed returns the length and
commits the segments whose calls did. -/
theorem exec_vnWrite_acked
    (hok : ∀ i < closingCalls file (u64 (offset + data.length)),
      w.outcomeAt (extentTurns file.inode.iExtentSize.toNat offset
        data.length + i) = true) :
    ∃ k, (vnWrite file data offset).exec w
      = .ok ((data.length,
            wroteFile file w.clock (u64 (offset + data.length))),
          (w.skip k).committed .dataOpt
            (w.kept (writeOps file.iNo.toNat file.inode.iExtentSize.toNat
                offset data)
              ++ growOps file w.clock (u64 (offset + data.length)))) := by
  have hrun := exec_finishWrite_acked .dataOpt
    (w.kept (writeOps file.iNo.toNat file.inode.iExtentSize.toNat offset
      data)) file offset data.length
    fun i hi => (outcomeAt_skip w _ i).trans (hok i hi)
  rw [skip_skip] at hrun
  exact ⟨_, (exec_vnWrite_closing file hE hlen).trans hrun⟩

/-- A `vn_write` one of whose closing calls fails returns -EIO and commits
nothing. -/
theorem exec_vnWrite_refused
    (hno : ∃ i < closingCalls file (u64 (offset + data.length)),
      w.outcomeAt (extentTurns file.inode.iExtentSize.toNat offset
        data.length + i) = false) :
    ∃ k, (vnWrite file data offset).exec w
      = .ok ((-eio, refusedFile file w.clock (u64 (offset + data.length))
          (w.outcomeAt (extentTurns file.inode.iExtentSize.toNat offset
            data.length))), (w.skip k).idle) := by
  obtain ⟨i, hi, hout⟩ := hno
  obtain ⟨k, hrun⟩ := exec_finishWrite_refused .dataOpt
    (w.kept (writeOps file.iNo.toNat file.inode.iExtentSize.toNat offset
      data)) file offset data.length
    ⟨i, hi, (outcomeAt_skip w _ i).trans hout⟩
  rw [skip_skip, outcomeAt_skip] at hrun
  exact ⟨_, (exec_vnWrite_closing file hE hlen).trans hrun⟩

/-- Every `vn_write` returns. -/
theorem exec_vnWrite_returns :
    ∃ r file' w', (vnWrite file data offset).exec w
      = .ok ((r, file'), w') := by
  obtain hok | hno := outcomes_cases w
    (closingCalls file (u64 (offset + data.length)))
    (extentTurns file.inode.iExtentSize.toNat offset data.length)
  · obtain ⟨k, hrun⟩ := exec_vnWrite_acked file hE hlen hok
    exact ⟨_, _, _, hrun⟩
  · obtain ⟨k, hrun⟩ := exec_vnWrite_refused file hE hlen hno
    exact ⟨_, _, _, hrun⟩

end Write

end ViveNas
