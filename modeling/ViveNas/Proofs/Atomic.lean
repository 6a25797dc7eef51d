/-
All or nothing: what a call that fails leaves behind, and what one that
is acknowledged has committed.

# Acknowledged writes

`vn_write` only logs a failed `Merge` or `Put` of a segment, and commits.
The batch it commits is the segments whose calls succeeded, so a write
that returns its length is complete exactly when all of them did
(`ackComplete_iff`).
-/
import ViveNas.Proofs.Keys
import ViveNas.Proofs.Outcomes

namespace ViveNas

open Overlay Paging FlatFile

-- ============================================================== commits

/-- The batch a call commits, if it is a commit that succeeds. -/
def committedBatch (c : StoreCall) (w : World) : List (List WriteOp) :=
  match c with
  | .commit => if w.outcome then [w.batch] else []
  | _ => []

/-- The batches a function commits when it is run. -/
def Fs.commits {α : Type} (p : Fs α) (w : World) : List (List WriteOp) :=
  Prog.observe World.handle committedBatch p w

/-- The call is not a commit. -/
def StoreCall.NotCommit (c : StoreCall) : Prop := c ≠ .commit

variable {w : World} {α β : Type}

theorem commits_bind_ok {x : Fs α} {f : α → Fs β} {w' : World} {a : α}
    (hx : x.exec w = .ok (a, w')) :
    (x >>= f).commits w = x.commits w ++ (f a).commits w' :=
  Prog.observe_bind_ok hx

theorem commits_of_notCommit {p : Fs α}
    (hp : Prog.Calls StoreCall.NotCommit p) (w : World) :
    p.commits w = [] := by
  refine hp.observe_eq_nil ?_ w
  intro c w hc
  cases c with
  | commit => exact absurd rfl hc
  | _ => rfl

/-- A first part that commits nothing, stepped over. -/
theorem commits_bind_quiet {x : Fs α} {f : α → Fs β} {w' : World} {a : α}
    (hx : x.exec w = .ok (a, w'))
    (hcalls : Prog.Calls StoreCall.NotCommit x) :
    (x >>= f).commits w = (f a).commits w' := by
  rw [commits_bind_ok hx, commits_of_notCommit hcalls, List.nil_append]

theorem commits_commit (hout : w.outcomeAt 0 = true) (opt : WriteOpt)
    (b : List WriteOp) : Fs.commit.commits (w.within opt b) = [b] := by
  have hnow : (w.within opt b).outcome = true := by
    rw [← outcomeAt_zero]
    exact hout
  rw [Fs.commits, Fs.commit, Prog.perform, Prog.observe, committedBatch,
    if_pos hnow]
  split <;> rfl

section Loop

variable {ino E offset : Nat} {data : Bytes}

theorem calls_writeSegment {Q : StoreCall → Prop}
    (hmerge : ∀ key val, Q (.merge key val))
    (hput : ∀ key val, Q (.put .dataCf key val)) (ino E i off : Nat)
    (data : Bytes) : Prog.Calls Q (writeSegment ino E i off data) := by
  rw [writeSegment]
  split
  · exact (Prog.Calls.perform (hmerge _ _)).bind fun _ => trivial
  · exact (Prog.Calls.perform (hput _ _)).bind fun _ => trivial

/-- The loop of `vn_write` makes `Merge` and `Put` calls for data_cf
only. -/
theorem calls_writeSegments {Q : StoreCall → Prop}
    (hmerge : ∀ key val, Q (.merge key val))
    (hput : ∀ key val, Q (.put .dataCf key val)) (turns i b : Nat) :
    Prog.Calls Q (writeSegments ino E offset data turns i b) := by
  induction turns generalizing i b with
  | zero => exact trivial
  | succ turns ih =>
      rw [writeSegments]
      refine (Prog.Calls.ofExcept _).bind fun piece => ?_
      exact (calls_writeSegment hmerge hput _ _ _ _ _).bind fun _ => ih _ _

/-- The end of a write whose closing calls succeed commits once. -/
theorem commits_finishWrite (opt : WriteOpt) (b : List WriteOp)
    (file : ViveFile) (offset len : Nat)
    (hok : ∀ i < closingCalls file (u64 (offset + len)),
      w.outcomeAt i = true) :
    (finishWrite file offset len).commits (w.within opt b)
      = [b ++ growOps file w.clock (u64 (offset + len))] := by
  rw [finishWrite, commits_bind_quiet exec_time
    (Prog.Calls.perform StoreCall.noConfusion), growOps]
  dsimp only
  by_cases hgrow : file.inode.iSize.toNat < u64 (offset + len)
  · rw [closingCalls, if_pos hgrow] at hok
    have hcommit : (w.skip 1).outcomeAt 0 = true := by
      rw [outcomeAt_skip]
      exact hok 1 (by omega)
    rw [if_pos hgrow, if_pos hgrow, commits_bind_quiet
      (exec_tryPersist opt b _) (Prog.Calls.perform StoreCall.noConfusion),
      hok 0 (by omega)]
    refine (commits_bind_ok (exec_commit_ok hcommit opt _)).trans ?_
    rw [commits_commit hcommit, wroteFile, if_pos hgrow, ofNat_u64]
    rfl
  · rw [closingCalls, if_neg hgrow] at hok
    rw [if_neg hgrow, if_neg hgrow,
      commits_bind_ok (exec_commit_ok (hok 0 (by omega)) opt b),
      commits_commit (hok 0 (by omega)), List.append_nil]
    rfl

end Loop

-- ==================================================== acknowledged writes

/-- Extent `j` holds a byte of the range. -/
def Touches (E offset len j : Nat) : Prop :=
  ∃ x, offset ≤ x ∧ x < offset + len ∧ x / E = j

/-- If the write `p` of `data` returns the length, it has committed one
transaction, and the segment of every extent touched is in it; otherwise
the store is as it was. -/
def AckComplete (p : Fs (Int × ViveFile)) (w : World) (file : ViveFile)
    (data : Bytes) (offset : Nat) : Prop :=
  ∀ r file' w', p.exec w = .ok ((r, file'), w') →
    (r = data.length → ∃ batch, p.commits w = [batch]
      ∧ ∀ j, Touches file.inode.iExtentSize.toNat offset data.length j →
        segmentOp file.iNo.toNat file.inode.iExtentSize.toNat offset data j
          ∈ batch)
    ∧ (r ≠ data.length → w'.db = w.db)

/-- The number of `Merge` and `Put` calls a write makes for its
segments. -/
def segmentCalls (E offset len : Nat) : Nat :=
  (offset + len + E - 1) / E - offset / E

/-- A call that closes the write fails, or none of those for the segments
does. -/
def AckSound (w : World) (file : ViveFile) (len offset : Nat) : Prop :=
  (∃ i < closingCalls file (offset + len), w.outcomeAt
    (segmentCalls file.inode.iExtentSize.toNat offset len + i) = false)
  ∨ ∀ j, Touches file.inode.iExtentSize.toNat offset len j →
      w.outcomeAt (j - offset / file.inode.iExtentSize.toNat) = true

section Ack

variable {ino E offset : Nat} {data : Bytes}

theorem segmentOp_key (ino E offset : Nat) (data : Bytes) (j : Nat) :
    ∃ val, segmentOp ino E offset data j
        = .merge (vnExtentKey j ino) val
      ∨ segmentOp ino E offset data j
        = .put .dataCf (vnExtentKey j ino) val := by
  rw [segmentOp]
  split
  · exact ⟨_, Or.inl rfl⟩
  · exact ⟨_, Or.inr rfl⟩

/-- Operations for different extents differ. -/
theorem segmentOp_inj {i j : Nat} (hi : i < 2 ^ 64) (hj : j < 2 ^ 64)
    (hino : ino < 2 ^ 64)
    (h : segmentOp ino E offset data i = segmentOp ino E offset data j) :
    i = j := by
  obtain ⟨u, hu⟩ := segmentOp_key ino E offset data i
  obtain ⟨v, hv⟩ := segmentOp_key ino E offset data j
  have hkey : vnExtentKey i ino = vnExtentKey j ino := by
    rcases hu with hu | hu <;> rcases hv with hv | hv <;> rw [hu, hv] at h
    · exact (WriteOp.merge.inj h).1
    · cases h
    · cases h
    · exact (WriteOp.put.inj h).2.1
  exact (vnExtentKey_inj hi hj hino hino hkey).1

theorem segmentOp_notMem_growOps (file : ViveFile) (now : UInt64)
    (endOff j : Nat) :
    segmentOp ino E offset data j ∉ growOps file now endOff := by
  intro hmem
  rw [growOps] at hmem
  split at hmem
  · rw [List.mem_singleton] at hmem
    obtain ⟨v, hv | hv⟩ := segmentOp_key ino E offset data j
    · rw [hv] at hmem
      cases hmem
    · rw [hv] at hmem
      cases hmem
  · cases hmem

/-- Where the touched extents lie. -/
theorem Touches.range {len j : Nat} (hE : 0 < E)
    (hj : Touches E offset len j) :
    offset / E ≤ j ∧ j < (offset + len + E - 1) / E
      ∧ j < offset + len := by
  obtain ⟨x, hlo, hhi, rfl⟩ := hj
  refine ⟨Nat.div_le_div_right hlo, ?_, ?_⟩
  · rw [Nat.lt_iff_add_one_le, Nat.le_div_iff_mul_le hE, Nat.succ_mul]
    have := Nat.div_mul_le_self x E
    omega
  · exact Nat.lt_of_le_of_lt (Nat.div_le_self x E) hhi

/-- A touched extent's segment is in the batch when its call succeeds. -/
theorem segmentOp_mem_kept {j : Nat} (hE : 0 < E) (hE' : E ≤ 2 ^ 32)
    (hino : ino < 2 ^ 64) (hend : offset + data.length < 2 ^ 63)
    (hj : Touches E offset data.length j) :
    segmentOp ino E offset data j ∈ w.kept (writeOps ino E offset data)
      ↔ w.outcomeAt (j - offset / E) = true := by
  obtain ⟨hstart, hstop, hbound⟩ := hj.range hE
  have hturns := startExt_add_turns hE hE' hend
  rw [startExt] at hturns
  rw [mem_kept]
  constructor
  · rintro ⟨i, hi, hout⟩
    rw [writeOps, List.getElem?_map, Option.map_eq_some_iff] at hi
    obtain ⟨k, hk, hop⟩ := hi
    obtain ⟨hlt, hget⟩ := List.getElem?_eq_some_iff.mp hk
    rw [List.length_range'] at hlt
    rw [List.getElem_range', startExt, Nat.one_mul] at hget
    have hle := roundUp_le hE (offset + data.length)
    have hsame := segmentOp_inj (by omega) (by omega) hino hop
    rwa [show j - offset / E = i by omega]
  · intro hout
    refine ⟨j - offset / E, ?_, hout⟩
    rw [writeOps, List.getElem?_map, List.getElem?_range' (by omega),
      startExt, Nat.one_mul, Nat.add_sub_cancel' hstart]
    rfl

section Write

variable (w : World) (file : ViveFile)
  (hE : 0 < file.inode.iExtentSize.toNat)
  (hend : offset + data.length < 2 ^ 63)
include hE hend

/-- The loop makes one call per extent. -/
theorem extentTurns_eq :
    extentTurns file.inode.iExtentSize.toNat offset data.length
      = segmentCalls file.inode.iExtentSize.toNat offset data.length := by
  have hturns := startExt_add_turns hE
    (Nat.le_of_lt file.inode.iExtentSize.toNat_lt) hend
  rw [startExt] at hturns
  rw [segmentCalls, ← hturns, Nat.add_sub_cancel_left]

/-- What an acknowledged `vn_write` commits. -/
theorem commits_vnWrite
    (hok : ∀ i < closingCalls file (offset + data.length), w.outcomeAt
      (segmentCalls file.inode.iExtentSize.toNat offset data.length + i)
        = true) :
    (vnWrite file data offset).commits w
      = [w.kept (writeOps file.iNo.toNat file.inode.iExtentSize.toNat offset
          data) ++ growOps file w.clock (offset + data.length)] := by
  have hE' : file.inode.iExtentSize.toNat ≤ 2 ^ 32 :=
    Nat.le_of_lt file.inode.iExtentSize.toNat_lt
  have hloop := exec_tryWriteSegments (w := w) .dataOpt file.iNo.toNat hE hE'
    (show data.length < 2 ^ 64 by omega)
    (extentTurns file.inode.iExtentSize.toNat offset data.length)
    (Nat.le_refl (offset / file.inode.iExtentSize.toNat)) []
  rw [cut_first] at hloop
  have hend64 : u64 (offset + data.length) = offset + data.length :=
    u64_of_lt (by omega)
  rw [vnWrite, if_neg (by omega), commits_bind_quiet (exec_begin .dataOpt)
    (Prog.Calls.perform StoreCall.noConfusion), startExt,
    commits_bind_quiet hloop (calls_writeSegments
      (fun _ _ => StoreCall.noConfusion) (fun _ _ => StoreCall.noConfusion)
      _ _ _),
    commits_finishWrite .dataOpt _ file offset data.length ?_, hend64]
  · rfl
  · intro i hi
    rw [hend64] at hi
    rw [outcomeAt_skip, extentTurns_eq file hE hend]
    exact hok i hi

/-- An acknowledged `vn_write` is complete exactly when no segment's call
failed. -/
theorem ackComplete_iff :
    AckComplete (vnWrite file data offset) w file data offset
      ↔ AckSound w file data.length offset := by
  have hE' : file.inode.iExtentSize.toNat ≤ 2 ^ 32 :=
    Nat.le_of_lt file.inode.iExtentSize.toNat_lt
  have hend64 : u64 (offset + data.length) = offset + data.length :=
    u64_of_lt (by omega)
  have hturns := extentTurns_eq file hE hend
  obtain hok | hno := outcomes_cases w
    (closingCalls file (offset + data.length))
    (segmentCalls file.inode.iExtentSize.toNat offset data.length)
  · obtain ⟨k, hrun⟩ := exec_vnWrite_acked file hE
      (show data.length < 2 ^ 64 by omega) (by rwa [hend64, hturns])
    have hcommits := commits_vnWrite w file hE hend hok
    constructor
    · intro hcomplete
      obtain ⟨batch, hbatch, hall⟩ := (hcomplete _ _ _ hrun).1 rfl
      rw [hcommits, List.singleton_inj] at hbatch
      subst hbatch
      refine Or.inr fun j hj => ?_
      have hmem := hall j hj
      rw [List.mem_append, or_iff_left (segmentOp_notMem_growOps _ _ _ _),
        segmentOp_mem_kept hE hE' file.iNo.toNat_lt hend hj] at hmem
      exact hmem
    · rintro (⟨i, hi, hout⟩ | hall)
      · rw [hok i hi] at hout
        cases hout
      · intro r file' w' hexec
        rw [hrun] at hexec
        cases hexec
        refine ⟨fun _ => ⟨_, hcommits, fun j hj => ?_⟩,
          fun hne => absurd rfl hne⟩
        refine List.mem_append_left _ ?_
        rw [segmentOp_mem_kept hE hE' file.iNo.toNat_lt hend hj]
        exact hall j hj
  · -- the write returns -EIO, and nothing was committed
    obtain ⟨k, hrun⟩ := exec_vnWrite_refused file hE
      (show data.length < 2 ^ 64 by omega) (by rwa [hend64, hturns])
    refine iff_of_true ?_ (Or.inl hno)
    intro r file' w' hexec
    rw [hrun] at hexec
    cases hexec
    refine ⟨fun hlen => ?_, fun _ => rfl⟩
    rw [eio] at hlen
    omega

end Write

end Ack

/-- `vn_write` returns, and an acknowledged `vn_write` or `vn_writev` is
complete, and a refused one leaves the store alone, exactly when a closing
call failed or no segment's call did. -/
theorem acknowledged_write_complete_iff (w : World) (file : ViveFile)
    (data : Bytes) (offset : Nat)
    (hE : 0 < file.inode.iExtentSize.toNat)
    (hend : offset + data.length < 2 ^ 63) :
    (∃ r file' w', (vnWrite file data offset).exec w
        = .ok ((r, file'), w'))
      ∧ (AckComplete (vnWrite file data offset) w file data offset
        ↔ AckSound w file data.length offset)
      ∧ ∀ iov : List Bytes, iov.flatten = data →
        (AckComplete (vnWritev file iov offset) w file data offset
          ↔ AckSound w file data.length offset) := by
  refine ⟨exec_vnWrite_returns file hE (by omega),
    ackComplete_iff w file hE hend, ?_⟩
  rintro iov rfl
  by_cases hpos : 0 < iov.flatten.length
  · rw [vnWritev_eq file hpos (by omega)]
    exact ackComplete_iff w file hE hend
  · -- nothing is touched, and the empty write returns as `vn_write` or dies
    have hsound : AckSound w file iov.flatten.length offset := by
      refine Or.inr fun j hj => ?_
      obtain ⟨x, hlo, hhi, -⟩ := hj
      omega
    refine iff_of_true ?_ hsound
    by_cases hdies : iov.flatten = []
        ∧ extentTurns file.inode.iExtentSize.toNat offset 0 ≠ 0
    · intro r file' w' hexec
      rw [vnWritev_dies hdies.1 hdies.2] at hexec
      cases hexec
    · rw [vnWritev_eq_of_alive file (by omega) hdies]
      exact (ackComplete_iff w file hE hend).mpr hsound

/-- An empty file and its handle, in a world whose calls go as `script`
says. -/
def emptyWorld (script : List Bool) : World where
  db := Store.empty
  durable := Store.empty
  tx := none
  inodeSeed := 13
  clock := 0
  script := script

def emptyFile : ViveFile := newFile (newInode 12 0 0 0 0) 0

theorem emptyFile_extentSize : emptyFile.inode.iExtentSize.toNat = 65536 :=
  newInode_iExtentSize 12 0 0 0 0

/-- With no call failing, a one-byte write is complete. -/
theorem acknowledged_write_complete_calm :
    AckComplete (vnWrite emptyFile [7] 0) (emptyWorld []) emptyFile [7] 0 :=
  (acknowledged_write_complete_iff (emptyWorld []) emptyFile [7] 0
    (by rw [emptyFile_extentSize]; decide) (by decide)).2.1.mpr
    (Or.inr fun _ _ => rfl)

/-- The one segment's `Merge` fails, the record's `Put` and the commit do
not: the write returns 1 and the byte is nowhere. -/
theorem acknowledged_write_incomplete :
    ¬ AckComplete (vnWrite emptyFile [7] 0) (emptyWorld [false, true, true])
      emptyFile [7] 0 := by
  rw [ackComplete_iff _ _ (by rw [emptyFile_extentSize]; decide) (by decide),
    AckSound, emptyFile_extentSize]
  rintro (⟨i, hi, hout⟩ | hall)
  · have hcalls : closingCalls emptyFile (0 + ([7] : Bytes).length) = 2 := by
      decide
    rw [hcalls] at hi
    rcases i with _ | _ | i
    · exact absurd hout (by decide)
    · exact absurd hout (by decide)
    · omega
  · exact absurd (hall 0 ⟨0, by decide, by decide, by decide⟩) (by decide)

end ViveNas
