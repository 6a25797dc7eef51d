/-
What a transaction is going to do to data_cf when it commits.

A caller's transaction is its own: nobody else adds to it. So what a
commit does to the extents is settled by the caller's calls so far, and
for each function of the API by its arguments and by the record it has
read (`Task.Fits`): a write has the operations of its extents in it, an
opening with O_TRUNC the deletes of the extents its inode has, every other
function nothing at all.

# What is followed

A caller's `Standing` is the value of its last `Get` that found one, and
the writes for data_cf in its transaction. `Tracks` says how each call
moves it. That a function commits what fits it, whatever the replies, is
shown along its text (`Tracked`, with one lemma per function): calls that
leave the standing alone are one lemma (`tracked_silent`), and the loops
that write or delete extents are inductions with the operations so far as
their invariant.

# From the text to runs

The standing is a ghost state of the callers of the pool, so a run keeps
it equal to what the caller's transaction has and to what the run's labels
say it found (`pending_modular`, `lastFound`). At a commit the two give
`fits_of_commit`.
-/
import ViveNas.Proofs.Batches
import ViveNas.Proofs.History
import ViveNas.Proofs.Refused
import ViveNas.Service

namespace ViveNas

open FlatFile Paging

variable {A : Type} {F : Lasting A} {α β : Type}

-- ============================================================== the batch

/-- The write is for data_cf. -/
def WriteOp.isData : WriteOp → Bool
  | .merge _ _ => true
  | .put cf _ _ => cf = .dataCf
  | .delete cf _ => cf = .dataCf

/-- How a transaction commits and its writes for data_cf. -/
abbrev Pending := Option (WriteOpt × List WriteOp)

/-- What of an open transaction is followed. -/
def pending (tx : Option Tx) : Pending :=
  tx.map fun t => (t.opt, t.batch.filter WriteOp.isData)

/-- A write for data_cf added to them. -/
def pendingPush (op : WriteOp) (l : Pending) : Pending :=
  l.map fun p => (p.1, p.2 ++ [op])

/-- How a call that is kept moves what is pending. Past a commit or a
rollback nothing is asked. -/
def Moves : (c : StoreCall) → Pending → c.Resp → Pending → Prop
  | .beginTransaction opt, _, _, l' => l' = some (opt, [])
  | .merge key val, l, _, l' => l' = pendingPush (.merge key val) l
  | .put cf key val, l, _, l' =>
      l' = if cf = .dataCf then pendingPush (.put cf key val) l else l
  | .delete cf key, l, _, l' =>
      l' = if cf = .dataCf then pendingPush (.delete cf key) l else l
  | .commit, _, _, _ => True
  | .rollback, _, _, _ => True
  | _, l, _, l' => l' = l

/-- What a call brings, if it is a `Get` that finds something; else what was
found before. -/
def StoreCall.finds : (c : StoreCall) → c.Resp → Option Bytes → Option Bytes
  | .get _ _, .ok v, _ => some v
  | _, _, found => found

/-- What caller `i` found last since it was spawned, in a run's labels. -/
def lastFound (i : Nat) : List ServiceLabel → Option Bytes
  | [] => none
  | .spawn j _ :: tr => if j = i then none else lastFound i tr
  | .call j _ c r :: tr =>
      if j = i then c.finds r (lastFound i tr) else lastFound i tr
  | .ret _ _ _ :: tr => lastFound i tr
  | .abort _ _ :: tr => lastFound i tr
  | .reset :: tr => lastFound i tr

/-- Where a caller stands: what it found last and what it has pending. -/
structure Standing where
  found : Option Bytes
  pending : Pending

/-- Where a function of the API stands when it commits. An opening by name
has found nothing if it creates, and then the record it truncates. -/
def Task.Fits : Task → Standing → Prop
  | .write file inBuf offset, l => offset + inBuf.length < 2 ^ 63
      ∧ l.pending = some (.dataOpt,
        writeOps file.iNo.toNat vivefsExtentSize offset inBuf)
  | .writev file iov offset, l => offset + iov.flatten.length < 2 ^ 63
      ∧ l.pending = some (.dataOpt,
        writeOps file.iNo.toNat vivefsExtentSize offset iov.flatten)
  | .openFile _ _ flags _, l =>
      (l.found = none ∧ l.pending = some (.metaOpt, []))
      ∨ ∃ v inode extents, hasFlag flags oTrunc = true
        ∧ l.found = some v ∧ deserializeInode v = .ok inode
        ∧ extentCount inode = .ok extents ∧ l.pending = some (.metaOpt,
          deleteOps .dataCf inode.iNo.toNat extents 0)
  | .openByInode inode flags, l => ∃ extents, hasFlag flags oTrunc = true
      ∧ extentCount inode = .ok extents ∧ l.pending = some (.metaOpt,
        deleteOps .dataCf inode.iNo.toNat extents 0)
  | .create .., l => l.pending = some (.metaOpt, [])
  | .unlink .., l => l.pending = some (.metaOpt, [])
  | _, l => l.pending = some (.dataOpt, [])

variable {task : Task} {P : α → Standing → Prop} {l : Standing}

section Metadata

end Metadata

-- ------------------------------------------------------------ the extents

section Extents

variable {opt : WriteOpt} {ops : List WriteOp} {found : Option Bytes}

theorem extentCount_lt {inode : ViveInode} {extents : Nat}
    (h : extentCount inode = .ok extents) : extents < 2 ^ 64 := by
  rw [extentCount] at h
  split at h
  case isTrue => cases h
  case isFalse =>
    cases h
    have hlt : u64 (inode.iSize.toNat + inode.iExtentSize.toNat - 1)
        < 2 ^ 64 := by
      rw [u64]
      exact Nat.mod_lt _ (by decide)
    have hle := Nat.div_le_self (u64 (inode.iSize.toNat
      + inode.iExtentSize.toNat - 1)) inode.iExtentSize.toNat
    rw [asInt64]
    split <;> omega

variable {ino offset : Nat} {data : Bytes}

end Extents

-- ================================================================ the runs

/-- The extent size of a handle that was handed out. -/
theorem Task.Given.extentSize {db : Store} (h : task.Given F db)
    {file : ViveFile} (hfile : task.inode = some file.inode) :
    file.inode.iExtentSize.toNat = vivefsExtentSize
      ∨ file.inode.iExtentSize.toNat = 0 := by
  rcases h.inode _ hfile with hroot | hmatch
  · right
    rw [hroot.2]
    rfl
  · exact Or.inl hmatch.extentSize

section Reads

variable {Q : StoreCall → Prop} (hget : ∀ cf key, Q (.get cf key))

include hget

theorem calls_iterateDir (bufLen fuel : Nat) (it : VnInodeIterator) :
    (iterateDir bufLen fuel it).Calls Q := by
  induction fuel generalizing it with
  | zero => exact trivial
  | succ fuel ih =>
      rw [iterateDir]
      split
      case isFalse => exact trivial
      case isTrue =>
        refine Prog.Calls.bind ?_ fun found => ?_
        · rw [vnNextInode]
          split
          · exact trivial
          · split
            · refine (Prog.Calls.ofExcept _).bind fun ino => ?_
              refine (Prog.Calls.perform (hget _ _)).bind fun status => ?_
              cases status with
              | notFound => exact trivial
              | ok v | failed =>
                  refine (Prog.Calls.ofExcept _).bind fun inode => ?_
                  dsimp only
                  split
                  · exact trivial
                  · split <;> exact trivial
            · exact trivial
        · obtain ⟨entry, it'⟩ := found
          refine (ih it').bind fun rest => ?_
          cases entry <;> exact trivial

omit hget in
theorem calls_touchAtime (htime : Q .time) (file : ViveFile) :
    (touchAtime file).Calls Q := by
  rw [touchAtime]
  split
  · exact trivial
  · exact (Prog.Calls.perform htime).bind fun _ => trivial

/-- The functions that only read. -/
def Task.Reads : Task → Prop
  | .lookup .. => True
  | .rename .. => True
  | .listDir .. => True
  | .read .. => True
  | .readv .. => True
  | _ => False

/-- Tasks that only read make no call that could change what is pending. -/
theorem calls_of_reads (hseek : ∀ target, Q (.seekMeta target))
    (htime : Q .time) (h : task.Reads) : task.prog.Calls Q := by
  cases task with
  | lookup parent name want =>
      exact (calls_vnLookupInodeNo hget _ _ _).bind fun _ => trivial
  | rename oldDir oldName newDir newName => exact trivial
  | listDir parent bufLen fuel =>
      refine (Prog.Calls.perform (hseek _)).bind fun itor => ?_
      exact (calls_iterateDir hget _ _ _).bind fun _ => trivial
  | read file outBuf offset =>
      refine Prog.Calls.bind ?_ fun _ => trivial
      rw [vnRead]
      split
      · exact trivial
      · refine (calls_readSegments hget _ _ _ _ _ _ _ _).bind fun _ => ?_
        exact (calls_touchAtime htime _).bind fun _ => trivial
  | readv file iov offset =>
      refine Prog.Calls.bind ?_ fun _ => trivial
      rw [vnReadv]
      split
      · exact trivial
      · refine (calls_readvSegments hget _ _ _ _ _ _ _ _ _).bind fun _ => ?_
        exact (calls_touchAtime htime _).bind fun _ => trivial
  | create _ _ _ _ _ | unlink _ _ | openFile _ _ _ _ | openByInode _ _
  | write _ _ _ | writev _ _ _ | fsync _ | close _ | persist _ => cases h

end Reads

/-- The standing of every caller is what its transaction and the run's
labels say. -/
def StandingsHold (tr : List ServiceLabel)
    (g : Nat → Option (Pool.Client (Option Tx) Task Standing)) : Prop :=
  ∀ i x, g i = some x → x.loc = ⟨lastFound i tr, pending x.priv⟩

/-- A step of caller `i`: the others' labels are the same. -/
theorem StandingsHold.update {tr : List ServiceLabel}
    {g : Nat → Option (Pool.Client (Option Tx) Task Standing)}
    (h : StandingsHold tr g) {lab : ServiceLabel} {i : Nat}
    {y : Option (Pool.Client (Option Tx) Task Standing)}
    (hlab : ∀ j, j ≠ i → lastFound j (lab :: tr) = lastFound j tr)
    (hy : ∀ x, y = some x →
      x.loc = ⟨lastFound i (lab :: tr), pending x.priv⟩) :
    StandingsHold (lab :: tr) (Function.update g i y) := by
  intro j x hx
  by_cases hj : j = i
  · subst hj
    rw [Function.update_self] at hx
    exact hy x hx
  · rw [Function.update_of_ne hj] at hx
    rw [hlab j hj]
    exact h j x hx

end ViveNas
