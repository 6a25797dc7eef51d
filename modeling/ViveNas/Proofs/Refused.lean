/-
Creating, unlinking and opening whatever the outcomes of their calls.

Each function has one way through and a number of exits. The exits roll
the transaction back, so an error or NULL leaves the committed store as
it was before the function's own transaction (`exec_create_refused`,
`unlink_refused`, `openByInode_null`); a truncating open has by then
emptied the inode its caller holds (`exec_openByInode_refused`).

# From outcomes to states

A call that is not a commit leaves the committed store (`handle_db`,
`db_of_notCommit`), so an exit is settled once the calls before it are
known not to commit. `World.creates` collects the outcomes on which a
create's one way through depends, `truncClosing` is the part of a
truncating open in which its exits lie.
-/
import ViveNas.Proofs.Atomic

namespace ViveNas

open LittleEndian

variable {w : World} {parent : Int} {name : FileName}

-- ============================================================= creating

/-- The calls of a create that decide: the name is not found locked, and
the three `Put`s and the commit succeed. -/
def World.creates (w : World) (parent : Int) (name : FileName) : Prop :=
  (∀ v, w.readMeta (fileKey parent name) ≠ .ok v)
    ∧ ∀ i < 4, w.outcomeAt (1 + i) = true

section Create

variable (hseed : w.inodeSeed + 1 < 2 ^ 63) (mode uid gid : UInt16)
include hseed

/-- A create all of whose calls succeed. -/
theorem exec_create_done (hdone : w.creates parent name) :
    (vnCreateFile parent name mode uid gid).exec w
      = .ok ((w.inodeSeed, some (newInode w.inodeSeed mode uid gid w.clock)),
          (w.drawn.skip 5).committed .metaOpt (createOps parent name
            w.inodeSeed (newInode w.inodeSeed mode uid gid w.clock))) := by
  obtain ⟨hfree, hok⟩ := hdone
  have hput := exec_tryPut (w := w.drawn.skip 1) .metaOpt [] .metaCf
    (fileKey parent name) (leBytes 8 w.inodeSeed)
  have hpersist := exec_tryPersist (w := w.drawn.skip 2) .metaOpt
    [.put .metaCf (fileKey parent name) (leBytes 8 w.inodeSeed)]
    (newInode w.inodeSeed mode uid gid w.clock)
  have hsd := exec_tryPutSeed (w := w.drawn.skip 3) .metaOpt
    [.put .metaCf (fileKey parent name) (leBytes 8 w.inodeSeed),
      .put .metaCf (inodeKey w.inodeSeed)
        (newInode w.inodeSeed mode uid gid w.clock).toBytes]
  have hcommit := exec_commit_ok (w := w.drawn.skip 4)
    (by rw [outcomeAt_skip]; exact hok 3 (by omega)) .metaOpt
    (createOps parent name w.inodeSeed
      (newInode w.inodeSeed mode uid gid w.clock))
  rw [outcomeAt_skip, skip_skip, show w.drawn.outcomeAt (1 + 0) = true from
    hok 0 (by omega)] at hput
  rw [outcomeAt_skip, skip_skip, show w.drawn.outcomeAt (2 + 0) = true from
    hok 1 (by omega), newInode_iNo (by omega)] at hpersist
  rw [outcomeAt_skip, skip_skip, show w.drawn.outcomeAt (3 + 0) = true from
    hok 2 (by omega)] at hsd
  rw [skip_skip] at hcommit
  rw [vnCreateFile, exec_bind_ok (exec_generateInodeNo hseed),
    exec_bind_ok exec_time, exec_bind_ok (exec_begin .metaOpt),
    exec_bind_ok (exec_lockMeta (w := w.drawn) .metaOpt _)]
  cases hread : w.drawn.readMeta (fileKey parent name) with
  | ok v => exact absurd hread (hfree v)
  | notFound | failed =>
      refine (exec_bind_ok hput).trans ?_
      refine (exec_bind_ok hpersist).trans ?_
      refine (exec_bind_ok hsd).trans ?_
      refine (exec_bind_ok hcommit).trans ?_
      rw [asInt64_of_lt (by omega)]
      rfl

omit hseed in
/-- An error exit of a create. -/
theorem exec_createFailed (v : World) (opt : WriteOpt) (b : List WriteOp)
    (code : Int) :
    (createFailed code).exec (v.within opt b)
      = .ok ((-code, none), v.idle) := by
  rw [createFailed, exec_bind_ok exec_rollback]
  rfl

/-- A create that returned an error and was rolled back. -/
def Refused (v : World)
    (x : Except Fault ((Int × Option ViveInode) × World)) : Prop :=
  ∃ code k, 0 < code ∧ x = .ok ((-code, none), (v.skip k).idle)

omit hseed in
/-- A write call of a create: its failure is the exit, its success the
rest. -/
theorem Refused.of_call {v : World} {opt : WriteOpt} {b b' : List WriteOp}
    {x : Fs Status} {rest : Fs (Int × Option ViveInode)} {j : Nat}
    (hx : x.exec ((v.skip j).within opt b) = .ok (Status.of
      ((v.skip j).outcomeAt 0), ((v.skip j).skip 1).within opt b'))
    (hrest : v.outcomeAt j = true →
      Refused v (rest.exec ((v.skip (j + 1)).within opt b'))) :
    Refused v ((x >>= fun s => match s with
      | .failed => createFailed eio
      | .ok => rest).exec ((v.skip j).within opt b)) := by
  rw [outcomeAt_skip, skip_skip, Nat.add_zero] at hx
  rw [exec_bind_ok hx]
  cases hout : v.outcomeAt j with
  | false =>
      exact ⟨eio, j + 1, by decide, exec_createFailed _ opt b' eio⟩
  | true => exact hrest hout

/-- Any other create returns an error, and its transaction is rolled
back. -/
theorem exec_create_refused (hno : ¬ w.creates parent name) :
    Refused w.drawn ((vnCreateFile parent name mode uid gid).exec w) := by
  rw [vnCreateFile, exec_bind_ok (exec_generateInodeNo hseed),
    exec_bind_ok exec_time, exec_bind_ok (exec_begin .metaOpt),
    exec_bind_ok (exec_lockMeta (w := w.drawn) .metaOpt _)]
  cases hread : w.drawn.readMeta (fileKey parent name) with
  | ok v =>
      exact ⟨eexist, 1, by decide, exec_createFailed _ .metaOpt [] eexist⟩
  | notFound | failed =>
      refine Refused.of_call (exec_tryPut .metaOpt [] .metaCf _ _)
        fun hput => ?_
      refine Refused.of_call (exec_tryPersist .metaOpt _ _)
        fun hpersist => ?_
      refine Refused.of_call (exec_tryPutSeed .metaOpt _) fun hsd => ?_
      cases hout : w.drawn.outcomeAt 4 with
      | false =>
          refine ⟨eio, 5, by decide, ?_⟩
          refine (exec_bind_ok (exec_commit_failed (w := w.drawn.skip 4)
            (by rwa [outcomeAt_skip]) .metaOpt _)).trans ?_
          rw [skip_skip]
          exact exec_createFailed _ .metaOpt _ eio
      | true =>
          refine absurd ⟨fun v hv => ?_, fun i hi => ?_⟩ hno
          · cases hread.symm.trans hv
          · rcases i with _ | _ | _ | _ | i
            · exact hput
            · exact hpersist
            · exact hsd
            · exact hout
            · omega

end Create

-- ============================================================ unlinking

/-- A read uses up its outcome and changes nothing else. -/
theorem replyGet_world {s : Store} {cf : Cf} {key : Bytes} {r : GetStatus}
    {w' : World} (hx : w.replyGet s cf key = .ok (r, w')) :
    w' = w.advance := by
  rw [World.replyGet] at hx
  split at hx
  · cases hget : s.get cf key with
    | error e =>
        rw [hget] at hx
        cases hx
    | ok v =>
        rw [hget] at hx
        cases v <;> exact (Prod.mk.inj (Except.ok.inj hx)).2.symm
  · exact (Prod.mk.inj (Except.ok.inj hx)).2.symm

/-- A write call that fails does so too. -/
theorem replyWrite_world {f : World → World} {r : Status} {w' : World}
    (hx : w.replyWrite f = .ok (r, w')) :
    w' = f w.advance ∨ w' = w.advance := by
  rw [World.replyWrite] at hx
  split at hx
  · exact Or.inl (Prod.mk.inj (Except.ok.inj hx)).2.symm
  · exact Or.inr (Prod.mk.inj (Except.ok.inj hx)).2.symm

/-- Only a commit changes the committed store. -/
theorem handle_db {c : StoreCall} (hc : c.NotCommit) {r : c.Resp}
    {w' : World} (hx : w.handle c = .ok (r, w')) : w'.db = w.db := by
  cases c with
  | commit => exact absurd rfl hc
  | get cf key | getForUpdate cf key =>
      rw [replyGet_world hx]
      rfl
  | put cf k v | putSeed | merge k v | delete cf k | flushWAL =>
      rw [World.handle] at hx
      obtain rfl | rfl := replyWrite_world hx <;> rfl
  | beginTransaction opt | rollback | seekMeta t | time =>
      cases hx
      rfl
  | generateInodeNo =>
      rw [World.handle] at hx
      split at hx
      · cases hx
        rfl
      · cases hx

/-- Without a commit the committed store stays as it is. -/
theorem db_of_notCommit {α : Type} {p : Fs α}
    (hp : Prog.Calls StoreCall.NotCommit p) {a : α} {w' : World}
    (hx : p.exec w = .ok (a, w')) : w'.db = w.db := by
  refine hp.run_invariant (I := fun v => v.db = w.db) ?_ rfl hx
  intro c v r v' hc hv hstep
  rw [handle_db hc hstep, hv]


/-- A lookup makes reads only. -/
theorem calls_vnLookupInodeNo {Q : StoreCall → Prop}
    (hget : ∀ cf key, Q (.get cf key)) (parent : Int) (name : FileName)
    (want : Bool) : Prog.Calls Q (vnLookupInodeNo parent name want) := by
  rw [vnLookupInodeNo]
  refine (Prog.Calls.perform (hget _ _)).bind fun status => ?_
  cases status with
  | notFound => exact trivial
  | ok v | failed =>
      cases want with
      | false => exact (Prog.Calls.ofExcept _).bind fun _ => trivial
      | true =>
          refine (Prog.Calls.perform (hget _ _)).bind fun status => ?_
          cases status with
          | notFound => exact trivial
          | ok v | failed =>
              exact (Prog.Calls.ofExcept _).bind fun _ =>
                (Prog.Calls.ofExcept _).bind fun _ => trivial

/-- The commit of an unlink goes through and returns 0, or changes
nothing and returns an error. -/
theorem unlinkCommit_ends {opt : WriteOpt} {b : List WriteOp} {r : Int}
    {w' : World} (hx : unlinkCommit.exec (w.within opt b) = .ok (r, w')) :
    (r = 0 ∧ w'.db = w.db.applyBatch b) ∨ (r = -eio ∧ w'.db = w.db) := by
  rw [unlinkCommit] at hx
  cases hout : w.outcomeAt 0 with
  | false =>
      rw [exec_bind_ok (exec_commit_failed hout opt b)] at hx
      have hroll := (exec_bind_ok exec_rollback).symm.trans hx
      cases hroll
      exact Or.inr ⟨rfl, rfl⟩
  | true =>
      rw [exec_bind_ok (exec_commit_ok hout opt b)] at hx
      cases hx
      exact Or.inl ⟨rfl, rfl⟩

theorem unlinkCommit_refused {opt : WriteOpt} {b : List WriteOp} {r : Int}
    {w' : World} (hx : unlinkCommit.exec (w.within opt b) = .ok (r, w'))
    (hr : r < 0) : w'.db = w.db := by
  rcases unlinkCommit_ends hx with ⟨hzero, -⟩ | ⟨-, hdb⟩
  · omega
  · exact hdb

/-- An unlink that returns an error has changed nothing. -/
theorem unlink_refused {r : Int} {w' : World}
    (hx : (vnUnlink parent name).exec w = .ok (r, w')) (hr : r < 0) :
    w'.db = w.db := by
  rw [vnUnlink] at hx
  obtain ⟨⟨ino, out⟩, w₁, hlookup, hrest⟩ := exec_bind_inv hx
  have hdb : w₁.db = w.db :=
    db_of_notCommit (calls_vnLookupInodeNo (fun _ _ => StoreCall.noConfusion)
      parent name true) hlookup
  rw [← hdb]
  dsimp only at hrest
  split at hrest
  case isTrue =>
    cases hrest
    rfl
  case isFalse =>
    cases out with
    | none => cases hrest
    | some found =>
        rw [exec_bind_ok (exec_begin .metaOpt)] at hrest
        split at hrest
        case isTrue =>
          obtain ⟨n, w₂, hcount, hdel⟩ := exec_bind_inv hrest
          rw [lift_returns hcount,
            exec_bind_ok (exec_tryDeleteExtents .metaOpt _ _ n 0 []),
            exec_bind_ok (exec_tryDelete .metaOpt _ _ _)] at hdel
          exact unlinkCommit_refused (w := (w₁.skip n).skip 1) hdel hr
        case isFalse =>
          rw [exec_bind_ok (exec_tryPersist .metaOpt [] _)] at hrest
          cases hout : w₁.outcomeAt 0 with
          | false =>
              rw [hout] at hrest
              have hroll := (exec_bind_ok exec_rollback).symm.trans hrest
              cases hroll
              rfl
          | true =>
              rw [hout] at hrest
              exact unlinkCommit_refused (w := w₁.skip 1) hrest hr

-- ============================================================== opening

/-- The end of a truncating open: the record and the commit. -/
def truncClosing (inode : ViveInode) (flags : UInt32) :
    Fs (Option ViveFile × ViveInode) := do
  match ← vnPersistInodeTx inode with
  | .failed =>
    Fs.rollback
    return (none, inode)
  | .ok =>
    match ← Fs.commit with
    | .failed =>
      Fs.rollback
      return (none, inode)
    | .ok => return (some (newFile inode flags), (newFile inode flags).inode)

section OpenByInode

variable {inode : ViveInode} {flags : UInt32}
  (hflag : hasFlag flags oTrunc = true)
include hflag

/-- A truncating open that does not get the record's lock. -/
theorem exec_openByInode_unlocked
    (hread : ∀ v, w.readMeta (inodeKey inode.iNo.toNat) ≠ .ok v) :
    (vnOpenFileByInode inode flags).exec w
      = .ok ((none, inode), (w.skip 1).idle) := by
  rw [vnOpenFileByInode, if_pos hflag, exec_bind_ok (exec_begin .metaOpt),
    exec_bind_ok (exec_lockMeta .metaOpt _)]
  cases hstatus : w.readMeta (inodeKey inode.iNo.toNat) with
  | ok v => exact absurd hstatus (hread v)
  | notFound | failed =>
      refine (exec_bind_ok exec_rollback).trans ?_
      rfl

variable {v : Bytes}
  (hread : w.readMeta (inodeKey inode.iNo.toNat) = .ok v)
include hread

theorem exec_openByInode_uncounted {e : Fault}
    (hcount : extentCount inode = .error e) :
    (vnOpenFileByInode inode flags).exec w = .error e := by
  rw [vnOpenFileByInode, if_pos hflag, exec_bind_ok (exec_begin .metaOpt),
    exec_bind_ok (exec_lockMeta .metaOpt _), hread]
  exact exec_bind_error (exec_lift_error hcount)

variable {n : Nat} (hcount : extentCount inode = .ok n)
include hcount

/-- A truncating open up to its closing calls. -/
theorem exec_openByInode_closing :
    (vnOpenFileByInode inode flags).exec w
      = (truncClosing { inode with iSize := 0 } flags).exec
          ((w.skip (1 + n)).within .metaOpt
            ((w.skip 1).kept (deleteOps .dataCf inode.iNo.toNat n 0))) := by
  rw [vnOpenFileByInode, if_pos hflag, exec_bind_ok (exec_begin .metaOpt),
    exec_bind_ok (exec_lockMeta .metaOpt _), hread]
  refine (exec_bind_ok (exec_lift_ok hcount)).trans ?_
  refine (exec_bind_ok (exec_tryDeleteExtents .metaOpt .dataCf _ n 0
    [])).trans ?_
  rw [skip_skip]
  rfl

/-- A truncating open whose closing calls succeed. -/
theorem exec_openByInode_truncated
    (hok : ∀ i < 2, w.outcomeAt (1 + n + i) = true) :
    (vnOpenFileByInode inode flags).exec w
      = .ok ((some (newFile { inode with iSize := 0 } flags),
            (newFile { inode with iSize := 0 } flags).inode),
          (w.skip (1 + n + 2)).committed .metaOpt
            ((w.skip 1).kept (deleteOps .dataCf inode.iNo.toNat n 0)
              ++ [.put .metaCf (inodeKey inode.iNo.toNat)
                { inode with iSize := 0 }.toBytes])) := by
  have hpersist := exec_tryPersist (w := w.skip (1 + n)) .metaOpt
    ((w.skip 1).kept (deleteOps .dataCf inode.iNo.toNat n 0))
    { inode with iSize := 0 }
  rw [outcomeAt_skip, skip_skip, hok 0 (by omega)] at hpersist
  have hcommit := exec_commit_ok (w := w.skip (1 + n + 1))
    (by rw [outcomeAt_skip]; exact hok 1 (by omega)) .metaOpt
    ((w.skip 1).kept (deleteOps .dataCf inode.iNo.toNat n 0)
      ++ [.put .metaCf (inodeKey inode.iNo.toNat)
        { inode with iSize := 0 }.toBytes])
  rw [skip_skip] at hcommit
  rw [exec_openByInode_closing hflag hread hcount, truncClosing,
    exec_bind_ok hpersist]
  refine (exec_bind_ok hcommit).trans ?_
  rfl

/-- A truncating open one of whose closing calls fails: NULL, and the
caller's inode is empty. -/
theorem exec_openByInode_refused
    (hno : ∃ i < 2, w.outcomeAt (1 + n + i) = false) :
    ∃ k, (vnOpenFileByInode inode flags).exec w
      = .ok ((none, { inode with iSize := 0 }), (w.skip k).idle) := by
  obtain ⟨i, hi, hout⟩ := hno
  have hpersist := exec_tryPersist (w := w.skip (1 + n)) .metaOpt
    ((w.skip 1).kept (deleteOps .dataCf inode.iNo.toNat n 0))
    { inode with iSize := 0 }
  rw [outcomeAt_skip, skip_skip, Nat.add_zero] at hpersist
  rw [exec_openByInode_closing hflag hread hcount, truncClosing,
    exec_bind_ok hpersist]
  cases hput : w.outcomeAt (1 + n) with
  | false =>
      refine ⟨1 + n + 1, ?_⟩
      refine (exec_bind_ok exec_rollback).trans ?_
      rfl
  | true =>
      obtain rfl : i = 1 := by
        rcases i with _ | _ | i
        · rw [Nat.add_zero, hput] at hout
          cases hout
        · rfl
        · omega
      refine ⟨1 + n + 2, ?_⟩
      refine (exec_bind_ok (exec_commit_failed (w := w.skip (1 + n + 1))
        (by rwa [outcomeAt_skip]) .metaOpt _)).trans ?_
      refine (exec_bind_ok exec_rollback).trans ?_
      rw [skip_skip]
      rfl

end OpenByInode

/-- Every end of a truncating open: the commit, or nothing done to the
store. -/
theorem openByInode_trunc_ends {inode : ViveInode} {flags : UInt32}
    (w : World) (hflag : hasFlag flags oTrunc = true) :
    (∃ v n, w.readMeta (inodeKey inode.iNo.toNat) = .ok v
      ∧ extentCount inode = .ok n
      ∧ (∀ i < 2, w.outcomeAt (1 + n + i) = true)
      ∧ (vnOpenFileByInode inode flags).exec w
        = .ok ((some (newFile { inode with iSize := 0 } flags),
            (newFile { inode with iSize := 0 } flags).inode),
          (w.skip (1 + n + 2)).committed .metaOpt
            ((w.skip 1).kept (deleteOps .dataCf inode.iNo.toNat n 0)
              ++ [.put .metaCf (inodeKey inode.iNo.toNat)
                { inode with iSize := 0 }.toBytes])))
    ∨ ((∀ v n, w.readMeta (inodeKey inode.iNo.toNat) = .ok v →
        extentCount inode = .ok n → ∃ i < 2, w.outcomeAt (1 + n + i) = false)
      ∧ ((∃ e, (vnOpenFileByInode inode flags).exec w = .error e)
        ∨ ∃ inode' w', (vnOpenFileByInode inode flags).exec w
            = .ok ((none, inode'), w') ∧ w'.db = w.db)) := by
  cases hread : w.readMeta (inodeKey inode.iNo.toNat) with
  | notFound | failed =>
      have hno : ∀ v, w.readMeta (inodeKey inode.iNo.toNat) ≠ .ok v :=
        fun v hv => by cases hread.symm.trans hv
      exact Or.inr ⟨nofun,
        Or.inr ⟨_, _, exec_openByInode_unlocked hflag hno, rfl⟩⟩
  | ok v =>
      cases hcount : extentCount inode with
      | error e =>
          exact Or.inr ⟨nofun,
            Or.inl ⟨e, exec_openByInode_uncounted hflag hread hcount⟩⟩
      | ok n =>
          obtain hok | hno := outcomes_cases w 2 (1 + n)
          · exact Or.inl ⟨v, n, rfl, rfl, hok,
              exec_openByInode_truncated hflag hread hcount hok⟩
          · obtain ⟨k, hrun⟩ :=
              exec_openByInode_refused hflag hread hcount hno
            refine Or.inr ⟨fun _ m _ hm => ?_, Or.inr ⟨_, _, hrun, rfl⟩⟩
            obtain rfl := Except.ok.inj hm
            exact hno

/-- An open by inode that returns NULL has changed nothing in the store. -/
theorem openByInode_null {inode inode' : ViveInode} {flags : UInt32}
    {w' : World}
    (hx : (vnOpenFileByInode inode flags).exec w
      = .ok ((none, inode'), w')) : w'.db = w.db := by
  cases hflag : hasFlag flags oTrunc with
  | false =>
      rw [exec_openByInode_plain inode hflag] at hx
      cases hx
  | true =>
      rcases openByInode_trunc_ends w hflag with
        ⟨-, n, -, -, -, hrun⟩ | ⟨-, ⟨e, hrun⟩ | ⟨_, _, hrun, hsame⟩⟩
      · cases hrun.symm.trans hx
      · cases hrun.symm.trans hx
      · cases hrun.symm.trans hx
        exact hsame

/-- An open by number whose read delivers a record is an open by inode of
it. -/
theorem exec_openByNumber_read {ino : Nat} {n : ViveInode} (flags : UInt32)
    (hread : w.readMeta (inodeKey ino) = .ok n.toBytes) :
    (openByNumber ino flags).exec w
      = (vnOpenFileByInode { n with refCnt := 1 } flags >>= fun p =>
          pure (dropRef p)).exec (w.skip 1) := by
  rw [openByNumber, exec_bind_ok (exec_readMeta _), hread]
  exact exec_bind_ok (exec_lift_ok (deserializeInode_toBytes n))

/-- So has an open by number. -/
theorem openByNumber_null {ino : Nat} {flags : UInt32} {w' : World}
    (hx : (openByNumber ino flags).exec w = .ok (none, w')) :
    w'.db = w.db := by
  rw [openByNumber, exec_bind_ok (exec_readMeta _)] at hx
  split at hx
  · cases hx
    rfl
  · obtain ⟨inode, w₁, hlift, hrest⟩ := exec_bind_inv hx
    rw [lift_returns hlift] at hrest
    obtain ⟨⟨file, inode'⟩, w₂, hfile, hret⟩ := exec_bind_inv hrest
    cases file with
    | some f => cases hret
    | none =>
        cases hret
        exact openByInode_null (w := w.skip 1) hfile

end ViveNas
