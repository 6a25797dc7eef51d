/-
Where a division by zero can come from.

The functions of vn_file.cpp divide by the extent size of the inode they
are given, and by nothing else. `DivSafe` says of a program that it never
does so with zero, whatever the store replies; the store itself never
does (`noZero_handle`).

# The plan

Computations first: one lemma per function of the model that returns an
`Except`, most of them a check of bounds (`noZero_guard`), and the loops by
induction on their fuel. Then programs, along their text (`Prog.Dies`): a
call that reads or writes through a handle is safe when the handle's extent
size is not zero, and one that opens an inode when the inode's is not.
-/
import ViveNas.Proofs.Exec
import ViveNas.File
import ViveNas.Mount

namespace ViveNas

open ViveDataMergeOperator

-- ============================================================ computations

/-- The computation does not divide by zero. -/
def NoZeroDivisor {α : Type} (x : Except Fault α) : Prop :=
  x ≠ .error .divByZero

section Pure

variable {α β : Type}

/-- A computation that returns has not. -/
theorem noZero_ok (a : α) : NoZeroDivisor (.ok a) := by
  intro h
  cases h

/-- Any other fault. -/
theorem noZero_error {e : Fault} (he : e ≠ .divByZero) :
    NoZeroDivisor (.error e : Except Fault α) :=
  fun h => he (Except.error.inj h)

/-- Its error, as the error of another computation. -/
theorem NoZeroDivisor.of_error {x : Except Fault α} (hx : NoZeroDivisor x)
    {e : Fault} (he : x = .error e) :
    NoZeroDivisor (.error e : Except Fault β) := by
  intro h
  rw [Except.error.inj h] at he
  exact hx he

/-- One after the other. -/
theorem NoZeroDivisor.bind {x : Except Fault α} {f : α → Except Fault β}
    (hx : NoZeroDivisor x) (hf : ∀ a, NoZeroDivisor (f a)) :
    NoZeroDivisor (x >>= f) := by
  cases x with
  | ok a => exact hf a
  | error e => exact hx.of_error rfl

/-- A check that ends in another fault, as of bounds. -/
theorem noZero_guard {c : Prop} [Decidable c] (a : α) {e : Fault}
    (he : e ≠ .divByZero) :
    NoZeroDivisor (if c then .ok a else .error e) := by
  split
  · exact noZero_ok a
  · exact noZero_error he

/-- Copies and loads check their bounds and nothing else. -/
theorem noZero_memcpy (dst : Bytes) (off : Nat) (src : Bytes)
    (srcOff n : Nat) : NoZeroDivisor (memcpy dst off src srcOff n) :=
  noZero_guard _ (by decide)

theorem noZero_memset0 (dst : Bytes) (off n : Nat) :
    NoZeroDivisor (memset0 dst off n) :=
  noZero_guard _ (by decide)

theorem noZero_loadLe (src : Bytes) (off w : Nat) :
    NoZeroDivisor (loadLe src off w) :=
  noZero_guard _ (by decide)

theorem noZero_readBuf (buf : Bytes) (off n : Nat) :
    NoZeroDivisor (readBuf buf off n) :=
  noZero_guard _ (by decide)

theorem noZero_deserializeInode (buf : Bytes) :
    NoZeroDivisor (deserializeInode buf) :=
  noZero_guard _ (by decide)

/-- The one division: by the extent size. -/
theorem noZero_extentCount {n : ViveInode} (hE : n.iExtentSize.toNat ≠ 0) :
    NoZeroDivisor (extentCount n) := by
  rw [extentCount, if_neg hE]
  exact noZero_ok _

/-- The inner loops of `vn_writev` and `vn_readv`, by the turns left. -/
theorem noZero_gatherIov (iov : List Bytes) (fuel : Nat) (cur : IovCursor)
    (n : Nat) : NoZeroDivisor (gatherIov iov fuel cur n) := by
  induction fuel generalizing cur n with
  | zero =>
      cases n with
      | zero => exact noZero_ok _
      | succ n => exact noZero_error (by decide)
  | succ fuel ih =>
      cases n with
      | zero => exact noZero_ok _
      | succ n =>
          rw [gatherIov]
          split
          · exact noZero_error (by decide)
          · refine (noZero_readBuf _ _ _).bind fun chunk => ?_
            exact (ih _ _).bind fun rest => noZero_ok _

theorem noZero_scatterIov {fill : Bytes → Nat → Nat → Nat → Except Fault Bytes}
    (hfill : ∀ base i o n, NoZeroDivisor (fill base i o n)) (fuel : Nat)
    (iov : List Bytes) (cur : IovCursor) (off n : Nat) :
    NoZeroDivisor (scatterIov fill fuel iov cur off n) := by
  induction fuel generalizing iov cur off n with
  | zero =>
      cases n with
      | zero => exact noZero_ok _
      | succ n => exact noZero_error (by decide)
  | succ fuel ih =>
      cases n with
      | zero => exact noZero_ok _
      | succ n =>
          rw [scatterIov]
          split
          · exact noZero_error (by decide)
          · exact (hfill _ _ _ _).bind fun filled => ih _ _ _ _

/-- The merge operator copies. -/
theorem noZero_overlayOperands (ops : List Bytes) (buf : Bytes) :
    NoZeroDivisor (overlayOperands ops buf) := by
  induction ops generalizing buf with
  | nil => exact noZero_ok _
  | cons v ops ih =>
      rw [overlayOperands]
      split
      · exact ih buf
      · refine (noZero_loadLe _ _ _).bind fun off => ?_
        exact (noZero_memcpy _ _ _ _ _).bind fun buf => ih buf

theorem noZero_fullMergeV2 (existing : Option Bytes) (ops : List Bytes)
    (newValue : Bytes) : NoZeroDivisor (fullMergeV2 existing ops newValue) := by
  rw [fullMergeV2]
  refine NoZeroDivisor.bind ?_ fun buf => noZero_overlayOperands ops buf
  cases existing with
  | none => exact noZero_ok _
  | some e => exact noZero_memcpy _ _ _ _ _

/-- So a read of an extent merges without a division. -/
theorem noZero_getData (s : Store) (key : Bytes) :
    NoZeroDivisor (s.getData key) := by
  have hmap : ∀ {x : Except Fault Bytes}, NoZeroDivisor x →
      NoZeroDivisor (x.map some) := by
    intro x hx
    cases x with
    | ok v => exact noZero_ok _
    | error e => exact hx.of_error rfl
  rw [Store.getData]
  split
  case h_1 => exact noZero_ok none
  case h_2 e he =>
    refine hmap ?_
    rcases e with ⟨b, _ | ⟨o, os⟩⟩ | ⟨f, os⟩
    · exact noZero_ok b
    · rw [Entry.resolve]
      exact noZero_fullMergeV2 _ _ _
    · rw [Entry.resolve]
      exact noZero_fullMergeV2 _ _ _

/-- What the store replies to a read ... -/
theorem noZero_replyGet (w : World) (s : Store) (cf : Cf) (key : Bytes) :
    NoZeroDivisor (w.replyGet s cf key) := by
  have hget : NoZeroDivisor (s.get cf key) := by
    cases cf with
    | defaultCf => exact noZero_ok _
    | metaCf => exact noZero_ok _
    | dataCf => exact noZero_getData s key
  rw [World.replyGet]
  split
  case isTrue =>
    cases hr : s.get cf key with
    | ok v => exact noZero_ok _
    | error e => exact hget.of_error hr
  case isFalse => exact noZero_ok _

/-- ... and to a call with a status alone. -/
theorem noZero_replyWrite (w : World) (f : World → World) :
    NoZeroDivisor (w.replyWrite f) := by
  rw [World.replyWrite]
  split
  · exact noZero_ok _
  · exact noZero_ok _

/-- Nor does any call of the store. -/
theorem noZero_handle (c : StoreCall) (w : World) :
    NoZeroDivisor (w.handle c) := by
  cases c with
  | get cf key => exact noZero_replyGet w _ cf key
  | getForUpdate cf key => exact noZero_replyGet w _ cf key
  | put | putSeed | merge | delete | commit | flushWAL =>
      simp only [World.handle]
      exact noZero_replyWrite w _
  | beginTransaction | rollback | seekMeta | time => exact noZero_ok _
  | generateInodeNo =>
      simp only [NoZeroDivisor, World.handle]
      split
      · exact noZero_ok _
      · exact noZero_error (by decide)

end Pure

-- =============================================================== programs

/-- The program divides by no zero, whatever the store replies. -/
abbrev DivSafe {α : Type} (p : Fs α) : Prop :=
  Prog.Dies (fun e => e ≠ Fault.divByZero) p

section Programs

variable {α : Type}

/-- A safe program, run alone. -/
theorem DivSafe.exec {p : Fs α} (hp : DivSafe p) (w : World) :
    NoZeroDivisor (p.exec w) := fun hrun =>
  hp.run_error (fun c w _ he h => noZero_handle c w (h ▸ he)) hrun rfl

/-- A computation as a step of a program. -/
theorem DivSafe.lift {x : Except Fault α} (hx : NoZeroDivisor x) :
    DivSafe (Fs.lift x) :=
  Prog.Dies.ofExcept fun _ he h => hx (h ▸ he)

/-- A call of the store, as a step of a program. -/
theorem divSafe_perform (c : StoreCall) :
    DivSafe (Prog.perform c : Fs c.Resp) :=
  Prog.Dies.perform c

theorem divSafe_pure (a : α) : DivSafe (pure a : Fs α) := trivial

theorem divSafe_rollback (a : α) :
    DivSafe (Fs.rollback >>= fun _ => pure a) :=
  (divSafe_perform _).bind fun _ => trivial

end Programs

-- ----------------------------------------------------------- writing

theorem divSafe_writeSegment (iNo E index off : Nat) (data : Bytes) :
    DivSafe (writeSegment iNo E index off data) := by
  rw [writeSegment]
  split <;> exact (divSafe_perform _).bind fun _ => trivial

/-- The loop of `vn_write` divides by the extent size the call was checked
for; `segmentStart` and `segmentLen` are total here. -/
theorem divSafe_writeSegments (iNo E offset : Nat) (inBuf : Bytes)
    (turns index bufOffset : Nat) :
    DivSafe (writeSegments iNo E offset inBuf turns index bufOffset) := by
  induction turns generalizing index bufOffset with
  | zero => exact trivial
  | succ turns ih =>
      refine (DivSafe.lift (noZero_readBuf _ _ _)).bind fun data => ?_
      exact (divSafe_writeSegment _ _ _ _ _).bind fun _ => ih _ _

theorem divSafe_writevSegments (iNo E offset : Nat) (iov : List Bytes)
    (turns index bufOffset : Nat) (cur : IovCursor) :
    DivSafe (writevSegments iNo E offset iov turns index bufOffset cur) := by
  induction turns generalizing index bufOffset cur with
  | zero => exact trivial
  | succ turns ih =>
      rw [writevSegments]
      split
      · exact nofun
      · refine (DivSafe.lift (noZero_gatherIov _ _ _ _)).bind fun data => ?_
        exact (divSafe_writeSegment _ _ _ _ _).bind fun _ => ih _ _ _

/-- The end of a write only adds and compares. -/
theorem divSafe_finishWrite (file : ViveFile) (offset len : Nat) :
    DivSafe (finishWrite file offset len) := by
  refine (divSafe_perform _).bind fun now => ?_
  dsimp only
  split
  · refine dies_onStatus (divSafe_perform _) (divSafe_rollback _) ?_
    exact dies_onStatus (divSafe_perform _) (divSafe_rollback _) trivial
  · exact dies_onStatus (divSafe_perform _) (divSafe_rollback _) trivial

/-- A write through a handle whose extent size is not zero. -/
theorem divSafe_vnWrite {f : ViveFile} (hE : f.inode.iExtentSize.toNat ≠ 0)
    (inBuf : Bytes) (offset : Nat) : DivSafe (vnWrite f inBuf offset) := by
  rw [vnWrite, if_neg hE]
  refine (divSafe_perform _).bind fun _ => ?_
  refine (divSafe_writeSegments _ _ _ _ _ _ _).bind fun _ => ?_
  exact divSafe_finishWrite _ _ _

theorem divSafe_vnWritev {f : ViveFile} (hE : f.inode.iExtentSize.toNat ≠ 0)
    (iov : List Bytes) (offset : Nat) : DivSafe (vnWritev f iov offset) := by
  rw [vnWritev, if_neg hE]
  refine (divSafe_perform _).bind fun _ => ?_
  refine (divSafe_writevSegments _ _ _ _ _ _ _ _).bind fun _ => ?_
  exact divSafe_finishWrite _ _ _

-- ----------------------------------------------------------- reading

/-- The loops that read copy or clear. -/
theorem divSafe_readSegments (iNo E offset len turns index bufOffset : Nat)
    (outBuf : Bytes) :
    DivSafe (readSegments iNo E offset len turns index bufOffset outBuf) := by
  induction turns generalizing index bufOffset outBuf with
  | zero => exact trivial
  | succ turns ih =>
      refine (divSafe_perform _).bind fun status => ?_
      refine (DivSafe.lift ?_).bind fun outBuf => ih _ _ _
      split
      · exact noZero_memcpy _ _ _ _ _
      · exact noZero_memset0 _ _ _

theorem divSafe_readvSegments (iNo E offset len turns index bufOffset : Nat)
    (iov : List Bytes) (cur : IovCursor) :
    DivSafe
      (readvSegments iNo E offset len turns index bufOffset iov cur) := by
  induction turns generalizing index bufOffset iov cur with
  | zero => exact trivial
  | succ turns ih =>
      refine (divSafe_perform _).bind fun status => ?_
      refine (DivSafe.lift ?_).bind fun p => ih _ _ _ _
      split
      · exact noZero_scatterIov (fun _ _ _ _ => noZero_memcpy _ _ _ _ _) _ _
          _ _ _
      · exact noZero_scatterIov (fun _ _ _ _ => noZero_memset0 _ _ _) _ _ _
          _ _

theorem divSafe_touchAtime (f : ViveFile) : DivSafe (touchAtime f) := by
  rw [touchAtime]
  split
  · exact trivial
  · exact (divSafe_perform _).bind fun _ => trivial

/-- A read through such a handle. -/
theorem divSafe_vnRead {f : ViveFile} (hE : f.inode.iExtentSize.toNat ≠ 0)
    (outBuf : Bytes) (offset : Nat) : DivSafe (vnRead f outBuf offset) := by
  rw [vnRead, if_neg hE]
  refine (divSafe_readSegments _ _ _ _ _ _ _ _).bind fun _ => ?_
  exact (divSafe_touchAtime f).bind fun _ => trivial

theorem divSafe_vnReadv {f : ViveFile} (hE : f.inode.iExtentSize.toNat ≠ 0)
    (iov : List Bytes) (offset : Nat) : DivSafe (vnReadv f iov offset) := by
  rw [vnReadv, if_neg hE]
  refine (divSafe_readvSegments _ _ _ _ _ _ _ _ _).bind fun _ => ?_
  exact (divSafe_touchAtime f).bind fun _ => trivial

-- ------------------------------------------------ looking up and opening

/-- The deletes of a truncation count, they do not divide. -/
theorem divSafe_deleteExtents (cf : Cf) (ino n i : Nat) :
    DivSafe (deleteExtents cf ino n i) := by
  induction n generalizing i with
  | zero => exact trivial
  | succ n ih => exact (divSafe_perform _).bind fun _ => ih (i + 1)

/-- A lookup decodes a number and a record. -/
theorem divSafe_vnLookupInodeNo (parent : Int) (name : FileName)
    (wantInode : Bool) :
    DivSafe (vnLookupInodeNo parent name wantInode) := by
  have hload (v : Bytes) : NoZeroDivisor (loadInt64 v) := noZero_loadLe v 0 8
  refine (divSafe_perform _).bind fun status => ?_
  split
  · exact trivial
  · dsimp only
    split
    · refine (divSafe_perform _).bind fun status => ?_
      split
      · exact trivial
      · refine (DivSafe.lift (noZero_deserializeInode _)).bind fun inode => ?_
        exact (DivSafe.lift (hload _)).bind fun _ => trivial
    · exact (DivSafe.lift (hload _)).bind fun _ => trivial

/-- An opening with O_TRUNC counts the extents of the inode it is given. -/
theorem divSafe_vnOpenFileByInode {inode : ViveInode}
    (hE : inode.iExtentSize.toNat ≠ 0) (flags : UInt32) :
    DivSafe (vnOpenFileByInode inode flags) := by
  rw [vnOpenFileByInode]
  split
  · refine (divSafe_perform _).bind fun _ => ?_
    refine (divSafe_perform _).bind fun status => ?_
    split
    · refine (DivSafe.lift (noZero_extentCount hE)).bind fun extents => ?_
      refine (divSafe_deleteExtents _ _ _ _).bind fun _ => ?_
      refine dies_onStatus (divSafe_perform _) (divSafe_rollback _) ?_
      exact dies_onStatus (divSafe_perform _) (divSafe_rollback _) trivial
    · exact divSafe_rollback _
  · exact trivial

end ViveNas
