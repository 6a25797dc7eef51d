/-
Whole runs seen through the namespace.

# What is carried

Two things are carried along a run. How many numbers have been drawn
bounds both the counter and the committed seed (`run_within`), so a run
that draws fewer than 2^56 never reaches a number whose key could be an
entry's. And the namespace of Namespace.lean makes the same run
(`run_nsRel`), by the simulation of Proofs/Namespace.lean.

# Answers

The answers of a lookup, an unlink and a create are compared with the
namespace's own in the state the relation gives, one lemma each
(`lookup_answer`, `unlink_answer`, `create_answer`).
-/
import ViveNas.Proofs.Namespace

namespace ViveNas

open LittleEndian

variable {codec : SuperblockCodec} {s s' : Sys} {N : Namespace} {call : Call}
  {r : Int} {tr : List Event}

-- ====================================================== numbers drawn

/-- A call of a mounted file system draws its number and no other; only
`vn_umount` leaves the file system unmounted, and it commits nothing. -/
theorem Effect.counts (heff : Effect s call r s') (hm : s.mounted = true) :
    (s'.mounted = true ∧ s'.world.inodeSeed
        = s.world.inodeSeed + (s.draws call).toNat)
      ∨ (call = .umount ∧ s'.mounted = false
        ∧ s'.world.db = s.world.db) := by
  induction heff with
  | @createFresh s addr p a mode uid gid =>
      cases addr <;> exact Or.inl ⟨hm, rfl⟩
  | openNull hw hnone =>
      rw [draws_openFile_of_nothing hnone]
      rcases hw with rfl | rfl <;> exact Or.inl ⟨hm, rfl⟩
  | openPlain hfree hflag hkey hrec =>
      rw [draws_openFile_of_found hkey]
      exact Or.inl ⟨hm, rfl⟩
  | openTrunc hfree hflag hkey hrec hown hcount =>
      rw [draws_openFile_of_found hkey]
      exact Or.inl ⟨hm, rfl⟩
  | @openCreate s s₁ s' fd addr p a flags mode ino r hflag hkey hcreate hopen
      ihc iho =>
      have hdraws : s.draws (.openFile fd addr p a flags mode) = true := by
        rw [Sys.draws, hflag, hkey]
        rfl
      obtain ⟨v, hentry⟩ := hcreate.entry_of_create
      obtain ⟨hm₁, hseed₁⟩ | ⟨hcall, -⟩ := ihc hm
      · obtain ⟨hm', hseed⟩ | ⟨hcall, -⟩ := iho hm₁
        · rw [draws_openFile_of_found hentry, hseed₁] at hseed
          rw [hdraws]
          exact Or.inl ⟨hm', hseed⟩
        · cases hcall
      · cases hcall
  | wrote hcall =>
      rw [(nameless_of_writes hcall).2]
      exact Or.inl ⟨hm, rfl⟩
  | umounted => exact Or.inr ⟨rfl, rfl, rfl⟩
  | mounted hm' =>
      rw [hm] at hm'
      cases hm'
  | _ => exact Or.inl ⟨hm, rfl⟩

/-- An unmounted file system can only be mounted. -/
theorem step_unmounted (hm : s.mounted = false)
    (hstep : s.step codec call = .ok (r, s')) : ∃ addr, call = .mount addr := by
  unfold Sys.step at hstep
  rw [hm] at hstep
  cases call with
  | mount addr => exact ⟨addr, rfl⟩
  | _ => cases hstep

/-- The committed seed and the counter are at most `b`. -/
def Within (codec : SuperblockCodec) (b : Nat) (s : Sys) : Prop :=
  ∃ c, SysInv codec s c ∧ c ≤ b
    ∧ (s.mounted = true → s.world.inodeSeed ≤ b)

/-- A call raises the bound by the number it draws. -/
theorem Within.step {b : Nat} (hb : Within codec b s)
    (hadm : Admissible s call) (hstep : s.step codec call = .ok (r, s')) :
    Within codec (b + (s.draws call).toNat) s' := by
  obtain ⟨c, inv, hc, hseed⟩ := hb
  have heff := step_effect inv hadm hstep
  obtain ⟨c', -, inv'⟩ := heff.inv inv hadm
  have hhigh := inv.high
  refine ⟨c', inv', ?_⟩
  by_cases hm : s.mounted = true
  · rcases heff.counts hm with ⟨hm', hdrawn⟩ | ⟨-, hm', hdb⟩
    · have hle := (inv'.counter hm').1
      have := hseed hm
      exact ⟨by omega, fun _ => by omega⟩
    · have hsame : c' = c := inv'.eq_of_seed (by omega) (hdb ▸ inv.seed)
      refine ⟨by omega, fun h => ?_⟩
      rw [hm'] at h
      cases h
  · obtain ⟨addr, rfl⟩ := step_unmounted (by simpa using hm) hstep
    cases heff with
    | @mounted _ _ seed hm' hkey hrange =>
        have hsame : c = seed := inv.eq_of_seed (by omega) hkey
        have hle : c' ≤ seed := (inv'.counter rfl).1
        exact ⟨by omega, fun _ => (by omega : seed ≤ b + _)⟩
    | wrote hcall => cases hcall

/-- The bound after a run. -/
theorem run_within {ok : Sys → Call → Prop}
    (hok : ∀ s call, ok s call → Admissible s call)
    (hrun : SysRun codec ok tr s) :
    Within codec (vnFirstUserIno + tr.countP Event.drew) s := by
  refine hrun.invariant
    (I := fun tr s => Within codec (vnFirstUserIno + tr.countP Event.drew) s)
    (fun s h => ⟨_, h.inv, Nat.le_refl _, fun hm => ?_⟩) ?_
  · obtain ⟨-, -, -, hunmounted, -⟩ := h
    rw [hunmounted] at hm
    cases hm
  · rintro tr s e s' hb (⟨clock⟩ | ⟨hcall, hstep⟩)
    · obtain ⟨c, inv, hc, hseed⟩ := hb
      exact ⟨c, inv.withWorld inv.calm inv.shape inv.seed inv.counter, hc,
        hseed⟩
    · have hnext := hb.step (hok _ _ hcall) hstep
      rw [List.countP_cons]
      cases hdraws : s.draws _ <;> rw [hdraws] at hnext <;> exact hnext

-- ======================================================== the simulation

/-- A formatted store names nothing. -/
theorem Formatted.nsRel (h : Formatted codec s) :
    NsRel codec s Namespace.empty where
  base := h.inv
  wellFormed := Namespace.wellFormed_empty
  entries p a := by
    rw [h.world_eq.1, formattedStore_meta,
      if_neg (fileKey_ne_inodeSeedKey p a).symm,
      if_neg (fileKey_ne_superblockKey p a).symm]
    rfl
  mapped p a n hn := by cases hn
  records n v _ _ hv := by
    rw [h.world_eq.1, formattedStore_meta,
      if_neg (inodeKey_ne_inodeSeedKey n).symm,
      if_neg (inodeKey_ne_superblockKey n).symm] at hv
    cases hv
  keys key v hv := by
    rw [h.world_eq.1, formattedStore_meta] at hv
    split at hv
    · next hkey => exact Or.inr (Or.inl hkey.symm)
    · split at hv
      · next hkey => exact Or.inl hkey.symm
      · cases hv
  memory addr n hn := by
    obtain ⟨-, -, -, -, hinodes, -⟩ := h
    rw [hinodes] at hn
    cases hn

/-- What the simulation asks of a call. -/
def Nameable (s : Sys) (call : Call) : Prop :=
  Admissible s call ∧ Sized call
    ∧ (s.draws call = true → Apart s.world.inodeSeed)

/-- The namespace makes every run with the file system. -/
theorem run_nsRel (hrun : SysRun codec Nameable tr s) :
    ∃ N, Trace.Run (· = Namespace.empty) Namespace.Step tr N
      ∧ NsRel codec s N := by
  have hinit : ∀ s, Formatted codec s →
      ∃ N, N = Namespace.empty ∧ NsRel codec s N :=
    fun s h => ⟨_, rfl, h.nsRel⟩
  refine hrun.simulate hinit ?_
  rintro s N e s' rel (⟨clock⟩ | ⟨⟨hadm, hsized, hapart⟩, hstep⟩)
  · exact ⟨N, .tick, rel.quiet (rel.base.withWorld rel.base.calm
      rel.base.shape rel.base.seed rel.base.counter) rfl rel.memory⟩
  · exact (step_effect rel.base hadm hstep).simulated rel hadm hsized hapart

/-- What callers promise. -/
def Faithful (s : Sys) (call : Call) : Prop :=
  Admissible s call ∧ Sized call

theorem Call.Plain.faithful (h : call.Plain) : Faithful s call := by
  refine ⟨h.admissible, ?_⟩
  rintro addr inode rfl
  exact h.elim

/-- A run that draws fewer than 2^56 numbers draws only numbers whose keys
are no entry's. -/
theorem run_nameable
    (hrun : SysRun codec Faithful tr s)
    (hcount : tr.countP Event.drew < 2 ^ 56) :
    SysRun codec Nameable tr s := by
  refine hrun.mono (P := fun tr => tr.countP Event.drew < 2 ^ 56) ?_ ?_ hcount
  · intro e tr h
    rw [List.countP_cons] at h
    omega
  · rintro tr s e s' hlt hrun' (⟨clock⟩ | ⟨⟨hadm, hsized⟩, hstep⟩)
    · exact .tick clock
    · refine .call ⟨hadm, hsized, fun hdraws => apart_of_lt ?_⟩ hstep
      obtain ⟨c, -, -, hseed⟩ := run_within (fun _ _ h => h.1) hrun'
      have hm : s.mounted = true := by
        by_contra hm
        obtain ⟨addr, rfl⟩ := step_unmounted (by simpa using hm) hstep
        cases hdraws
      have := hseed hm
      rw [List.countP_cons] at hlt
      have hfirst : vnFirstUserIno = 12 := rfl
      omega

-- ============================================================== answers

namespace NsRel

variable (rel : NsRel codec s N)
include rel

/-- A name's entry, read back. -/
theorem entry_of_find {p : Int} {a : FileName} {n : Nat}
    (hn : N.find p a = some n) :
    s.world.db.metaCf[fileKey p a]? = some (inodeKey n)
      ∧ 8 ≤ (inodeKey n).length ∧ leNat ((inodeKey n).take 8) = n := by
  have hentry : s.world.db.metaCf[fileKey p a]? = some (inodeKey n) := by
    rw [rel.entries, hn]
    rfl
  obtain ⟨m, hm, -, hnum⟩ := rel.found hentry
  cases hn.symm.trans hm
  refine ⟨hentry, ?_, hnum⟩
  rw [inodeKey, leBytes_length]

theorem entry_of_not_find {p : Int} {a : FileName} (hn : N.find p a = none) :
    s.world.db.metaCf[fileKey p a]? = none := by
  rw [rel.entries, hn]
  rfl

/-- A lookup returns the name's number, or -1. -/
theorem lookup_answer (p : Int) (a : FileName) (want : Bool) :
    ∃ out, (vnLookupInodeNo p a want).exec s.world
      = .ok (((N.find p a).elim (-1) fun n => (n : Int), out), s.world) := by
  cases hn : N.find p a with
  | none =>
      exact ⟨none, exec_vnLookup_absent rel.base.calm want
        (rel.entry_of_not_find hn)⟩
  | some n =>
      obtain ⟨hentry, hlen, hnum⟩ := rel.entry_of_find hn
      have hno : asInt64 (leNat ((inodeKey n).take 8)) = n := by
        rw [hnum, asInt64_of_lt (rel.mapped_lt hn)]
      cases want with
      | false =>
          refine ⟨none, ?_⟩
          rw [exec_vnLookup_number rel.base.calm hentry hlen, hno]
          rfl
      | true =>
          obtain ⟨rec, hrec, -⟩ := rel.mapped_record hn
          refine ⟨some { rec with refCnt := 1 }, ?_⟩
          rw [exec_vnLookup_inode rel.base.calm hentry hlen hrec, hno]
          rfl

/-- An unlink returns, and fails just where there is no name. -/
theorem unlink_answer (p : Int) (a : FileName) :
    ∃ w', (vnUnlink p a).exec s.world
      = .ok (if (N.find p a).isSome then 0 else -enoent, w') := by
  cases hn : N.find p a with
  | none =>
      exact ⟨_, exec_vnUnlink_absent rel.base.calm (rel.entry_of_not_find hn)⟩
  | some n =>
      obtain ⟨hentry, hlen, hnum⟩ := rel.entry_of_find hn
      obtain ⟨rec, hrec, -, hlinks, hextent⟩ := rel.mapped_record hn
      have hcount : extentCount rec = .ok _ := if_neg (by omega)
      exact ⟨_, exec_vnUnlink_last rel.base.calm hentry hlen hrec
        (hnum.symm ▸ rel.mapped_lt hn) hlinks hcount⟩

/-- A create returns, and fails just where there is a name. -/
theorem create_answer (hseed : s.world.inodeSeed + 1 < 2 ^ 63) (p : Int)
    (a : FileName) (mode uid gid : UInt16) :
    ∃ out w', (vnCreateFile p a mode uid gid).exec s.world
      = .ok ((if (N.find p a).isSome then -eexist
          else (s.world.inodeSeed : Int), out), w') := by
  cases hn : N.find p a with
  | none =>
      exact ⟨_, _, exec_vnCreateFile_fresh rel.base.calm hseed mode uid gid
        (rel.entry_of_not_find hn)⟩
  | some n =>
      exact ⟨_, _, exec_vnCreateFile_exists rel.base.calm hseed mode uid gid
        (rel.entry_of_find hn).1⟩

end NsRel

-- =========================================================== refinement

/-- meta_cf refines the namespace. Along every run of calls that return, with
fewer than 2^56 numbers drawn, the namespace makes the same calls with the
same codes. In the state reached each name has its own number and each
number its record, and the next lookup, create or unlink returns what the
namespace says. -/
theorem metadata_refines_namespace
    (hrun : SysRun codec Faithful tr s)
    (hcount : tr.countP Event.drew < 2 ^ 56) :
    ∃ N, Trace.Run (· = Namespace.empty) Namespace.Step tr N
      ∧ (∀ p a n, N.find p a = some n → ∃ rec : ViveInode,
          s.world.db.metaCf[inodeKey n]? = some rec.toBytes
            ∧ rec.toBytes.length = 256 ∧ rec.iNo.toNat = n)
      ∧ (∀ p a q b n, N.find p a = some n → N.find q b = some n →
          p = q ∧ a = b)
      ∧ (s.mounted = true → ∀ p a,
          (∀ want, ∃ out, (vnLookupInodeNo p a want).exec s.world
            = .ok (((N.find p a).elim (-1) fun n => (n : Int), out),
                s.world))
          ∧ (∃ w', (vnUnlink p a).exec s.world
            = .ok (if (N.find p a).isSome then 0 else -enoent, w'))
          ∧ ∀ mode uid gid, ∃ out w',
            (vnCreateFile p a mode uid gid).exec s.world
              = .ok ((if (N.find p a).isSome then -eexist
                  else (s.world.inodeSeed : Int), out), w')) := by
  obtain ⟨N, harun, rel⟩ := run_nsRel (run_nameable hrun hcount)
  obtain ⟨c, -, -, hseed⟩ := run_within (fun _ _ h => h.1) hrun
  refine ⟨N, harun, ?_, ?_, ?_⟩
  · intro p a n hn
    obtain ⟨rec, hrec, hno, -⟩ := rel.mapped_record hn
    exact ⟨rec, hrec, rec.toBytes_length, hno⟩
  · intro p a q b n hn hn'
    exact Prod.ext_iff.mp (rel.wellFormed.injective p a q b n hn hn')
  · intro hm p a
    have hfirst : vnFirstUserIno = 12 := rfl
    have hle := hseed hm
    exact ⟨rel.lookup_answer p a, rel.unlink_answer p a,
      rel.create_answer (by omega) p a⟩

/-- A run with one create: the namespace has the name, and its number. -/
theorem metadata_refines_namespace_oneFile :
    ∃ N, Trace.Run (· = Namespace.empty) Namespace.Step
        [.call (.create none vnRootIno nameA 0 0 0) vnFirstUserIno true,
          .call (.mount 0) 0 false] N
      ∧ ∃ out, (vnLookupInodeNo vnRootIno nameA false).exec
          (oneFileSys plainCodec 0 0).world
        = .ok (((N.find vnRootIno nameA).elim (-1) fun n => (n : Int), out),
            (oneFileSys plainCodec 0 0).world) := by
  have hrun : SysRun plainCodec Faithful _ (oneFileSys plainCodec 0 0) :=
    run_oneFileSys 0 (fun _ => Call.Plain.faithful trivial)
      fun _ => Call.Plain.faithful trivial
  obtain ⟨N, harun, -, -, hanswer⟩ := metadata_refines_namespace
    hrun (by decide)
  exact ⟨N, harun, (hanswer rfl vnRootIno nameA).1 false⟩

-- ----------------------------------------------- a record without extents

/-- The first file's inode as a caller may hand it back: number and links
as they came, no extent size. -/
def unsizedInode : ViveInode :=
  { newInode vnFirstUserIno 0 0 0 0 with iExtentSize := 0 }

/-- The file system once that inode has been persisted. -/
def unsizedSys : Sys :=
  { (oneFileSys plainCodec 0 0).setInode (some 1)
      (some (newInode vnFirstUserIno 0 0 0 0)) with
    world := (oneFileSys plainCodec 0 0).world.committed .dataOpt
      [.put .metaCf (inodeKey vnFirstUserIno) unsizedInode.toBytes] }.setInode
    (some 1) (some unsizedInode)

theorem run_unsizedSys :
    SysRun plainCodec Admissible
      [.call (.persist 1 unsizedInode) 0 false,
        .call (.create (some 1) vnRootIno nameA 0 0 0) vnFirstUserIno true,
        .call (.mount 0) 0 false] unsizedSys := by
  refine .step (.step (run_mountedSys 0 fun _ =>
    Call.Plain.admissible trivial) (.call (Call.Plain.admissible trivial)
      (step_create_first 0 0 rfl))) (.call ⟨?_, ?_⟩ ?_)
  · intro fd data offset h
    cases h
  · rintro addr inode old hcall hold
    cases hcall
    cases hold
    exact ⟨rfl, rfl⟩
  · refine (step_of_mounted rfl).trans ?_
    show ((vnPersistInode unsizedInode).exec
      (oneFileSys plainCodec 0 0).world >>= _) = _
    have hcalm : Calm (oneFileSys plainCodec 0 0).world := rfl
    rw [exec_vnPersistInode hcalm]
    rfl

/-- Unlinking that file divides by zero. -/
theorem unlink_unsized :
    SysRun plainCodec Admissible
        [.call (.persist 1 unsizedInode) 0 false,
          .call (.create (some 1) vnRootIno nameA 0 0 0) vnFirstUserIno true,
          .call (.mount 0) 0 false] unsizedSys
      ∧ unsizedSys.world.db.metaCf[fileKey vnRootIno nameA]?
        = some (inodeKey vnFirstUserIno)
      ∧ (vnUnlink vnRootIno nameA).exec unsizedSys.world
        = .error .divByZero := by
  have hcalm : Calm unsizedSys.world := rfl
  have hmeta : ∀ key : Bytes, unsizedSys.world.db.metaCf[key]?
      = if inodeKey vnFirstUserIno = key then some unsizedInode.toBytes
        else (oneFileSys plainCodec 0 0).world.db.metaCf[key]? :=
    Store.applyOp_meta _ (.put .metaCf _ _)
  have hentry : unsizedSys.world.db.metaCf[fileKey vnRootIno nameA]?
      = some (inodeKey vnFirstUserIno) := by
    rw [hmeta, if_neg (fileKey_ne_inodeKey (by decide) _ _).symm]
    exact oneFileSys_entry 0 0
  have hrec : unsizedSys.world.db.metaCf[inodeKey vnFirstUserIno]?
      = some unsizedInode.toBytes := by
    rw [hmeta, if_pos rfl]
  exact ⟨run_unsizedSys, hentry, exec_vnUnlink_fault hcalm hentry (by decide)
    hrec (by decide) rfl (if_pos rfl)⟩

end ViveNas
