/-
Which files exist, over whole runs of PfAofFileSystem calls.

`recorded` is what the calls of a run should have left: the names made
by `NewWritableFile` or renamed to, but for those deleted or renamed
away since. All three `New..File` functions open with O_CREAT, so a
reader's open makes an absent file and reports success. The files are as
recorded exactly as long as no such open is carried out
(`names_step_iff`), and then an open of an absent file is one that
PureFlash refused.

# One call at a time

`Harmless` is what one expects of an open for reading, `OpensExisting`
what a caller has to see to; they are the same (`harmless_iff`). Which
files a call touches is said once, by `step_opens_cases` for the three
opens and by a `_cases` lemma each for the deletion and the renaming.
-/
import ViveNas.PfAof

namespace ViveNas

open PfAofFileSystem

-- ======================================================== what is expected

/-- Whether `f` should exist after a call, if before it that was `was`. -/
def AofCall.leaves (f : FileName) (was : Prop) (status : IOStatus) :
    AofCall → Prop
  | .newWritableFile g _ => (status = .ok ∧ f = g) ∨ was
  | .deleteFile g _ => was ∧ ¬ (status = .ok ∧ f = g)
  | .renameFile src target _ =>
      (status = .ok ∧ f = target) ∨ (was ∧ ¬ (status = .ok ∧ f = src))
  | _ => was

/-- `f` should exist after the calls, newest first. -/
def recorded (f : FileName) : List (AofCall × IOStatus) → Prop
  | [] => False
  | (c, status) :: tr => c.leaves f (recorded f tr) status

/-- The file a call opens for reading, and how the open ends. -/
def AofCall.reads : AofCall → Option (FileName × PfOutcome)
  | .newSequentialFile f out => some (f, out)
  | .newRandomAccessFile f out => some (f, out)
  | _ => none

/-- An open for reading of a file that does not exist fails and changes
nothing. -/
def Harmless (pf : PureFlash) (c : AofCall) : Prop :=
  ∀ f out, c.reads = some (f, out) → pf f = none →
    (step pf c).1 ≠ .ok ∧ (step pf c).2 = pf

/-- The call opens for reading only what exists, unless PureFlash fails
it. -/
def OpensExisting (pf : PureFlash) (c : AofCall) : Prop :=
  ∀ f, c.reads = some (f, .done) → pf f ≠ none

-- ============================================================== one call

variable {pf pf' : PureFlash} {c : AofCall} {status : IOStatus}
  {tr : List (AofCall × IOStatus)}

/-- The file a call opens as one of the three kinds of object, and how the
open ends. -/
def AofCall.opens : AofCall → Option (FileName × PfOutcome)
  | .newSequentialFile f out => some (f, out)
  | .newRandomAccessFile f out => some (f, out)
  | .newWritableFile f out => some (f, out)
  | _ => none

theorem AofCall.opens_of_reads {p : FileName × PfOutcome}
    (h : c.reads = some p) : c.opens = some p := by
  cases c with
  | newSequentialFile f out => exact h
  | newRandomAccessFile f out => exact h
  | _ => cases h

/-- Opening an object finds the file, makes it, or fails. -/
theorem newFileObject_cases {α : Type} (mk : PfAof → FileName → α)
    (pf : PureFlash) (f : FileName) (out : PfOutcome) :
    let r := newFileObject mk pf f out
    (∃ code neg, out = .failed code neg ∧ (r.1.1, r.2) = (.pathNotFound, pf))
    ∨ (out = .done ∧ pf f ≠ none ∧ (r.1.1, r.2) = (.ok, pf))
    ∨ (out = .done ∧ pf f = none ∧ (r.1.1, r.2)
        = (.ok, Function.update pf f (some AofContent.empty))) := by
  cases out with
  | failed code neg => exact Or.inl ⟨code, neg, rfl, rfl⟩
  | done =>
      cases hf : pf f with
      | some content =>
          refine Or.inr (Or.inl ⟨rfl, nofun, ?_⟩)
          rw [newFileObject, pfOpenAof, hf]
      | none =>
          have hcreat : hasFlag (oCreat ||| oRdwr) oCreat = true := by decide
          refine Or.inr (Or.inr ⟨rfl, rfl, ?_⟩)
          rw [newFileObject, pfOpenAof, hf]
          dsimp only
          rw [if_pos hcreat]

theorem step_opens_cases (pf : PureFlash) {f : FileName} {out : PfOutcome}
    (hopens : c.opens = some (f, out)) :
    (∃ code neg, out = .failed code neg ∧ step pf c = (.pathNotFound, pf))
    ∨ (out = .done ∧ pf f ≠ none ∧ step pf c = (.ok, pf))
    ∨ (out = .done ∧ pf f = none
      ∧ step pf c
        = (.ok, Function.update pf f (some AofContent.empty))) := by
  cases c with
  | newSequentialFile g out' =>
      cases hopens
      exact newFileObject_cases _ pf f out
  | newRandomAccessFile g out' =>
      cases hopens
      exact newFileObject_cases _ pf f out
  | newWritableFile g out' =>
      cases hopens
      exact newFileObject_cases _ pf f out
  | _ => cases hopens

/-- A file that was made exists, and no other comes or goes. -/
theorem update_some_ne_none (pf : PureFlash) (g f : FileName)
    (content : AofContent) :
    Function.update pf g (some content) f ≠ none ↔ f = g ∨ pf f ≠ none := by
  rw [Function.update_apply]
  by_cases hf : f = g
  · simp [hf]
  · simp [hf]

theorem update_none_ne_none (pf : PureFlash) (g f : FileName) :
    Function.update pf g none f ≠ none ↔ pf f ≠ none ∧ f ≠ g := by
  rw [Function.update_apply]
  by_cases hf : f = g
  · simp [hf]
  · simp [hf]

/-- The size of a file is read through an open that makes none. -/
theorem getFileSize_files (pf : PureFlash) (f : FileName) (out : PfOutcome) :
    (getFileSize pf f out).2 = pf := by
  cases out with
  | failed code neg => rfl
  | done =>
      have hcreat : hasFlag oRdonly oCreat = false := by decide
      rw [getFileSize, pfOpenAof]
      cases hf : pf f with
      | some content => rfl
      | none =>
          dsimp only
          rw [hcreat]
          rfl

/-- A delete takes the file away, or fails and changes nothing. -/
theorem deleteFile_cases (pf : PureFlash) (f : FileName) (out : PfOutcome) :
    ((deleteFile pf f out).1 ≠ .ok ∧ (deleteFile pf f out).2 = pf)
    ∨ deleteFile pf f out = (.ok, Function.update pf f none) := by
  cases out with
  | failed code neg =>
      left
      rw [deleteFile, pfDeleteAof]
      dsimp only
      rw [if_neg (by omega)]
      exact ⟨nofun, rfl⟩
  | done =>
      rw [deleteFile, pfDeleteAof]
      cases pf f with
      | none => exact Or.inl ⟨nofun, rfl⟩
      | some content => exact Or.inr rfl

/-- A rename moves the file, or fails and changes nothing. -/
theorem renameFile_cases (pf : PureFlash) (src target : FileName)
    (out : PfOutcome) :
    ((renameFile pf src target out).1 ≠ .ok
      ∧ (renameFile pf src target out).2 = pf)
    ∨ ∃ content, renameFile pf src target out
      = (.ok, Function.update (Function.update pf src none) target
          (some content)) := by
  cases out with
  | failed code neg =>
      left
      rw [renameFile, pfRenameAof]
      dsimp only
      rw [if_neg (by omega)]
      exact ⟨nofun, rfl⟩
  | done =>
      rw [renameFile, pfRenameAof]
      cases pf src with
      | none => exact Or.inl ⟨nofun, rfl⟩
      | some content => exact Or.inr ⟨content, rfl⟩

/-- An open for reading is harmless exactly if it is of a file that
exists, or refused. -/
theorem harmless_iff : Harmless pf c ↔ OpensExisting pf c := by
  constructor
  · intro h f hreads hnone
    obtain ⟨hstatus, -⟩ := h f .done hreads hnone
    rcases step_opens_cases pf (AofCall.opens_of_reads hreads) with
      ⟨code, neg, hout, -⟩ | ⟨-, -, hrun⟩ | ⟨-, -, hrun⟩
    · cases hout
    · exact hstatus (by rw [hrun])
    · exact hstatus (by rw [hrun])
  · intro h f out hreads hnone
    rcases step_opens_cases pf (AofCall.opens_of_reads hreads) with
      ⟨code, neg, -, hrun⟩ | ⟨-, hf, -⟩ | ⟨rfl, hf, -⟩
    · rw [hrun]
      exact ⟨nofun, rfl⟩
    · exact absurd hnone hf
    · exact absurd hf (h f hreads)

/-- A call that does not succeed is recorded as having done nothing. -/
theorem leaves_of_failed {f : FileName} {was : Prop} (hstatus : status ≠ .ok) :
    c.leaves f was status ↔ was := by
  cases c with
  | newWritableFile g out | deleteFile g out | renameFile src target out =>
      simp [AofCall.leaves, hstatus]
  | _ => exact Iff.rfl

/-- A call other than an open for reading does to the files what is
recorded of it. -/
theorem names_step_of_not_reads (hreads : c.reads = none)
    (hstep : step pf c = (status, pf')) (f : FileName) :
    pf' f ≠ none ↔ c.leaves f (pf f ≠ none) status := by
  cases c with
  | newSequentialFile g out => cases hreads
  | newRandomAccessFile g out => cases hreads
  | newWritableFile g out =>
      rcases step_opens_cases (c := .newWritableFile g out) pf rfl with
        ⟨code, neg, -, hrun⟩ | ⟨-, hg, hrun⟩ | ⟨-, -, hrun⟩
      · rw [hrun] at hstep
        cases hstep
        have hstatus : IOStatus.pathNotFound ≠ .ok := by decide
        exact (leaves_of_failed hstatus).symm
      · rw [hrun] at hstep
        cases hstep
        simp only [AofCall.leaves, true_and]
        exact (or_iff_right_of_imp fun heq => heq ▸ hg).symm
      · rw [hrun] at hstep
        cases hstep
        simp only [AofCall.leaves, true_and]
        exact update_some_ne_none pf g f _
  | fileExists g =>
      cases hstep
      exact Iff.rfl
  | getFileSize g out =>
      have hfiles : (getFileSize pf g out).2 = pf' := congrArg Prod.snd hstep
      rw [getFileSize_files] at hfiles
      rw [← hfiles]
      exact Iff.rfl
  | deleteFile g out =>
      rcases deleteFile_cases pf g out with ⟨hstatus, hsame⟩ | hrun
      · rw [step] at hstep
        rw [hstep] at hstatus hsame
        rw [← hsame]
        exact (leaves_of_failed hstatus).symm
      · rw [step, hrun] at hstep
        cases hstep
        simp only [AofCall.leaves, true_and]
        exact update_none_ne_none pf g f
  | renameFile src target out =>
      rcases renameFile_cases pf src target out with
        ⟨hstatus, hsame⟩ | ⟨content, hrun⟩
      · rw [step] at hstep
        rw [hstep] at hstatus hsame
        rw [← hsame]
        exact (leaves_of_failed hstatus).symm
      · rw [step, hrun] at hstep
        cases hstep
        simp only [AofCall.leaves, true_and]
        rw [update_some_ne_none, update_none_ne_none]

/-- An open for reading is not recorded. -/
theorem leaves_of_reads {f g : FileName} {out : PfOutcome} {was : Prop}
    (hreads : c.reads = some (g, out)) : c.leaves f was status ↔ was := by
  cases c with
  | newSequentialFile g out => exact Iff.rfl
  | newRandomAccessFile g out => exact Iff.rfl
  | _ => cases hreads

/-- A call leaves the files that should exist exactly if it opens no
absent one for reading. -/
theorem names_step_iff (hstep : step pf c = (status, pf')) :
    (∀ f, pf' f ≠ none ↔ c.leaves f (pf f ≠ none) status)
      ↔ OpensExisting pf c := by
  cases hreads : c.reads with
  | none =>
      refine iff_of_true (names_step_of_not_reads hreads hstep) ?_
      intro f hf
      rw [hreads] at hf
      cases hf
  | some p =>
      obtain ⟨g, out⟩ := p
      have hleaves (f : FileName) :
          c.leaves f (pf f ≠ none) status ↔ pf f ≠ none :=
        leaves_of_reads hreads
      simp only [hleaves]
      rcases step_opens_cases pf (AofCall.opens_of_reads hreads) with
        ⟨code, neg, rfl, hrun⟩ | ⟨rfl, hg, hrun⟩ | ⟨rfl, hg, hrun⟩
      · rw [hrun] at hstep
        cases hstep
        refine iff_of_true (fun f => Iff.rfl) fun f hf => ?_
        rw [hreads] at hf
        cases hf
      · rw [hrun] at hstep
        cases hstep
        refine iff_of_true (fun f => Iff.rfl) fun f hf => ?_
        rw [hreads] at hf
        cases hf
        exact hg
      · rw [hrun] at hstep
        cases hstep
        refine iff_of_false (fun h => ?_) fun h => h g hreads hg
        exact (h g).mp ((update_some_ne_none pf g g _).mpr (Or.inl rfl)) hg

-- ============================================================= whole runs

theorem fileExists_ok_iff (pf : PureFlash) (f : FileName) :
    fileExists pf f = .ok ↔ pf f ≠ none := by
  rw [fileExists, pfAofAccess]
  cases pf f with
  | none => simp [enoent]
  | some content => simp

/-- The files are as recorded, and no open for reading that the run may
make brings one about. -/
structure NamesKept (tr : List (AofCall × IOStatus)) (pf : PureFlash) :
    Prop where
  listed : ∀ f, fileExists pf f = .ok ↔ recorded f tr
  readers : ∀ c, OpensExisting pf c → Harmless pf c

/-- In every run whose carried out opens for reading are of files that
exist. -/
theorem aof_names_kept (tr : List (AofCall × IOStatus)) (pf : PureFlash)
    (hrun : AofRun OpensExisting tr pf) : NamesKept tr pf := by
  have h : ∀ f, pf f ≠ none ↔ recorded f tr := by
    refine hrun.invariant
      (I := fun tr pf => ∀ f, pf f ≠ none ↔ recorded f tr) ?_ ?_
    · rintro pf rfl f
      exact iff_of_false (fun h => h rfl) id
    · rintro tr pf e pf' h ⟨hok, hstep⟩ f
      rw [(names_step_iff hstep).mpr hok f, propext (h f)]
      rfl
  exact ⟨fun f => (fileExists_ok_iff pf f).trans (h f),
    fun c hok => harmless_iff.mpr hok⟩

/-- Two names. -/
def aofA : FileName := ⟨[97], nul_not_mem_letter⟩

def aofB : FileName := ⟨[98], by decide⟩

/-- One file, empty, under the second name. -/
def renamedFiles : PureFlash :=
  Function.update (Function.update
    (Function.update (fun _ => none) aofA (some AofContent.empty)) aofA none)
    aofB (some AofContent.empty)

/-- A file made, renamed and opened for reading, and an open of its old
name that PureFlash refuses. -/
theorem aof_names_kept_renamed :
    NamesKept
      [(.newRandomAccessFile aofA (.failed (-5) (by decide)), .pathNotFound),
        (.newSequentialFile aofB .done, .ok),
        (.renameFile aofA aofB .done, .ok),
        (.newWritableFile aofA .done, .ok)] renamedFiles := by
  have hwritable : OpensExisting (fun _ => none)
      (.newWritableFile aofA .done) := nofun
  have hrename (pf : PureFlash) :
      OpensExisting pf (.renameFile aofA aofB .done) := nofun
  have hread : OpensExisting renamedFiles (.newSequentialFile aofB .done) := by
    intro f hf
    cases hf
    exact nofun
  have hrefused : OpensExisting renamedFiles
      (.newRandomAccessFile aofA (.failed (-5) (by decide))) := by
    intro f hf
    cases hf
  exact aof_names_kept _ renamedFiles
    (.step (.step (.step (.step (.init rfl) (.call hwritable rfl))
      (.call (hrename _) rfl)) (.call hread rfl)) (.call hrefused rfl))

-- -------------------------------------------------------- a stray file

/-- Opening a name for reading that was never created succeeds and makes
the file: it exists from then on, and nothing recorded it. -/
theorem read_open_creates_file :
    (∃ tr pf, AofRun (fun _ _ => True) tr pf
      ∧ tr = [(.newSequentialFile aofA .done, .ok)]
      ∧ fileExists pf aofA = .ok ∧ ¬ recorded aofA tr)
    ∧ (∃ tr pf, AofRun (fun _ _ => True) tr pf
      ∧ tr = [(.newRandomAccessFile aofA .done, .ok)]
      ∧ fileExists pf aofA = .ok ∧ ¬ recorded aofA tr) :=
  ⟨⟨_, _, .step (.init rfl) (.call trivial rfl), rfl, rfl, id⟩,
    ⟨_, _, .step (.init rfl) (.call trivial rfl), rfl, rfl, id⟩⟩

end ViveNas
