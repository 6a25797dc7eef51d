/-
The counts of a file and its users, over whole runs.

Each step changes the counts by what it does to the list of live objects,
but for one: an open for reading that succeeds and whose read cache then
fails. The factory has counted it, the constructor throws, and no
destructor will ever take the count back. A run is balanced as long as it
has no such step (`balanced_step_iff`), and an open that fails in any
other way returns a status and leaves everything as it was.
-/
import ViveNas.AofUsers

namespace ViveNas

open AofUsers

variable {s s' : AofUsers} {u : AofUse} {r : CallEnd}

-- ============================================================ the counts

/-- The counts are those of the live objects. -/
structure Balanced (s : AofUsers) : Prop where
  readers : s.readerCnt = (s.objects.countP AofUser.isReader : Nat)
  writers : s.writerCnt = (s.objects.countP AofUser.isWriter : Nat)
  refs : s.refs = s.readerCnt + s.writerCnt

/-- A count over a list, split at one of its places. -/
theorem countP_eraseIdx_add {α : Type} {l : List α} {i : Nat} {a : α}
    (p : α → Bool) (ha : l[i]? = some a) :
    l.countP p = (l.eraseIdx i).countP p + if p a then 1 else 0 := by
  obtain ⟨hi, ha⟩ := List.getElem?_eq_some_iff.mp ha
  rw [← (List.getElem_cons_eraseIdx_perm hi).countP_eq p, ha, List.countP_cons]

theorem countP_set_add {α : Type} {l : List α} {i : Nat} {a : α}
    (p : α → Bool) (ha : l[i]? = some a) (b : α) :
    (l.set i b).countP p = (l.eraseIdx i).countP p + if p b then 1 else 0 := by
  obtain ⟨hi, -⟩ := List.getElem?_eq_some_iff.mp ha
  rw [(List.set_perm_cons_eraseIdx hi b).countP_eq p, List.countP_cons]

theorem countP_concat_add {α : Type} (l : List α) (p : α → Bool) (b : α) :
    (l ++ [b]).countP p = l.countP p + if p b then 1 else 0 := by
  rw [List.countP_append, List.countP_singleton]

/-- Counts that change as the list of objects does. -/
theorem Balanced.moved (h : Balanced s) (readers writers : Int)
    (hreader : s'.readerCnt = s.readerCnt + readers)
    (hwriter : s'.writerCnt = s.writerCnt + writers)
    (href : s'.refs = s.refs + (readers + writers))
    (hreaders : (s'.objects.countP AofUser.isReader : Int)
      = s.objects.countP AofUser.isReader + readers)
    (hwriters : (s'.objects.countP AofUser.isWriter : Int)
      = s.objects.countP AofUser.isWriter + writers) : Balanced s' where
  readers := by rw [hreader, h.readers, hreaders]
  writers := by rw [hwriter, h.writers, hwriters]
  refs := by
    rw [href, hreader, hwriter, h.refs]
    omega

-- ============================================================= one step

/-- The read cache of a reader is set up, if it comes to that. -/
def AofUse.cacheReady : AofUse → Prop
  | .newSequentialFile out rc => out = .done → rc = 0
  | .newRandomAccessFile out rc => out = .done → rc = 0
  | _ => True

/-- An open that does not succeed, in PureFlash or in the read cache. -/
def AofUse.fails : AofUse → Prop
  | .newSequentialFile out rc => out ≠ .done ∨ rc ≠ 0
  | .newRandomAccessFile out rc => out ≠ .done ∨ rc ≠ 0
  | .newWritableFile out => out ≠ .done
  | _ => False

/-- If `u` is an open that fails, it returns a status that is not OK and
leaves the file's users as they were. -/
def FailsCleanly (s : AofUsers) (u : AofUse) : Prop :=
  u.fails → ∃ status, status ≠ .ok ∧ s.step u = .ok (.returned status, s)

/-- A reader is counted for good exactly if there is one. -/
theorem balanced_newReader_iff (h : Balanced s) {object : AofUser}
    (hreader : object.isReader = true) (hwriter : object.isWriter = false)
    (out : PfOutcome) (rc : Int) :
    Balanced (newReader object s out rc).2 ↔ (out = .done → rc = 0) := by
  cases out with
  | failed code neg => exact iff_of_true h nofun
  | done =>
      by_cases hrc : rc = 0
      · have hcount := countP_concat_add s.objects AofUser.isReader object
        have hcount' := countP_concat_add s.objects AofUser.isWriter object
        rw [hreader, if_pos rfl] at hcount
        rw [hwriter] at hcount'
        rw [newReader, if_neg (not_not.mpr hrc)]
        refine iff_of_true ?_ fun _ => hrc
        exact h.moved 1 0 rfl (Int.add_zero _).symm rfl
          (congrArg Nat.cast hcount) (congrArg Nat.cast hcount')
      · -- counted, and never there
        rw [newReader, if_pos hrc]
        refine iff_of_false (fun h' => ?_) fun hready => hrc (hready rfl)
        have hcount : s.readerCnt + 1 = (s.objects.countP _ : Nat) := h'.readers
        have hbefore := h.readers
        omega

theorem Balanced.newWritableFile (h : Balanced s) (out : PfOutcome) :
    Balanced (s.newWritableFile out).2 := by
  cases out with
  | failed code neg => exact h
  | done =>
      have hreader := countP_concat_add s.objects AofUser.isReader
        (.writeableFile false)
      have hwriter := countP_concat_add s.objects AofUser.isWriter
        (.writeableFile false)
      exact h.moved 0 1 (Int.add_zero _).symm rfl rfl
        (congrArg Nat.cast hreader) (congrArg Nat.cast hwriter)

theorem Balanced.close (h : Balanced s) {i : Nat}
    (hclose : s.close i = .ok (r, s')) : Balanced s' := by
  rw [AofUsers.close] at hclose
  split at hclose
  case h_1 hobject =>
    have hreader := countP_eraseIdx_add AofUser.isReader hobject
    have hwriter := countP_eraseIdx_add AofUser.isWriter hobject
    have hreader' := countP_set_add AofUser.isReader hobject
      (.writeableFile true)
    have hwriter' := countP_set_add AofUser.isWriter hobject
      (.writeableFile true)
    cases hclose
    refine h.moved 0 (-1) (Int.add_zero _).symm rfl rfl ?_ ?_
    · rw [hreader', hreader]
      rfl
    · rw [hwriter', hwriter]
      simp [AofUser.isWriter]
  case h_2 => cases hclose

/-- A reader that is destroyed is counted no longer. -/
theorem Balanced.dropReader (h : Balanced s) {i : Nat} {object : AofUser}
    (hobject : s.objects[i]? = some object)
    (hreader : object.isReader = true) (hwriter : object.isWriter = false) :
    Balanced { s.dropReader with objects := s.objects.eraseIdx i } := by
  have hcount := countP_eraseIdx_add AofUser.isReader hobject
  have hcount' := countP_eraseIdx_add AofUser.isWriter hobject
  rw [hreader, if_pos rfl] at hcount
  rw [hwriter] at hcount'
  refine h.moved (-1) 0 rfl (Int.add_zero _).symm rfl ?_ ?_
  · show ((s.objects.eraseIdx i).countP _ : Int) = _
    rw [hcount]
    omega
  · rw [hcount']
    rfl

theorem Balanced.destroy (h : Balanced s) {i : Nat}
    (hdestroy : s.destroy i = .ok (r, s')) : Balanced s' := by
  rw [AofUsers.destroy] at hdestroy
  cases hobject : s.objects[i]? with
  | none =>
      rw [hobject] at hdestroy
      cases hdestroy
  | some object =>
      rw [hobject] at hdestroy
      cases object with
      | seqFile =>
          cases hdestroy
          exact h.dropReader hobject rfl rfl
      | randomFile =>
          cases hdestroy
          exact h.dropReader hobject rfl rfl
      | writeableFile closed =>
          have hreader := countP_eraseIdx_add AofUser.isReader hobject
          have hwriter := countP_eraseIdx_add AofUser.isWriter hobject
          cases closed with
          | false =>
              cases hdestroy
              refine h.moved 0 (-1) (Int.add_zero _).symm rfl rfl ?_ ?_
              · simp [hreader, AofUser.isReader]
              · simp [hwriter, AofUser.isWriter]
          | true =>
              cases hdestroy
              refine h.moved 0 0 (Int.add_zero _).symm (Int.add_zero _).symm
                (Int.add_zero _).symm ?_ ?_
              · simp [hreader, AofUser.isReader]
              · simp [hwriter, AofUser.isWriter]

/-- A step keeps the balance exactly if no read cache fails in it. -/
theorem balanced_step_iff (h : Balanced s) (hstep : s.step u = .ok (r, s')) :
    Balanced s' ↔ u.cacheReady := by
  cases u with
  | newSequentialFile out rc =>
      have hafter : (newReader .seqFile s out rc).2 = s' :=
        congrArg Prod.snd (Except.ok.inj hstep)
      rw [← hafter]
      exact balanced_newReader_iff h rfl rfl out rc
  | newRandomAccessFile out rc =>
      have hafter : (newReader .randomFile s out rc).2 = s' :=
        congrArg Prod.snd (Except.ok.inj hstep)
      rw [← hafter]
      exact balanced_newReader_iff h rfl rfl out rc
  | newWritableFile out =>
      have hafter : (s.newWritableFile out).2 = s' :=
        congrArg Prod.snd (Except.ok.inj hstep)
      rw [← hafter]
      exact iff_of_true (h.newWritableFile out) trivial
  | close i => exact iff_of_true (h.close hstep) trivial
  | destroy i => exact iff_of_true (h.destroy hstep) trivial

theorem failsCleanly_newReader_iff (object : AofUser) (s : AofUsers)
    (out : PfOutcome) (rc : Int) :
    (out ≠ .done ∨ rc ≠ 0 → ∃ status, status ≠ .ok
        ∧ newReader object s out rc = (.returned status, s))
      ↔ (out = .done → rc = 0) := by
  cases out with
  | failed code neg =>
      exact iff_of_true (fun _ => ⟨.pathNotFound, nofun, rfl⟩) nofun
  | done =>
      by_cases hrc : rc = 0
      · refine iff_of_true (fun h => ?_) fun _ => hrc
        exact absurd hrc (h.resolve_left fun hne => hne rfl)
      · refine iff_of_false (fun h => ?_) fun hready => hrc (hready rfl)
        obtain ⟨status, -, hrun⟩ := h (Or.inr hrc)
        rw [newReader, if_pos hrc] at hrun
        cases hrun

/-- An open fails cleanly exactly if it is not its read cache that
fails. -/
theorem failsCleanly_iff (s : AofUsers) (u : AofUse) :
    FailsCleanly s u ↔ u.cacheReady := by
  cases u with
  | newSequentialFile out rc =>
      rw [FailsCleanly, AofUsers.step]
      simp only [Except.ok.injEq]
      exact failsCleanly_newReader_iff .seqFile s out rc
  | newRandomAccessFile out rc =>
      rw [FailsCleanly, AofUsers.step]
      simp only [Except.ok.injEq]
      exact failsCleanly_newReader_iff .randomFile s out rc
  | newWritableFile out =>
      refine iff_of_true (fun hfails => ?_) trivial
      cases out with
      | failed code neg => exact ⟨.pathNotFound, nofun, rfl⟩
      | done => exact absurd rfl hfails
  | close i => exact iff_of_true nofun trivial
  | destroy i => exact iff_of_true nofun trivial

-- ============================================================ whole runs

/-- The counts are those of the live objects, and an open that fails
changes none of them, unless its read cache does. -/
structure CountsKept (s : AofUsers) : Prop where
  balanced : Balanced s
  failures : ∀ u : AofUse, u.cacheReady → FailsCleanly s u

/-- In every run in which the read cache of each opened reader can be set
up. -/
theorem user_counts_kept (tr : List (AofUse × CallEnd)) (s : AofUsers)
    (hrun : UsersRun AofUse.cacheReady tr s) : CountsKept s := by
  have hbalanced : Balanced s := by
    refine hrun.invariant (I := fun _ s => Balanced s) ?_ ?_
    · intro s hinit
      rw [hinit]
      exact ⟨rfl, rfl, rfl⟩
    · intro tr s e s' h hstep
      obtain ⟨hok, hstep⟩ := hstep
      exact (balanced_step_iff h hstep).mpr hok
  exact ⟨hbalanced, fun u hready => (failsCleanly_iff s u).mpr hready⟩

/-- A reader and a writer that overlap: the writer is closed and
destroyed, the reader stays, and an open is refused in between. -/
theorem user_counts_kept_overlap :
    CountsKept ⟨1, 1, 0, [.seqFile]⟩ := by
  refine user_counts_kept
    [(.destroy 1, .returned .ok),
      (.newRandomAccessFile (.failed (-5) (by decide)) 0,
        .returned .pathNotFound),
      (.close 1, .returned .ok), (.newWritableFile .done, .returned .ok),
      (.newSequentialFile .done 0, .returned .ok)] _ ?_
  exact .step (.step (.step (.step (.step (.init rfl)
    (.call (fun _ => rfl) rfl)) (.call trivial rfl)) (.call trivial rfl))
    (.call nofun rfl)) (.call trivial rfl)

-- ------------------------------------------------------ a reader too many

/-- A read cache that fails ends either open for reading with an
exception, and leaves a reader and a reference that no object holds. -/
theorem failed_cache_leaks :
    (∃ tr what, UsersRun (fun _ => True) tr ⟨1, 1, 0, []⟩
      ∧ tr = [(.newSequentialFile .done (-12), .threw what)])
    ∧ (∃ tr what, UsersRun (fun _ => True) tr ⟨1, 1, 0, []⟩
      ∧ tr = [(.newRandomAccessFile .done (-12), .threw what)])
    ∧ ¬ Balanced ⟨1, 1, 0, []⟩ :=
  ⟨⟨_, _, .step (.init rfl) (.call trivial rfl), rfl⟩,
    ⟨_, _, .step (.init rfl) (.call trivial rfl), rfl⟩,
    fun h => absurd h.readers (by decide)⟩

end ViveNas
