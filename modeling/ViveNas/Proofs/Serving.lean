/-
Callers that come one after the other.

A function of the API run alone is a run of the service in which its
caller comes, makes its calls and leaves (`serve`). What System.lean and
its neighbours compute of a function can be put one behind the other
this way into a run of the service from a freshly formatted file system.

# Smooth runs

`Smooth` runs pass on what was handed out, stay in range, and nothing
fails in them. A function run alone over a store that does not fail is
one (`exec_calm`, `observe_well`), by `run_solo` of Alone.lean; it
leaves the service idle again, so the next caller can come.
-/
import ViveNas.Proofs.Alone
import ViveNas.Proofs.System
import ViveNas.Service

namespace ViveNas

open Pool

variable {A : Type} {F : Lasting A} {codec : SuperblockCodec}
  {tr : List ServiceLabel} {n : Service} {w w' : World}

/-- Nobody is there, the stores are those of the world, and no call is
going to fail. -/
structure Service.Idle (n : Service) (w : World) : Prop where
  threads : n.threads = fun _ => none
  locks : n.shared.locks = fun _ => none
  agrees : n.shared.Agrees w
  tx : w.tx = none
  calm : Calm w

/-- The call went well. -/
def StoreCall.Well : (c : StoreCall) → c.Resp → Prop
  | .get _ _, r => r ≠ .failed
  | .getForUpdate _ _, r => r ≠ .failed
  | .put _ _ _, r => r = .ok
  | .putSeed, r => r = .ok
  | .merge _ _, r => r = .ok
  | .delete _ _, r => r = .ok
  | .commit, r => r = .ok
  | .flushWAL, r => r = .ok
  | _, _ => True

/-- Calls on what was handed out, in range, that go well. -/
def Smooth (F : Lasting A) (s : Shared) : ServiceLabel → Prop
  | .spawn i task => Proper F s (.spawn i task) ∧ task.InRange
  | .call i task c r => Proper F s (.call i task c r) ∧ c.Well r
  | _ => True

theorem StoreCall.Well.kept {c : StoreCall} {r : c.Resp} (h : c.Well r) :
    c.Kept r := by
  cases c with
  | put cf key val => exact fun _ => h
  | delete cf key => exact fun _ => h
  | merge key val => exact h
  | get cf key | beginTransaction opt | getForUpdate cf key | putSeed | commit
  | rollback | flushWAL | seekMeta target | generateInodeNo | time =>
      exact trivial

/-- Where nothing fails, no write of an extent does. -/
theorem Smooth.reliable {s : Shared} {lab : ServiceLabel}
    (h : Smooth F s lab) : Reliable F s lab := by
  cases lab with
  | spawn i task => exact h
  | call i task c r => exact ⟨h.1, h.2.kept⟩
  | ret i task a | abort i task => exact trivial
  | reset => exact trivial

/-- Runs in which all goes well are runs under the weaker conditions. -/
theorem run_of_smooth {ok : Shared → ServiceLabel → Prop}
    (hok : ∀ s l, Smooth F s l → ok s l)
    (hrun : ServiceRun codec (Smooth F) tr n) : ServiceRun codec ok tr n :=
  hrun.mono (P := fun _ => True) (fun _ _ _ => trivial)
    (fun _ _ _ _ _ _ hs => hs.mono hok) trivial

/-- ... and such runs are runs of the service as it is. -/
theorem proper_of_smooth (hrun : ServiceRun codec (Smooth F) tr n) :
    ServiceRun codec (Proper F) tr n :=
  run_of_smooth (fun _ _ h => h.reliable.proper) hrun

-- ======================================================== nothing fails

theorem replyGet_well (h : Calm w) {s : Store} {cf : Cf} {key : Bytes}
    {r : GetStatus} (hr : w.replyGet s cf key = .ok (r, w')) :
    r ≠ .failed ∧ Calm w' := by
  rw [World.replyGet, ← outcomeAt_zero, advance_eq_skip, h.outcomeAt, h.skip,
    if_pos rfl] at hr
  cases hget : s.get cf key with
  | error e =>
      rw [hget] at hr
      cases hr
  | ok v =>
      rw [hget] at hr
      cases v with
      | none =>
          cases hr
          exact ⟨fun h => (by cases h), h⟩
      | some u =>
          cases hr
          exact ⟨fun h => (by cases h), h⟩

/-- While no failure is scripted a write succeeds and leaves none
scripted. -/
theorem replyWrite_well (h : Calm w) {f : World → World} (hf : Calm (f w))
    {r : Status} (hr : w.replyWrite f = .ok (r, w')) :
    r = .ok ∧ Calm w' := by
  rw [World.replyWrite, ← outcomeAt_zero, advance_eq_skip, h.outcomeAt,
    h.skip, if_pos rfl] at hr
  cases hr
  exact ⟨rfl, hf⟩

/-- Where no call is going to fail, the next goes well and that stays
so. -/
theorem handle_well (h : Calm w) {c : StoreCall} {r : c.Resp}
    (hr : w.handle c = .ok (r, w')) : c.Well r ∧ Calm w' := by
  cases c with
  | get cf key | getForUpdate cf key => exact replyGet_well h hr
  | put cf key val | putSeed | merge key val | delete cf key | flushWAL =>
      unfold World.handle at hr
      exact replyWrite_well h (by exact h) hr
  | commit =>
      unfold World.handle at hr
      refine replyWrite_well h ?_ hr
      unfold World.commitTx
      split <;> exact h
  | beginTransaction opt | rollback | seekMeta target | time =>
      cases hr
      exact ⟨trivial, h⟩
  | generateInodeNo =>
      unfold World.handle at hr
      dsimp only at hr
      split at hr
      · cases hr
        exact ⟨trivial, h⟩
      · cases hr

/-- So a function leaves a calm world calm. -/
theorem exec_calm {α : Type} {p : Fs α} {a : α} (h : Calm w)
    (hexec : p.exec w = .ok (a, w')) : Calm w' := by
  induction p generalizing w with
  | ret b =>
      cases hexec
      exact h
  | raise e => cases hexec
  | call c k ih =>
      rw [Fs.exec, Prog.run] at hexec
      split at hexec
      next r w₁ hhandle => exact ih r (handle_well h hhandle).2 hexec
      next e hhandle => cases hexec

/-- The calls of a program run alone go well. -/
theorem observe_well {α : Type} {p : Fs α} (h : Calm w) :
    ∀ e ∈ p.observe World.handle (Prog.answered World.handle) w,
      e.1.Well e.2 := by
  induction p generalizing w with
  | ret b | raise e =>
      intro e he
      cases he
  | call c k ih =>
      intro e he
      rw [Prog.observe, Prog.answered] at he
      split at he
      next r w₁ hhandle =>
        obtain ⟨hwell, hcalm⟩ := handle_well h hhandle
        rcases List.mem_append.mp he with he | he
        · cases List.mem_singleton.mp he
          exact hwell
        · exact ih r hcalm e he
      next e' hhandle => cases he

-- ============================================================= one by one

/-- A service on a file system just formatted and mounted. -/
def freshService (codec : SuperblockCodec) : Service :=
  ⟨⟨formattedStore codec, formattedStore codec, vnFirstUserIno,
    fun _ => none⟩, fun _ => none⟩

theorem freshService_fresh : (freshService codec).Fresh codec := by
  have hshape : StoreShape codec (formattedStore codec) vnFirstUserIno :=
    formattedStore_shape
  have hseed : (formattedStore codec).metaCf[inodeSeedKey]?
      = some (LittleEndian.leBytes 8 vnFirstUserIno) :=
    (formattedStore_meta inodeSeedKey).trans (if_pos rfl)
  let w : World := ⟨formattedStore codec, formattedStore codec, none, 0, 0, []⟩
  have hcalm : Calm w := rfl
  exact ⟨rfl, 0, 0, _, exec_vnMkfsVivefs rfl, formattedStore codec, 0, _, w,
    Or.inl rfl, exec_vnMount hcalm hseed (by decide) hshape.superblock, rfl⟩

/-- There is no other. -/
theorem Service.Fresh.eq {n : Service} (h : n.Fresh codec) :
    n = freshService codec := by
  obtain ⟨hthreads, clock, r, w, hmkfs, db, clock', ctx, w', hdb, hmount,
    hshared⟩ := h
  rw [exec_vnMkfsVivefs (w := blankWorld clock) rfl] at hmkfs
  obtain ⟨-, rfl⟩ := Prod.mk.inj (Except.ok.inj hmkfs)
  obtain rfl : db = formattedStore codec := hdb.elim id id
  have hshape : StoreShape codec (formattedStore codec) vnFirstUserIno :=
    formattedStore_shape
  rw [exec_vnMount
    (w := ⟨formattedStore codec, formattedStore codec, none, 0, clock', []⟩)
    rfl ((formattedStore_meta inodeSeedKey).trans (if_pos rfl)) (by decide)
    hshape.superblock] at hmount
  obtain ⟨hctx, -⟩ := Prod.mk.inj (Except.ok.inj hmount)
  obtain ⟨shared, threads⟩ := n
  obtain rfl : threads = fun _ => none := hthreads
  obtain rfl : shared = _ := hshared
  rw [← Option.some.inj hctx]
  rfl

/-- A freshly mounted service is idle in the world after the mount. -/
theorem freshService_idle (addr : Nat) :
    (freshService codec).Idle (mountedSys codec 0 addr).world :=
  ⟨rfl, rfl, ⟨rfl, rfl, rfl⟩, rfl, rfl⟩

/-- A caller by itself, from its first call to its return: the newest
label first. -/
def served (task : Task) (a : Answer) (w : World) : List ServiceLabel :=
  .ret 0 task a :: (soloLabels 0 task task.prog w ++ [.spawn 0 task])

section Served

variable {task t : Task} {a : Answer} {i : Nat} {c : StoreCall} {r : c.Resp}

end Served

/-- A task run alone is a caller that comes to an idle service, makes its
calls and returns; the service is idle in the world it leaves. -/
theorem serve (hrun : ServiceRun codec (Smooth F) tr n) (hidle : n.Idle w)
    {task : Task} {a : Answer} (hgiven : task.Given F w.db)
    (hexec : task.prog.exec w = .ok (a, w')) (hrange : task.InRange)
    (hplain : w'.inodeSeed < plainNos) :
    ∃ n', ServiceRun codec (Smooth F) (served task a w ++ tr) n'
      ∧ n'.Idle w'.idle := by
  have hfree : n.threads 0 = none := by rw [hidle.threads]
  rw [← hidle.agrees.db] at hgiven
  have hspawn : ServiceRun codec (Smooth F) (.spawn 0 task :: tr)
      ⟨n.shared, Function.update n.threads 0
        (some ⟨task, task.prog, none⟩)⟩ :=
    hrun.step (.spawn hfree ⟨hgiven, hrange⟩)
  have hcalls : ∀ s : Shared, s.inodeSeed ≤ w'.inodeSeed →
      ∀ e ∈ task.prog.observe World.handle (Prog.answered World.handle) w,
        Smooth F s (.call 0 task e.1 e.2) := by
    intro s hseed e he
    refine ⟨?_, observe_well hidle.calm e he⟩
    obtain ⟨c, r⟩ := e
    cases c with
    | generateInodeNo => exact Nat.lt_of_le_of_lt hseed hplain
    | get cf key | beginTransaction opt | getForUpdate cf key
    | put cf key val | putSeed | merge key val | delete cf key | commit
    | rollback | flushWAL | seekMeta target | time => exact trivial
  have hthread : Function.update n.threads 0
      (some ⟨task, task.prog, none⟩) 0 = some ⟨task, task.prog, w.tx⟩ := by
    rw [hidle.tx]
    exact Function.update_self ..
  obtain ⟨s', hrun', hs', hgrants⟩ := run_solo (i := 0) rfl hspawn
    hthread hidle.agrees (fun key => Or.inl (congrFun hidle.locks key))
    hcalls hexec
  have hret := hrun'.step (.ret (Function.update_self ..) rfl trivial)
  have hcalm : Calm w' := exec_calm hidle.calm hexec
  rw [served, List.cons_append, List.append_assoc]
  refine ⟨_, hret, ?_, Shared.release_locks hgrants,
    ⟨hs'.db, hs'.durable, hs'.inodeSeed⟩, rfl, hcalm⟩
  show Function.update (Function.update (Function.update n.threads 0 _) 0 _)
    0 none = fun _ => none
  rw [Function.update_idem, Function.update_idem, hidle.threads]
  exact Function.update_eq_self (f := fun _ => none) 0

-- ========================================================== the first file

/-- The first create of all. -/
def firstTask : Task := .create vnRootIno nameA 0 0 0

theorem fileNo_first : FileNo vnFirstUserIno := ⟨Nat.le_refl _, by decide⟩

/-- Its file, number 12. -/
def firstInode : ViveInode := newInode vnFirstUserIno 0 0 0 0

theorem firstTask_given (db : Store) : firstTask.Given F db where
  inode n hn := by cases hn
  file f hf := by cases hf

/-- A run in which the first file is made, and nobody is left. -/
theorem smooth_firstTask (F : Lasting A) (codec : SuperblockCodec) :
    ∃ n, ServiceRun codec (Smooth F) (served firstTask
        (.inode vnFirstUserIno (some firstInode))
        (mountedSys codec 0 0).world ++ []) n
      ∧ n.Idle (oneFileSys codec 0 0).world := by
  have hexec : firstTask.prog.exec (mountedSys codec 0 0).world
      = .ok (.inode vnFirstUserIno (some firstInode),
        (oneFileSys codec 0 0).world) :=
    (exec_bind_ok (exec_vnCreateFile_first 0 0 vnRootIno nameA 0 0 0)).trans
      rfl
  exact serve (.init freshService_fresh) (freshService_idle 0)
    (firstTask_given _) hexec trivial
    (show vnFirstUserIno + 1 < plainNos by decide)

/-- The run with one file, which the examples start from. -/
theorem run_firstTask (F : Lasting A) (codec : SuperblockCodec) :
    ∃ tr n, ServiceRun codec (Proper F)
        (.ret 0 firstTask (.inode vnFirstUserIno (some firstInode)) :: tr) n
      ∧ n.Idle (oneFileSys codec 0 0).world := by
  obtain ⟨n, hrun, hidle⟩ := smooth_firstTask F codec
  exact ⟨_, n, proper_of_smooth hrun, hidle⟩

/-- No read of a key failed. -/
def AllRead (tr : List ServiceLabel) : Prop :=
  ∀ i task cf key, Label.call i task (.get cf key) .failed ∉ tr

/-- In a smooth run every `Get` was answered. -/
theorem allRead_of_smooth (hrun : ServiceRun codec (Smooth F) tr n) :
    AllRead tr := by
  intro i task cf key
  induction hrun with
  | init h =>
      intro hmem
      cases hmem
  | step hrun hstep ih =>
      intro hmem
      rcases List.mem_cons.mp hmem with rfl | hmem
      · cases hstep with
        | call hthread hrest hreply hok => exact hok.2 rfl
      · exact ih hmem

/-- A run in which a second caller comes after that. -/
theorem run_secondTask {task : Task} {a : Answer}
    (hgiven : task.Given F (oneFileSys codec 0 0).world.db)
    (hexec : task.prog.exec (oneFileSys codec 0 0).world = .ok (a, w'))
    (hrange : task.InRange) (hplain : w'.inodeSeed < plainNos) :
    ∃ (tr : List ServiceLabel) (n n' : Service),
      ServiceRun codec (Proper F) tr n
      ∧ Step (service codec) (Proper F) n (.ret 0 task a) n'
      ∧ AllRead tr := by
  obtain ⟨n, hrun, hidle⟩ := smooth_firstTask F codec
  obtain ⟨n', hrun', -⟩ := serve hrun hidle hgiven hexec hrange hplain
  cases hrun' with
  | step hbefore hret =>
      exact ⟨_, _, n', proper_of_smooth hbefore,
        hret.mono fun _ _ h => h.reliable.proper, allRead_of_smooth hbefore⟩

end ViveNas
