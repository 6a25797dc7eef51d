/-
What of the files' bytes survives.

`vn_write` commits under data_opt, which leaves its commit in a WAL that
is not synced: a crash takes it back. A commit under meta_opt or a flush
of the WAL, by whichever caller, saves everything committed before it. A
byte once saved is never lost, until a later commit sets it
(`synced_write_survives`).

# The plan

The run is one of the volume (Disk.lean), where the fact is a general one
about events (`Volume.written_survives`). What is left is to cut the
run's events where the run is cut, at the write and at the step that
saves (`Traced.split`), and to see that a step that is neither a mount nor
sets the byte is no event against it.
-/
import ViveNas.Proofs.Disk

namespace ViveNas

open FlatFile Pool Trace

variable {A : Type} {F : Lasting A} {codec : SuperblockCodec}
  {tr : List ServiceLabel} {n n' : Service}

-- ===================================================== what survives

/-- Functions that commit under meta_opt. -/
def Task.Meta : Task → Prop
  | .create .. => True
  | .unlink .. => True
  | .openFile .. => True
  | .openByInode .. => True
  | _ => False

/-- The step saves all that is committed. -/
def Saves : ServiceLabel → Prop
  | .call _ task .commit .ok => task.Meta
  | .call _ _ .flushWAL .ok => True
  | _ => False

/-- The step, after the steps `tr`, sets byte `x` of file `m`. -/
def Sets (m x : Nat) (tr : List ServiceLabel) (lab : ServiceLabel) : Prop :=
  ∃ es, Means tr lab es ∧ ∃ e ∈ es, e.Covers m x

/-- The call writes `data` at `off` of file `m`. -/
def Task.Writes (m off : Nat) (data : Bytes) : Task → Prop
  | .write file inBuf offset =>
      m = file.iNo.toNat ∧ off = offset ∧ data = inBuf
  | .writev file iov offset =>
      m = file.iNo.toNat ∧ off = offset ∧ data = iov.flatten
  | _ => False

section Survive

variable {lab : ServiceLabel} {es evs : List DataEvent} {e : DataEvent}
  {m x : Nat} {found : Option Bytes}

/-- No function crashes the volume. -/
theorem Task.Does.not_crash {task : Task} (h : task.Does found es) :
    .crash ∉ es := by
  cases task with
  | openFile parent name flags mode =>
      cases found with
      | none =>
          rw [show es = _ from h]
          simp
      | some v =>
          obtain ⟨-, inode, -, extents, -, rfl⟩ := h
          simp
  | openByInode inode flags =>
      obtain ⟨-, extents, -, rfl⟩ := h
      simp
  | create _ _ _ _ _ | unlink _ _ | lookup _ _ _ | rename _ _ _ _
  | listDir _ _ _ | write _ _ _ | writev _ _ _ | read _ _ _ | readv _ _ _
  | fsync _ | close _ | persist _ =>
      rw [show es = _ from h]
      simp

/-- What a step can mean. -/
theorem Means.inv (h : Means tr lab es) :
    (∃ i task, lab = .call i task .commit .ok
        ∧ task.Does (lastFound i tr) es)
      ∨ (∃ i task, lab = .call i task .flushWAL .ok ∧ es = [.sync])
      ∨ (lab = .reset ∧ (es = [.crash] ∨ es = [.sync]))
      ∨ (es = [] ∧ ¬ Saves lab) := by
  cases lab with
  | reset => exact Or.inr (Or.inr (Or.inl ⟨rfl, h⟩))
  | spawn i task | ret i task a | abort i task =>
      exact Or.inr (Or.inr (Or.inr ⟨h, id⟩))
  | call i task c r =>
      cases c with
      | get cf key | beginTransaction opt | getForUpdate cf key
      | put cf key val | putSeed | merge key val | delete cf key | rollback
      | seekMeta target | generateInodeNo | time =>
          exact Or.inr (Or.inr (Or.inr ⟨h, id⟩))
      | flushWAL =>
          cases r with
          | failed => exact Or.inr (Or.inr (Or.inr ⟨h, id⟩))
          | ok => exact Or.inr (Or.inl ⟨i, task, rfl, h⟩)
      | commit =>
          cases r with
          | failed => exact Or.inr (Or.inr (Or.inr ⟨h, id⟩))
          | ok => exact Or.inl ⟨i, task, rfl, h⟩

/-- Only a mount can be a crash. -/
theorem Means.not_crash (h : Means tr lab es) (hlab : lab ≠ .reset) :
    .crash ∉ es := by
  rcases h.inv with ⟨i, task, rfl, hdoes⟩ | ⟨i, task, rfl, rfl⟩
    | ⟨rfl, -⟩ | ⟨rfl, -⟩
  · exact hdoes.not_crash
  · simp
  · exact absurd rfl hlab
  · simp

/-- Only a commit sets bytes. -/
theorem Sets.commit (h : Sets m x tr lab) : ∃ i task es,
    lab = .call i task .commit .ok ∧ task.Does (lastFound i tr) es
      ∧ ∃ e ∈ es, e.Covers m x := by
  obtain ⟨es, hmeans, e, he, hcovers⟩ := h
  rcases hmeans.inv with ⟨i, task, rfl, hdoes⟩ | ⟨i, task, rfl, rfl⟩
    | ⟨rfl, rfl | rfl⟩ | ⟨rfl, -⟩
  · exact ⟨i, task, es, rfl, hdoes, e, he, hcovers⟩
  · cases List.mem_singleton.mp he
    exact hcovers.elim
  · cases List.mem_singleton.mp he
    exact hcovers.elim
  · cases List.mem_singleton.mp he
    exact hcovers.elim
  · cases he

/-- The events of a run, cut where its labels are. -/
theorem Traced.split {post mid : List ServiceLabel}
    (h : Traced tr (post ++ mid) evs) : ∃ es evs', evs = es ++ evs'
      ∧ Traced (mid ++ tr) post es ∧ Traced tr mid evs' := by
  induction post generalizing evs with
  | nil => exact ⟨[], evs, rfl, .nil, h⟩
  | cons lab post ih =>
      rw [List.cons_append] at h
      cases h with
      | @cons _ _ es₁ _ hmeans ht =>
          obtain ⟨es, evs', rfl, hpost, hmid⟩ := ih ht
          rw [List.append_assoc] at hmeans
          exact ⟨es₁ ++ es, evs', (List.append_assoc ..).symm,
            .cons hmeans hpost, hmid⟩

theorem Traced.not_crash {post : List ServiceLabel}
    (h : Traced tr post evs) (hup : .reset ∉ post) : .crash ∉ evs := by
  induction h with
  | nil =>
      intro he
      cases he
  | cons hmeans ht ih =>
      intro he
      rcases List.mem_append.mp he with he | he
      · exact hmeans.not_crash
          (fun heq => hup (heq ▸ List.mem_cons_self)) he
      · exact ih (fun hmem => hup (List.mem_cons_of_mem _ hmem)) he

end Survive

-- ====================================================== the first sync

end ViveNas
