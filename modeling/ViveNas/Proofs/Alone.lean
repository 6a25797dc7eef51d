/-
One caller with the store to itself.

`World` (Store.lean) runs a function alone, `reply` (Concurrent.lean) one
call of it among others. The first is a case of the second: while no
other caller holds a lock, what a call does to the world is something it
may do to the shared state (`reply_of_handle`), so a function run alone
is a run of any pool of callers over the store, with the same calls and
replies (`run_solo`).
-/
import ViveNas.Concurrent

namespace ViveNas

open LittleEndian Pool

variable {codec : SuperblockCodec} {s : Shared} {w w' : World} {i : Nat}

/-- The shared state is what the world has of it. -/
structure Shared.Agrees (s : Shared) (w : World) : Prop where
  db : s.db = w.db
  durable : s.durable = w.durable
  inodeSeed : s.inodeSeed = w.inodeSeed

theorem Shared.grants_release (h : ∀ key, s.Grants i key) :
    ∀ key, (s.release i).Grants i key :=
  fun key => Or.inl (congrFun (Shared.release_locks h) key)

-- ============================================================ one call

theorem replies_of_replyGet {db : Store} {cf : Cf} {key : Bytes}
    {r : GetStatus} (h : w.replyGet db cf key = .ok (r, w')) :
    db.Replies cf key r ∧ w' = w.advance := by
  rw [World.replyGet] at h
  split at h
  · cases hget : db.get cf key with
    | error e => rw [hget] at h; cases h
    | ok v =>
        rw [hget] at h
        cases v with
        | none => cases h; exact ⟨hget, rfl⟩
        | some v => cases h; exact ⟨hget, rfl⟩
  · cases h
    exact ⟨trivial, rfl⟩

theorem outcome_of_replyWrite {f : World → World} {r : Status}
    (h : w.replyWrite f = .ok (r, w')) :
    (r = .ok ∧ w' = f w.advance) ∨ (r = .failed ∧ w' = w.advance) := by
  rw [World.replyWrite] at h
  split at h
  · cases h
    exact Or.inl ⟨rfl, rfl⟩
  · cases h
    exact Or.inr ⟨rfl, rfl⟩

/-- A write call, with its lock free. -/
theorem writes_of_replyWrite (hs : s.Agrees w)
    (hgrants : ∀ key, s.Grants i key) (key : Cf × Bytes) {op : WriteOp}
    {r : Status} (h : w.replyWrite (·.push op) = .ok (r, w')) :
    ∃ s', s.Writes i w.tx key op r s' w'.tx ∧ s'.Agrees w'
      ∧ ∀ key, s'.Grants i key := by
  obtain ⟨rfl, rfl⟩ | ⟨rfl, rfl⟩ := outcome_of_replyWrite h
  · exact ⟨s.lock i key, Or.inl ⟨rfl, hgrants key, rfl, rfl⟩,
      ⟨hs.db, hs.durable, hs.inodeSeed⟩, Shared.grants_lock hgrants key⟩
  · exact ⟨s, Or.inr ⟨rfl, rfl, rfl⟩, ⟨hs.db, hs.durable, hs.inodeSeed⟩,
      hgrants⟩

theorem Shared.Agrees.commitTx (hs : s.Agrees w) :
    (s.commitTx i w.tx).Agrees w.commitTx := by
  obtain ⟨hdb, hdurable, hseed⟩ := hs
  unfold World.commitTx Shared.commitTx
  cases w.tx with
  | none => exact ⟨hdb, hdurable, hseed⟩
  | some t => exact ⟨by rw [hdb], by rw [hdb, hdurable], hseed⟩

/-- What a call does alone, it may do among others. -/
theorem reply_of_handle {c : StoreCall} {r : c.Resp} (hs : s.Agrees w)
    (hgrants : ∀ key, s.Grants i key) (h : w.handle c = .ok (r, w')) :
    ∃ s', reply i c s w.tx r s' w'.tx ∧ s'.Agrees w'
      ∧ ∀ key, s'.Grants i key := by
  cases c with
  | get cf key =>
      obtain ⟨hreplies, rfl⟩ := replies_of_replyGet h
      rw [← hs.db] at hreplies
      exact ⟨s, ⟨hreplies, rfl, rfl⟩, ⟨hs.db, hs.durable, hs.inodeSeed⟩,
        hgrants⟩
  | beginTransaction opt =>
      cases h
      exact ⟨s, ⟨rfl, rfl⟩, ⟨hs.db, hs.durable, hs.inodeSeed⟩, hgrants⟩
  | getForUpdate cf key =>
      obtain ⟨hreplies, rfl⟩ := replies_of_replyGet h
      rw [← hs.db] at hreplies
      exact ⟨s.lock i (cf, key), Or.inl ⟨hgrants _, hreplies, rfl, rfl⟩,
        ⟨hs.db, hs.durable, hs.inodeSeed⟩, Shared.grants_lock hgrants _⟩
  | put cf key val => exact writes_of_replyWrite hs hgrants (cf, key) h
  | putSeed =>
      have hseed : w.replyWrite (·.push (.put .metaCf inodeSeedKey
          (leBytes 8 s.inodeSeed))) = .ok (r, w') := by
        rw [hs.inodeSeed]
        exact h
      exact writes_of_replyWrite hs hgrants (.metaCf, inodeSeedKey) hseed
  | merge key val => exact writes_of_replyWrite hs hgrants (.dataCf, key) h
  | delete cf key => exact writes_of_replyWrite hs hgrants (cf, key) h
  | commit =>
      obtain ⟨rfl, rfl⟩ | ⟨rfl, rfl⟩ := outcome_of_replyWrite h
      · have hnone : w.advance.commitTx.tx = none := by
          unfold World.commitTx
          cases htx : w.advance.tx with
          | none => exact htx
          | some t => rfl
        have hagrees : (s.commitTx i w.tx).Agrees w.advance.commitTx :=
          Shared.Agrees.commitTx (w := w.advance)
            ⟨hs.db, hs.durable, hs.inodeSeed⟩
        refine ⟨s.commitTx i w.tx, Or.inl ⟨rfl, rfl, hnone⟩, hagrees, ?_⟩
        cases w.tx with
        | none => exact Shared.grants_release hgrants
        | some t => exact Shared.grants_release hgrants
      · exact ⟨s, Or.inr ⟨rfl, rfl, rfl⟩, ⟨hs.db, hs.durable, hs.inodeSeed⟩,
          hgrants⟩
  | rollback =>
      cases h
      exact ⟨s.release i, ⟨rfl, rfl⟩, ⟨hs.db, hs.durable, hs.inodeSeed⟩,
        Shared.grants_release hgrants⟩
  | flushWAL =>
      obtain ⟨rfl, rfl⟩ | ⟨rfl, rfl⟩ := outcome_of_replyWrite
        (f := fun w => { w with durable := w.db }) h
      · exact ⟨{ s with durable := s.db }, Or.inl ⟨rfl, rfl, rfl⟩,
          ⟨hs.db, hs.db, hs.inodeSeed⟩, hgrants⟩
      · exact ⟨s, Or.inr ⟨rfl, rfl, rfl⟩, ⟨hs.db, hs.durable, hs.inodeSeed⟩,
          hgrants⟩
  | seekMeta target =>
      cases h
      exact ⟨s, ⟨by rw [hs.db], rfl, rfl⟩, hs, hgrants⟩
  | generateInodeNo =>
      rw [World.handle] at h
      split at h
      · next hlt =>
        cases h
        rw [← hs.inodeSeed] at hlt
        exact ⟨{ s with inodeSeed := s.inodeSeed + 1 },
          ⟨hs.inodeSeed.symm, hlt, rfl, rfl⟩,
          ⟨hs.db, hs.durable, congrArg (· + 1) hs.inodeSeed⟩, hgrants⟩
      · cases h
  | time =>
      cases h
      exact ⟨s, ⟨rfl, rfl⟩, hs, hgrants⟩

-- =========================================== in a pool of any callers

section Pools

variable {J α β : Type} {job : J}
  {M : Machine StoreCall StoreCall.Resp Fault α Shared (Option Tx) J}
  {init : State StoreCall StoreCall.Resp Fault α Shared (Option Tx) J → Prop}
  {ok : Shared → Label StoreCall StoreCall.Resp α J → Prop}

/-- The calls of a program run alone, as labels of a pool: the newest
first. -/
def soloLabels (i : Nat) (job : J) (p : Fs β) (w : World) :
    List (Label StoreCall StoreCall.Resp α J) :=
  ((p.observe World.handle (Prog.answered World.handle) w).map
    fun e => .call i job e.1 e.2).reverse

/-- No call sets the context's counter back. -/
theorem handle_inodeSeed {c : StoreCall} {r : c.Resp}
    (h : w.handle c = .ok (r, w')) : w.inodeSeed ≤ w'.inodeSeed := by
  obtain ⟨s', hreply, hs', -⟩ := reply_of_handle (i := 0)
    (s := ⟨w.db, w.durable, w.inodeSeed, fun _ => none⟩) ⟨rfl, rfl, rfl⟩
    (fun _ => Or.inl rfl) h
  rw [← hs'.inodeSeed]
  cases c with
  | get cf key | beginTransaction opt | rollback | seekMeta target | time =>
      simp only [reply] at hreply
      simp only [hreply]
      exact Nat.le_refl _
  | getForUpdate cf key | put cf key val | putSeed | merge key val
  | delete cf key | flushWAL =>
      simp only [reply, Shared.Writes] at hreply
      rcases hreply with h | h <;> simp only [h] <;> exact Nat.le_refl _
  | commit =>
      obtain ⟨-, rfl, -⟩ | ⟨-, rfl, -⟩ := hreply
      · cases w.tx <;> exact Nat.le_refl _
      · exact Nat.le_refl _
  | generateInodeNo =>
      simp only [reply] at hreply
      simp only [hreply]
      exact Nat.le_succ _

theorem exec_inodeSeed {p : Fs β} {a : β} (h : p.exec w = .ok (a, w')) :
    w.inodeSeed ≤ w'.inodeSeed := by
  induction p generalizing w with
  | ret b =>
      cases h
      exact Nat.le_refl _
  | raise e => cases h
  | call c k ih =>
      rw [Fs.exec, Prog.run] at h
      split at h
      next r w₁ hhandle =>
        exact Nat.le_trans (handle_inodeSeed hhandle) (ih r h)
      next e hhandle => cases h

/-- A function run alone is a run of the pool, if its calls may be made
while the counter is where the function leaves it or before. -/
theorem run_solo (hM : M.reply = reply)
    {tr : List (Label StoreCall StoreCall.Resp α J)}
    {n : State StoreCall StoreCall.Resp Fault α Shared (Option Tx) J}
    {p : Fs α} {a : α} (hrun : Trace.Run init (Step M ok) tr n)
    (hthread : n.threads i = some ⟨job, p, w.tx⟩) (hs : n.shared.Agrees w)
    (hgrants : ∀ key, n.shared.Grants i key)
    (hok : ∀ s, s.inodeSeed ≤ w'.inodeSeed →
      ∀ e ∈ p.observe World.handle (Prog.answered World.handle) w,
        ok s (.call i job e.1 e.2))
    (hexec : p.exec w = .ok (a, w')) :
    ∃ s', Trace.Run init (Step M ok) (soloLabels i job p w ++ tr)
        ⟨s', Function.update n.threads i (some ⟨job, .ret a, w'.tx⟩)⟩
      ∧ s'.Agrees w' ∧ ∀ key, s'.Grants i key := by
  induction p generalizing tr n w with
  | ret b =>
      cases hexec
      refine ⟨n.shared, ?_, hs, hgrants⟩
      rw [← hthread, Function.update_eq_self]
      exact hrun
  | raise e => cases hexec
  | call c k ih =>
      have hseed := exec_inodeSeed hexec
      rw [Fs.exec, Prog.run] at hexec
      split at hexec
      next r w₁ hhandle =>
        obtain ⟨s₁, hreply, hs₁, hgrants₁⟩ := reply_of_handle hs hgrants hhandle
        rw [← hM] at hreply
        have hcalls : (Prog.call c k).observe World.handle
            (Prog.answered World.handle) w = ⟨c, r⟩ :: (k r).observe
              World.handle (Prog.answered World.handle) w₁ := by
          rw [Prog.observe, Prog.answered, hhandle]
          rfl
        have hlabels : (soloLabels i job (.call c k) w : List (Label _ _ α J))
            = soloLabels i job (k r) w₁ ++ [.call i job c r] := by
          rw [soloLabels, hcalls]
          simp only [List.map_cons, List.reverse_cons]
          rfl
        rw [hcalls] at hok
        rw [← hs.inodeSeed] at hseed
        have hfirst := hrun.step (.call hthread rfl hreply
          (hok n.shared hseed _ List.mem_cons_self))
        obtain ⟨s', hrest, hs', hgrants'⟩ := ih r hfirst
          (Function.update_self ..) hs₁ hgrants₁
          (fun s hs e he => hok s hs e (List.mem_cons_of_mem _ he)) hexec
        rw [Function.update_idem] at hrest
        refine ⟨s', ?_, hs', hgrants'⟩
        rw [hlabels, List.append_assoc]
        exact hrest
      next e hhandle => cases hexec

end Pools

end ViveNas
