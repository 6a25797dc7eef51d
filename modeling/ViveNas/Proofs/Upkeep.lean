/-
The check of Fsck.lean along every run of the service.

The invariant has three parts. The two stores pass the check with the
same counter, agree on all names and on every lasting reading of every
record (`StoresAgree`). Each caller has what its stage says: writes that
are fair by the committed store, or a number that nothing in the store
has and, once it copied the counter, the lock that keeps the counter
where it is (`Stage.Held`). And whatever was handed out can be passed
back (`Upkeep.answers`).

# The calls

Each call of the store has a lemma of its own (`Upkeep.get` to
`Upkeep.flushWAL`), which says that the invariant holds in the seat the
reply leads to; `Upkeep.call` only tells the calls apart. A commit is
the one step that needs an argument, and has it in `Sound.fairBatch` and
`Sound.create`.

# Crashes

A crash leaves the durable store and no callers. `StoresAgree` ties that
store to the committed one by all that lasts, so the mount that follows
finds a store which passes the check (`Upkeep.remount`).
-/
import ViveNas.Proofs.Fsck
import ViveNas.Proofs.Serving

namespace ViveNas

open LittleEndian Pool

variable {A : Type} {F : Lasting A} {codec : SuperblockCodec}

-- ========================================================== the invariant

/-- The committed and the durable store, and the two counters. -/
structure StoresAgree (F : Lasting A) (codec : SuperblockCodec) (c : Nat)
    (s : Shared) : Prop where
  db : Sound codec c s.db
  durable : Sound codec c s.durable
  names : ∀ p a, s.durable.metaCf[fileKey p a]? = s.db.metaCf[fileKey p a]?
  agree : Agree F s.db s.durable
  ahead : c ≤ s.inodeSeed
  high : s.inodeSeed ≤ plainNos

/-- A number that was drawn and that nothing in the store has. -/
structure Shared.Free (s : Shared) (m : Nat) : Prop where
  number : FileNo m
  drawn : m < s.inodeSeed
  unused : ¬ s.db.Recorded m

/-- The number a create has drawn. -/
def Stage.number : Stage → Option Nat
  | work _ => none
  | drawn m | creating m _ | sealed m _ _ => some m

/-- What a caller in its stage can rely on. -/
def Stage.Held (F : Lasting A) (c : Nat) (s : Shared) (i : Nat)
    (tx : Option Tx) : Stage → Prop
  | .work opt => ∀ t, tx = some t →
      t.opt = opt ∧ ∀ op ∈ t.batch, op.Fair (Handed F s.db) opt
  | .drawn m => s.Free m
  | .creating m b => s.Free m ∧ tx = some ⟨.metaOpt, b⟩
  | .sealed m b k => s.Free m ∧ (m < k ∧ c ≤ k ∧ k ≤ s.inodeSeed)
      ∧ s.locks seedLock = some i
      ∧ tx = some ⟨.metaOpt, b
        ++ [.put .metaCf inodeSeedKey (leBytes 8 k)]⟩
      ∧ ∃ p a rec, Genuine m rec ∧ b = namingOps p a m rec

/-- What every step does to the stores: it keeps what was handed out, and
a record that appears is on disk and has no data. -/
structure Upholds (F : Lasting A) (s s' : Shared) : Prop where
  keeps : Keeps F s.db s'.db
  fresh : ∀ m, FileNo m → s'.db.Recorded m → ¬ s.db.Recorded m →
    s'.durable = s'.db ∧ ∀ idx, s'.db.dataCf[vnExtentKey idx m]? = none

theorem Agree.upholds {s s' : Shared} {c : Nat} (h : Agree F s.db s'.db)
    (hs' : Sound codec c s'.db) : Upholds F s s' where
  keeps := h.keeps
  fresh _ hm hrec hnone :=
    absurd (h.symm.keeps.recorded hs' hm hrec) hnone

/-- A caller, with its transaction and its seat. -/
abbrev SeatClient := Client (Option Tx) Task Seat

/-- The invariant, at the counter `c`: the stores agree, each caller has
what its stage and its seat say, no two hold one number, and what was
handed out is good. -/
structure Upkeep (F : Lasting A) (codec : SuperblockCodec) (c : Nat)
    (tr : List ServiceLabel) (s : Shared) (g : Nat → Option SeatClient) :
    Prop where
  stores : StoresAgree F codec c s
  held : ∀ i x, g i = some x → x.loc.stage.Held F c s i x.priv
  seen : ∀ i x, g i = some x → ∀ rec ∈ x.loc.seen, Matches F s.db rec
  distinct : ∀ i j x y m, g i = some x → g j = some y →
    x.loc.stage.number = some m → y.loc.stage.number = some m → i = j
  answers : ∀ i task a, Label.ret i task a ∈ tr → a.Gives F s.db

section Inv

variable {c c' : Nat} {s s' : Shared} {tr : List ServiceLabel}
  {g : Nat → Option SeatClient} {i : Nat} {x : SeatClient}
  {lab : ServiceLabel}

-- ================================================================ relying

/-- A number that a caller holds is in no store yet. -/
theorem Stage.Held.free {st : Stage} {tx : Option Tx}
    (h : st.Held F c s i tx) {m : Nat} (hm : st.number = some m) :
    s.Free m := by
  cases st with
  | work opt => cases hm
  | drawn n =>
      cases hm
      exact h
  | creating n b | sealed n b k =>
      cases hm
      exact h.1

/-- What other callers may do: keep what matches, leave its number alone,
and the counter while it has the counter's lock. -/
theorem Stage.Held.rely {st : Stage} {tx : Option Tx}
    (h : st.Held F c s i tx) (hkeep : Keeps F s.db s'.db)
    (hseed : s.inodeSeed ≤ s'.inodeSeed)
    (hrec : ∀ m, st.number = some m → FileNo m → s'.db.Recorded m →
      s.db.Recorded m)
    (hlock : s.locks seedLock = some i →
      s'.locks seedLock = some i ∧ c' = c) : st.Held F c' s' i tx := by
  have hfree (m : Nat) (hm : st.number = some m) (hf : s.Free m) :
      s'.Free m :=
    ⟨hf.number, Nat.lt_of_lt_of_le hf.drawn hseed,
      fun hr => hf.unused (hrec m hm hf.number hr)⟩
  cases st with
  | work opt =>
      intro t ht
      obtain ⟨hopt, hb⟩ := h t ht
      exact ⟨hopt, fun op hop => (hb op hop).mono fun n hn => hkeep.handed hn⟩
  | drawn m => exact hfree m rfl h
  | creating m b => exact ⟨hfree m rfl h.1, h.2⟩
  | sealed m b k =>
      obtain ⟨hf, ⟨hmk, hck, hk⟩, hown, hrest⟩ := h
      obtain ⟨hown', rfl⟩ := hlock hown
      exact ⟨hfree m rfl hf, ⟨hmk, hck, Nat.le_trans hk hseed⟩, hown', hrest⟩

theorem Answer.Gives.mono {db db' : Store} {a : Answer}
    (h : a.Gives F db) (hkeep : Keeps F db db') : a.Gives F db' :=
  ⟨fun n hn => hkeep.handed (h.inodes n hn), h.files⟩

/-- One caller moves on, comes or goes; the others rely on what it did. -/
theorem Upkeep.advance (inv : Upkeep F codec c tr s g)
    (hstores : StoresAgree F codec c' s') (hkeep : Keeps F s.db s'.db)
    (hseed : s.inodeSeed ≤ s'.inodeSeed)
    (hrec : ∀ m, FileNo m → s'.db.Recorded m → s.db.Recorded m
      ∨ ∃ x, g i = some x ∧ x.loc.stage.number = some m)
    (hlock : ∀ j, j ≠ i → s.locks seedLock = some j →
      s'.locks seedLock = some j ∧ c' = c)
    (x' : Option SeatClient)
    (hheld : ∀ y, x' = some y → y.loc.stage.Held F c' s' i y.priv)
    (hseen : ∀ y, x' = some y → ∀ rec ∈ y.loc.seen, Matches F s'.db rec)
    (hnum : ∀ y m, x' = some y → y.loc.stage.number = some m →
      (∃ x, g i = some x ∧ x.loc.stage.number = some m) ∨ s.inodeSeed ≤ m)
    (hlab : ∀ j task a, lab = .ret j task a → a.Gives F s'.db) :
    Upkeep F codec c' (lab :: tr) s' (Function.update g i x') := by
  -- the number of another caller is not the one `i` has now
  have hother : ∀ j y y' m, j ≠ i → g j = some y →
      y.loc.stage.number = some m → x' = some y' →
      y'.loc.stage.number ≠ some m := by
    intro j y y' m hj hy hm hy' hm'
    rcases hnum y' m hy' hm' with ⟨x, hg, hold⟩ | hnew
    · exact hj (inv.distinct j i y x m hy hg hm hold)
    · have := ((inv.held j y hy).free hm).drawn
      omega
  constructor
  case stores => exact hstores
  case held =>
    refine Partial.forall_update hheld fun j hj y hy => ?_
    refine (inv.held j y hy).rely hkeep hseed (fun m hm hno hr => ?_)
      (hlock j hj)
    rcases hrec m hno hr with hold | ⟨x, hg, hx⟩
    · exact hold
    · exact absurd (inv.distinct j i y x m hy hg hm hx) hj
  case seen =>
    exact Partial.forall_update hseen fun j hj y hy rec hr =>
      hkeep rec (inv.seen j y hy rec hr)
  case distinct =>
    intro j j' y y' m hy hy' hm hm'
    by_cases hj : j = i <;> by_cases hj' : j' = i
    · exact hj.trans hj'.symm
    · subst hj
      rw [Function.update_self] at hy
      rw [Function.update_of_ne hj'] at hy'
      exact absurd hm (hother j' y' y m hj' hy' hm' hy)
    · subst hj'
      rw [Function.update_self] at hy'
      rw [Function.update_of_ne hj] at hy
      exact absurd hm' (hother j y y' m hj hy hm hy')
    · rw [Function.update_of_ne hj] at hy
      rw [Function.update_of_ne hj'] at hy'
      exact inv.distinct j j' y y' m hy hy' hm hm'
  case answers =>
    intro j task a ha
    rcases List.mem_cons.mp ha with hnew | hold
    · exact hlab j task a hnew.symm
    · exact (inv.answers j task a hold).mono hkeep

-- ============================================================== the steps

/-- A caller moves on and leaves the stores and the counters as they
are. -/
theorem Upkeep.quiet (inv : Upkeep F codec c tr s g) (hg : g i = some x)
    (locks : Cf × Bytes → Option Nat)
    (hlocks : ∀ j, j ≠ i → s.locks seedLock = some j →
      locks seedLock = some j)
    {x' : SeatClient}
    (hheld : x'.loc.stage.Held F c { s with locks := locks } i x'.priv)
    (hseen : ∀ rec ∈ x'.loc.seen, Matches F s.db rec)
    (hnum : x'.loc.stage.number = x.loc.stage.number
      ∨ x'.loc.stage.number = none)
    (hlab : ∀ j task a, lab ≠ .ret j task a) :
    Upkeep F codec c (lab :: tr) { s with locks := locks }
      (Function.update g i (some x')) := by
  have hstores : StoresAgree F codec c { s with locks := locks } :=
    ⟨inv.stores.db, inv.stores.durable, inv.stores.names, inv.stores.agree,
      inv.stores.ahead, inv.stores.high⟩
  refine inv.advance hstores (fun _ h => h) (Nat.le_refl _)
    (fun _ _ h => Or.inl h) (fun j hj h => ⟨hlocks j hj h, rfl⟩) (some x') ?_
    ?_ ?_ (fun j task a h => absurd h (hlab j task a))
  · intro y hy
    cases hy
    exact hheld
  · intro y hy
    cases hy
    exact hseen
  · intro y m hy hm
    cases hy
    rcases hnum with hsame | hnone
    · exact Or.inl ⟨x, hg, hsame ▸ hm⟩
    · cases hnone.symm.trans hm

/-- A caller's own stage after it took a lock. -/
theorem Stage.Held.lock {st : Stage} {tx : Option Tx}
    (h : st.Held F c s i tx) (key : Cf × Bytes) :
    st.Held F c (s.lock i key) i tx :=
  h.rely (fun _ h => h) (Nat.le_refl _) (fun _ _ _ h => h)
    fun hown => ⟨Shared.lock_of_own hown, rfl⟩

/-- What a caller vouches for was handed out. -/
theorem Upkeep.handed (inv : Upkeep F codec c tr s g) (hg : g i = some x)
    {n : ViveInode} (hn : x.loc.Vouches F n) : Handed F s.db n := by
  rcases hn with hroot | ⟨rec, hrec, hof⟩
  · exact Or.inl hroot
  · have hmatch := inv.seen i x hg rec hrec
    have hno : n.iNo = rec.iNo := F.number hof
    have hE : n.iExtentSize = rec.iExtentSize := F.extentSize hof
    obtain ⟨rec', hrec', hof'⟩ := hmatch.record
    exact Or.inr ⟨hno ▸ hmatch.number, hE ▸ hmatch.extentSize, rec',
      hno ▸ hrec', hof.trans hof'⟩

/-- A write enters the transaction. -/
theorem Stage.Held.push {st : Stage} {tx : Option Tx} {op : WriteOp}
    {V : ViveInode → Prop} (h : st.Held F c s i tx)
    (hop : st.Admits V op) (hV : ∀ n, V n → Handed F s.db n)
    (key : Cf × Bytes) :
    (st.push op).Held F c (s.lock i key) i (txPush op tx) := by
  cases st with
  | drawn m | sealed m b k => exact hop.elim
  | work opt =>
      intro t ht
      obtain ⟨t', ht', rfl⟩ := Option.map_eq_some_iff.mp ht
      obtain ⟨hopt, hb⟩ := h t' ht'
      refine ⟨hopt, fun op' hop' => ?_⟩
      rcases List.mem_append.mp hop' with hold | hnew
      · exact hb op' hold
      · rw [List.mem_singleton.mp hnew]
        exact WriteOp.Fair.mono hop hV
  | creating m b =>
      obtain ⟨hfree, rfl⟩ := h
      exact ⟨⟨hfree.number, hfree.drawn, hfree.unused⟩, rfl⟩

theorem Stage.number_push (st : Stage) (op : WriteOp) :
    (st.push op).number = st.number := by
  cases st <;> rfl

theorem Stage.number_begin (st : Stage) (opt : WriteOpt) :
    (st.begin opt).number = st.number ∨ (st.begin opt).number = none := by
  cases st with
  | drawn m => exact Or.inl rfl
  | work opt' | creating m b | sealed m b k => exact Or.inr rfl

/-- A write call, which gets its lock or fails. -/
theorem Upkeep.write (inv : Upkeep F codec c tr s g) (hg : g i = some x)
    {op : WriteOp} (hop : x.loc.stage.Admits (x.loc.Vouches F) op)
    {key : Cf × Bytes} {r : Status} {tx' : Option Tx}
    (hwrites : s.Writes i x.priv key op r s' tx')
    (hlab : ∀ j task a, lab ≠ .ret j task a) :
    ∃ st, (r = .ok → st = x.loc.stage.push op)
      ∧ (r = .failed → st = x.loc.stage)
      ∧ s'.db = s.db
      ∧ Upkeep F codec c (lab :: tr) s' (Function.update g i
        (some ⟨x.job, tx', { x.loc with stage := st }⟩)) := by
  have hheld := inv.held i x hg
  have hseen := inv.seen i x hg
  obtain ⟨rfl, hgrant, rfl, rfl⟩ | ⟨rfl, rfl, rfl⟩ := hwrites
  · refine ⟨x.loc.stage.push op, fun _ => rfl, fun h => (by cases h), rfl, ?_⟩
    refine inv.quiet hg _ (fun j hj h => Shared.lock_of_ne hj hgrant h) ?_
      hseen (Or.inl (x.loc.stage.number_push op)) hlab
    exact hheld.push hop (fun n hn => inv.handed hg hn) key
  · refine ⟨x.loc.stage, fun h => (by cases h), fun _ => rfl, rfl, ?_⟩
    exact inv.quiet hg s'.locks (fun _ _ h => h) hheld hseen (Or.inl rfl) hlab

/-- A seat that has seen all there is in a store. -/
def Seat.learn (F : Lasting A) (db : Store) (l : Seat) : Seat where
  seen := l.seen ∪ { n | Matches F db n }
  whole rec hrec := hrec.elim (l.whole rec) fun h => h.extentSize
  stage := l.stage

theorem Upkeep.learn_seen (inv : Upkeep F codec c tr s g)
    (hg : g i = some x) :
    ∀ rec ∈ (x.loc.learn F s.db).seen, Matches F s.db rec :=
  fun rec hrec => hrec.elim (inv.seen i x hg rec) id

/-- What a read of meta_cf replies. -/
theorem Sound.reads {db : Store} (h : Sound codec c db) {key : Bytes}
    {r : GetStatus} (hr : db.Replies .metaCf key r) (l : Seat) :
    l.Reads key r (l.learn F db) where
  stage := rfl
  seen _ hrec := Or.inl hrec
  entry v p a hv hkey := by
    subst hv hkey
    obtain ⟨m, hm, -, hval⟩ := h.entry (Except.ok.inj hr)
    exact ⟨m, hm, hval⟩
  record v m hv hm hkey := by
    subst hv hkey
    have hget := Except.ok.inj hr
    obtain ⟨-, rec, hgen, hrec⟩ := h.record hm ⟨v, hget⟩
    exact ⟨rec, Or.inr (h.matches_record hm hrec).2, hgen,
      Option.some.inj (hget.symm.trans hrec)⟩

/-- The root's record does not pass for an entry. -/
theorem not_dirPrefix_rootKey (d : Int) :
    ¬ dirPrefix d <+: inodeKey vnRootIno := by
  obtain ⟨b, rest, hd, hb⟩ := dirPrefix_head d
  rintro ⟨tail, htail⟩
  rw [hd, List.cons_append] at htail
  have hhead : b = 2 := (List.cons.inj htail).1
  subst hhead
  simp at hb

/-- A key that starts like a directory's entries stands for a file: it is
that of an entry, or of a record by accident. -/
theorem Sound.under {db : Store} (h : Sound codec c db) {d : Int}
    {key v : Bytes} (hget : db.metaCf[key]? = some v)
    (hpre : dirPrefix d <+: key) :
    ∃ m, FileNo m ∧ db.Recorded m ∧ loadInt64 v = .ok m
      ∧ ((∃ a : FileName, key = fileKey d a ∧ v = inodeKey m)
        ∨ key = inodeKey m) := by
  have hpair := h.pairs key v hget
  cases hpair with
  | superblock => exact absurd hpre (not_dirPrefix_superblockKey d)
  | seed => exact absurd hpre (not_dirPrefix_inodeSeedKey d)
  | root _ => exact absurd hpre (not_dirPrefix_rootKey d)
  | entry p a hm hrec =>
      obtain rfl := dirPrefix_prefix_iff.mp hpre
      exact ⟨_, hm, hrec, hm.load, Or.inl ⟨a, rfl, rfl⟩⟩
  | @record m rec hm _ hgen =>
      refine ⟨m, hm, ⟨_, hget⟩, ?_, Or.inr rfl⟩
      rw [loadInt64_ok (by rw [ViveInode.toBytes_length]; decide),
        rec.leNat_take_toBytes, hgen.number]

theorem mem_seek {db : Store} {target : Bytes} {kv : Bytes × Bytes}
    (h : kv ∈ db.metaCf.seek target) : db.metaCf[kv.1]? = some kv.2 :=
  Std.ExtTreeMap.mem_toList_iff_getElem?_eq_some.mp
    ((List.dropWhile_sublist _).subset h)

/-- What a walk over a directory finds. -/
theorem Sound.listed {db : Store} (h : Sound codec c db) (target : Bytes) :
    Seat.Listed (db.metaCf.seek target) := by
  intro kv hkv d hpre
  obtain ⟨m, hm, -, hload, -⟩ := h.under (mem_seek hkv) hpre
  exact ⟨m, hm, hload⟩

/-- A commit at work: writes that are fair. -/
theorem Upkeep.commitWork (inv : Upkeep F codec c tr s g)
    (hg : g i = some x) {opt : WriteOpt} (hst : x.loc.stage = .work opt)
    (hlab : ∀ j task a, lab ≠ .ret j task a) :
    Agree F s.db (s.commitTx i x.priv).db
      ∧ Upkeep F codec c (lab :: tr) (s.commitTx i x.priv)
        (Function.update g i (some ⟨x.job, none,
          { x.loc with stage := .work .dataOpt }⟩)) := by
  have hheld := inv.held i x hg
  rw [hst] at hheld
  have hevolve : Agree F s.db (s.commitTx i x.priv).db
      ∧ StoresAgree F codec c (s.commitTx i x.priv) := by
    cases htx : x.priv with
    | none => exact ⟨Agree.refl F _, inv.stores.db, inv.stores.durable,
        inv.stores.names, inv.stores.agree, inv.stores.ahead,
        inv.stores.high⟩
    | some t =>
        obtain ⟨hopt, hb⟩ := hheld t htx
        have hev := inv.stores.db.fairBatch hb
        refine ⟨hev.agree, ?_⟩
        cases opt with
        | metaOpt =>
            rw [Shared.commitTx, if_pos hopt]
            exact ⟨hev.sound, hev.sound, fun _ _ => rfl, Agree.refl F _,
              inv.stores.ahead, inv.stores.high⟩
        | dataOpt =>
            rw [Shared.commitTx, if_neg (by rw [hopt]; intro h; cases h)]
            exact ⟨hev.sound, inv.stores.durable,
              fun p a => (inv.stores.names p a).trans
                (hev.names rfl p a).symm,
              hev.agree.symm.trans inv.stores.agree, inv.stores.ahead,
              inv.stores.high⟩
  have hcommit : (s.commitTx i x.priv).locks = (s.release i).locks
      ∧ (s.commitTx i x.priv).inodeSeed = s.inodeSeed := by
    cases x.priv <;> exact ⟨rfl, rfl⟩
  refine ⟨hevolve.1, inv.advance hevolve.2 hevolve.1.keeps
    (Nat.le_of_eq hcommit.2.symm) (fun m hm hr => Or.inl ?_)
    (fun j hj h => ⟨?_, rfl⟩) _ ?_ ?_ ?_
    (fun j task a h => absurd h (hlab j task a))⟩
  · exact hevolve.1.symm.keeps.recorded hevolve.2.db hm hr
  · rw [hcommit.1]
    exact Shared.release_of_ne hj h
  · intro y hy
    cases hy
    intro t ht
    cases ht
  · intro y hy
    cases hy
    exact fun rec hrec => hevolve.1.keeps rec (inv.seen i x hg rec hrec)
  · intro y m hy hm
    cases hy
    cases hm

/-- A commit of a create: its record is there, and the counter is past
it. -/
theorem Upkeep.commitCreate (inv : Upkeep F codec c tr s g)
    (hg : g i = some x) {m k : Nat} {b : List WriteOp}
    (hst : x.loc.stage = .sealed m b k)
    (hlab : ∀ j task a, lab ≠ .ret j task a) :
    c ≤ k ∧ Upholds F s (s.commitTx i x.priv)
      ∧ x.loc.Commits ({ x.loc with stage := .work .dataOpt }.learn F
        (s.commitTx i x.priv).db)
      ∧ Upkeep F codec k (lab :: tr) (s.commitTx i x.priv)
        (Function.update g i (some ⟨x.job, none,
          { x.loc with stage := .work .dataOpt }.learn F
            (s.commitTx i x.priv).db⟩)) := by
  have hheld := inv.held i x hg
  rw [hst] at hheld
  obtain ⟨hfree, ⟨hmk, hck, hk⟩, hlock, htx, p, a, rec, hgen, hb⟩ := hheld
  have hhigh := Nat.le_trans hk inv.stores.high
  obtain ⟨db, hdb⟩ : ∃ db, db = s.db.applyBatch (namingOps p a m rec
    ++ [.put .metaCf inodeSeedKey (leBytes 8 k)]) := ⟨_, rfl⟩
  have hcommit : s.commitTx i x.priv
      = { s.release i with db := db, durable := db } := by
    rw [htx, Shared.commitTx_metaOpt, hb, hdb]
  obtain ⟨hsound, hkeep, hmatch, honly⟩ := inv.stores.db.create (F := F)
    hfree.number hfree.unused hgen hmk hck hhigh p a hdb
  have hstores : StoresAgree F codec k
      { s.release i with db := db, durable := db } :=
    ⟨hsound, hsound, fun _ _ => rfl, Agree.refl F _, hk, inv.stores.high⟩
  rw [hcommit]
  refine ⟨hck, ⟨hkeep, fun m' hm' hr hnone => ⟨rfl, fun idx => ?_⟩⟩,
    ⟨rfl, fun _ h => Or.inl h, ?_⟩, ?_⟩
  · show db.dataCf[vnExtentKey idx m']? = none
    rw [hdb, Store.applyBatch_data]
    exact inv.stores.db.no_extent hm' hnone idx
  · intro p' a' m' rec' k' hstage
    rw [hst, hb] at hstage
    injection hstage with hm hops hkk
    have hrec : WriteOp.put .metaCf (inodeKey m) rec.toBytes
        = .put .metaCf (inodeKey m') rec'.toBytes :=
      (List.cons.inj (List.cons.inj hops).2).1
    injection hrec with _ _ hbytes
    obtain rfl := ViveInode.toBytes_inj hbytes
    exact Or.inr hmatch
  · refine inv.advance hstores hkeep (Nat.le_refl _) (fun m' hm' hr => ?_) ?_
      _ ?_ ?_ ?_ (fun j task a h => absurd h (hlab j task a))
    · rcases honly m' hm' hr with hold | rfl
      · exact Or.inl hold
      · exact Or.inr ⟨x, hg, by rw [hst]; rfl⟩
    · -- the lock is the committer's, so nobody else is waiting to commit
      intro j hj hother
      exact absurd (Option.some.inj (hother.symm.trans hlock)) hj
    · intro y hy
      cases hy
      intro t ht
      cases ht
    · intro y hy
      cases hy
      exact fun n hn => hn.elim (fun h => hkeep n (inv.seen i x hg n h)) id
    · intro y n hy hn
      cases hy
      cases hn

/-- `generate_inode_no`. -/
theorem Upkeep.draw (inv : Upkeep F codec c tr s g)
    (hplain : s.inodeSeed < plainNos) (task : Task) (tx : Option Tx)
    (l : Seat) (hseen : ∀ rec ∈ l.seen, Matches F s.db rec)
    (hlab : ∀ j task a, lab ≠ .ret j task a) :
    FileNo s.inodeSeed
      ∧ Upkeep F codec c (lab :: tr) { s with inodeSeed := s.inodeSeed + 1 }
        (Function.update g i (some ⟨task, tx,
          { l with stage := .drawn s.inodeSeed }⟩)) := by
  have hahead := inv.stores.ahead
  have hno : FileNo s.inodeSeed :=
    ⟨Nat.le_trans inv.stores.db.low hahead, hplain⟩
  have hstores : StoresAgree F codec c
      { s with inodeSeed := s.inodeSeed + 1 } :=
    ⟨inv.stores.db, inv.stores.durable, inv.stores.names, inv.stores.agree,
      Nat.le_succ_of_le hahead, hplain⟩
  refine ⟨hno, inv.advance hstores (fun _ h => h) (Nat.le_succ _)
    (fun _ _ h => Or.inl h) (fun _ _ h => ⟨h, rfl⟩) _ ?_ ?_ ?_
    (fun j task a h => absurd h (hlab j task a))⟩
  · intro y hy
    cases hy
    refine ⟨hno, Nat.lt_succ_self _, fun hr => ?_⟩
    have hlt := (inv.stores.db.record hno hr).1
    omega
  · intro y hy
    cases hy
    exact hseen
  · intro y m hy hm
    cases hy
    cases hm
    exact Or.inr (Nat.le_refl _)

/-- A caller leaves. -/
theorem Upkeep.leave (inv : Upkeep F codec c tr s g)
    (hlab : ∀ j task a, lab = .ret j task a → a.Gives F s.db) :
    Upholds F s (s.release i)
      ∧ Upkeep F codec c (lab :: tr) (s.release i)
        (Function.update g i none) := by
  have hstores : StoresAgree F codec c (s.release i) :=
    ⟨inv.stores.db, inv.stores.durable, inv.stores.names, inv.stores.agree,
      inv.stores.ahead, inv.stores.high⟩
  have hagree : Agree F s.db (s.release i).db := Agree.refl F s.db
  refine ⟨hagree.upholds hstores.db, ?_⟩
  refine inv.advance hstores (fun _ h => h) (Nat.le_refl _)
    (fun _ _ h => Or.inl h)
    (fun j hj h => ⟨Shared.release_of_ne hj h, rfl⟩) none ?_ ?_ ?_ hlab
  · intro y hy
    cases hy
  · intro y hy
    cases hy
  · intro y m hy
    cases hy

-- =============================================================== the calls

/-- A call is answered: it upholds the stores, its caller moves on as the
call and the reply say, and the invariant goes on with a counter that is
no lower. -/
def Answered (F : Lasting A) (codec : SuperblockCodec) (c : Nat)
    (tr : List ServiceLabel) (s : Shared) (g : Nat → Option SeatClient)
    (i : Nat) (task : Task) (l : Seat) (call : StoreCall) (r : call.Resp)
    (s' : Shared) (tx' : Option Tx) : Prop :=
  ∃ c' l', c ≤ c' ∧ Upholds F s s' ∧ Seat.Moves call l r l'
    ∧ Upkeep F codec c' (.call i task call r :: tr) s'
      (Function.update g i (some ⟨task, tx', l'⟩))

/-- A call's label is no answer to the caller's own caller. -/
theorem call_ne_ret {task : Task} (call : StoreCall) (r : call.Resp)
    (j : Nat) (task' : Task) (a : Answer) :
    Label.call i task call r ≠ (.ret j task' a : ServiceLabel) := by
  intro h
  cases h

theorem Upkeep.upholds (inv : Upkeep F codec c tr s g)
    (h : s'.db = s.db) : Upholds F s s' :=
  Agree.upholds (c := c) (h ▸ Agree.refl F s'.db) (h ▸ inv.stores.db)

/-- A write that is no put is one of a transaction at work, whose stage
it leaves alone. -/
theorem Stage.push_of_admits {st : Stage} {V : ViveInode → Prop}
    {op : WriteOp} (hop : st.Admits V op)
    (hput : ∀ cf key val, op ≠ .put cf key val) : st.push op = st := by
  cases st with
  | work opt => rfl
  | drawn m | sealed m b k => exact hop.elim
  | creating m b =>
      cases op with
      | put cf key val => exact absurd rfl (hput cf key val)
      | merge key val | delete cf key => exact hop.elim

section Calls

variable (inv : Upkeep F codec c tr s g) {task : Task} {tx tx' : Option Tx}
  {l : Seat} (hg : g i = some ⟨task, tx, l⟩)
include inv hg

/-- A call that changes nothing and tells nothing. -/
theorem Upkeep.stay {call : StoreCall} {r : call.Resp}
    (hmoves : Seat.Moves call l r l) :
    Answered F codec c tr s g i task l call r s tx :=
  ⟨c, l, Nat.le_refl c, inv.upholds rfl, hmoves,
    inv.quiet hg s.locks (fun _ _ h => h) (inv.held i _ hg)
      (inv.seen i _ hg) (Or.inl rfl) (call_ne_ret call r)⟩

/-- A `Get` that finds a record adds it to what the caller has seen. -/
theorem Upkeep.get {cf : Cf} {key : Bytes} {r : GetStatus}
    (hget : s.db.Replies cf key r) :
    Answered F codec c tr s g i task l (.get cf key) r s tx := by
  have hheld := inv.held i _ hg
  cases cf with
  | metaCf =>
      exact ⟨c, l.learn F s.db, Nat.le_refl c, inv.upholds rfl,
        inv.stores.db.reads hget l, inv.quiet hg s.locks (fun _ _ h => h)
          hheld (inv.learn_seen hg) (Or.inl rfl) (call_ne_ret _ _)⟩
  | defaultCf | dataCf => exact inv.stay hg rfl

theorem Upkeep.beginTransaction {opt : WriteOpt}
    (hneeds : ∀ m, l.stage = .drawn m → opt = .metaOpt) :
    Answered F codec c tr s g i task l (.beginTransaction opt) () s
      (some ⟨opt, []⟩) := by
  have hheld := inv.held i _ hg
  have hseen := inv.seen i _ hg
  refine ⟨c, _, Nat.le_refl c, inv.upholds rfl, rfl, inv.quiet hg s.locks
    (fun _ _ h => h) ?_ hseen (l.stage.number_begin opt) (call_ne_ret _ _)⟩
  have hwork : Stage.Held F c s i (some ⟨opt, []⟩) (.work opt) := by
    intro t ht
    cases ht
    exact ⟨rfl, fun op hop => by cases hop⟩
  obtain ⟨seen, whole, stage⟩ := l
  cases stage with
  | work opt' | creating m b | sealed m b k => exact hwork
  | drawn m =>
      obtain rfl : opt = .metaOpt := hneeds m rfl
      exact ⟨hheld, rfl⟩

/-- A lock that is granted to a caller who stays where it is. -/
theorem Upkeep.locked {key : Cf × Bytes} (hgrant : s.Grants i key)
    {call : StoreCall} {r : call.Resp} (hmoves : Seat.Moves call l r l) :
    Answered F codec c tr s g i task l call r (s.lock i key) tx :=
  ⟨c, l, Nat.le_refl c, inv.upholds rfl, hmoves, inv.quiet hg _
    (fun _ hj h => Shared.lock_of_ne hj hgrant h)
    ((inv.held i _ hg).lock _) (inv.seen i _ hg) (Or.inl rfl)
    (call_ne_ret call r)⟩

theorem Upkeep.put {cf : Cf} {key val : Bytes} {r : Status}
    (hneeds : l.stage.Admits (l.Vouches F) (.put cf key val))
    (hwrites : s.Writes i tx (cf, key) (.put cf key val) r s' tx') :
    Answered F codec c tr s g i task l (.put cf key val) r s' tx' := by
  obtain ⟨st, hst, hfail, hdb, inv'⟩ := inv.write hg hneeds hwrites
    (call_ne_ret (.put cf key val) r)
  refine ⟨c, _, Nat.le_refl c, inv.upholds hdb, ?_, inv'⟩
  cases r with
  | ok => rw [hst rfl]; rfl
  | failed => rw [hfail rfl]; rfl

/-- A merge or a delete. -/
theorem Upkeep.writeWork {op : WriteOp} {key : Cf × Bytes}
    {call : StoreCall} {r : call.Resp} {st : Status}
    (hneeds : l.stage.Admits (l.Vouches F) op)
    (hput : ∀ cf key val, op ≠ .put cf key val)
    (hwrites : s.Writes i tx key op st s' tx')
    (hmoves : Seat.Moves call l r l) :
    Answered F codec c tr s g i task l call r s' tx' := by
  obtain ⟨stage, hok, hfail, hdb, inv'⟩ := inv.write hg hneeds hwrites
    (call_ne_ret call r)
  have hstay : stage = l.stage := by
    cases st with
    | ok => exact (hok rfl).trans (Stage.push_of_admits hneeds hput)
    | failed => exact hfail rfl
  rw [hstay] at inv'
  exact ⟨c, l, Nat.le_refl c, inv.upholds hdb, hmoves, inv'⟩

/-- The counter is copied under its lock, so it cannot fall behind the
number until the commit. -/
theorem Upkeep.putSeed {r : Status}
    (hneeds : Seat.Needs F .putSeed l)
    (hwrites : s.Writes i tx seedLock
      (.put .metaCf inodeSeedKey (leBytes 8 s.inodeSeed)) r s' tx') :
    Answered F codec c tr s g i task l .putSeed r s' tx' := by
  have hheld := inv.held i _ hg
  have hseen := inv.seen i _ hg
  obtain ⟨p, a, m, rec, hgen, hst⟩ := hneeds
  obtain ⟨rfl, hgrant, rfl, rfl⟩ | ⟨rfl, rfl, rfl⟩ := hwrites
  · rw [hst] at hheld
    obtain ⟨hfree, rfl⟩ := hheld
    refine ⟨c, _, Nat.le_refl c, inv.upholds rfl, ⟨s.inodeSeed, rfl⟩,
      inv.quiet hg _ (fun j hj h => Shared.lock_of_ne hj hgrant h) ?_
        hseen (Or.inl ?_) (call_ne_ret _ _)⟩
    · rw [hst]
      exact ⟨⟨hfree.number, hfree.drawn, hfree.unused⟩, ⟨hfree.drawn,
        inv.stores.ahead, Nat.le_refl _⟩, Shared.lock_self s i seedLock,
        rfl, p, a, rec, hgen, rfl⟩
    · rw [hst]
      rfl
  · exact inv.stay hg rfl

/-- A commit is one of work or one of a create. -/
theorem Upkeep.commit (hneeds : Seat.Needs F .commit l) :
    Answered F codec c tr s g i task l .commit .ok (s.commitTx i tx)
      none := by
  rcases hneeds with ⟨opt, hst⟩ | ⟨m, b, k, hst⟩
  · obtain ⟨hagree, inv'⟩ := inv.commitWork hg hst
      (call_ne_ret .commit .ok)
    refine ⟨c, { l with stage := .work .dataOpt }, Nat.le_refl c,
      hagree.upholds inv'.stores.db, ⟨rfl, fun _ h => h, ?_⟩, inv'⟩
    intro p a m rec k hsealed
    cases hst.symm.trans hsealed
  · obtain ⟨hck, hup, hcommits, inv'⟩ := inv.commitCreate hg hst
      (call_ne_ret .commit .ok)
    exact ⟨k, _, hck, hup, hcommits, inv'⟩

theorem Upkeep.rollback :
    Answered F codec c tr s g i task l .rollback () (s.release i) none := by
  have hseen := inv.seen i _ hg
  refine ⟨c, _, Nat.le_refl c, inv.upholds rfl, rfl, inv.quiet hg _
    (fun j hj h => Shared.release_of_ne hj h) ?_ hseen (Or.inr rfl)
    (call_ne_ret _ _)⟩
  intro t ht
  cases ht

/-- All that was committed is on disk. -/
theorem Upkeep.flushWAL :
    Answered F codec c tr s g i task l .flushWAL .ok
      { s with durable := s.db } tx := by
  have hstores : StoresAgree F codec c { s with durable := s.db } :=
    ⟨inv.stores.db, inv.stores.db, fun _ _ => rfl, Agree.refl F _,
      inv.stores.ahead, inv.stores.high⟩
  refine ⟨c, l, Nat.le_refl c, inv.upholds rfl, rfl, ?_⟩
  refine inv.advance hstores (fun _ h => h) (Nat.le_refl _)
    (fun _ _ h => Or.inl h) (fun _ _ h => ⟨h, rfl⟩) _ ?_ ?_ ?_
    (fun j task' a h => absurd h (call_ne_ret _ _ j task' a))
  · intro y hy
    cases hy
    exact (inv.held i _ hg).rely (fun _ h => h) (Nat.le_refl _)
      (fun _ _ _ h => h) fun h => ⟨h, rfl⟩
  · intro y hy
    cases hy
    exact inv.seen i _ hg
  · intro y m hy hm
    cases hy
    exact Or.inl ⟨_, hg, hm⟩

/-- Any call of a caller, with any reply. -/
theorem Upkeep.call {call : StoreCall} {r : call.Resp}
    (hneeds : Seat.Needs F call l) (hreply : reply i call s tx r s' tx')
    (hok : Proper F s (.call i task call r)) :
    Answered F codec c tr s g i task l call r s' tx' := by
  cases call with
  | get cf key =>
      obtain ⟨hget, rfl, rfl⟩ := hreply
      exact inv.get hg hget
  | beginTransaction opt =>
      obtain ⟨rfl, rfl⟩ := hreply
      exact inv.beginTransaction hg hneeds
  | getForUpdate cf key =>
      obtain ⟨hgrant, -, rfl, rfl⟩ | ⟨-, rfl, rfl⟩ := hreply
      · exact inv.locked hg hgrant rfl
      · exact inv.stay hg rfl
  | put cf key val => exact inv.put hg hneeds hreply
  | merge key val | delete cf key =>
      exact inv.writeWork hg hneeds (fun _ _ _ h => by cases h) hreply rfl
  | putSeed => exact inv.putSeed hg hneeds hreply
  | commit =>
      obtain ⟨rfl, rfl, rfl⟩ | ⟨rfl, rfl, rfl⟩ := hreply
      · exact inv.commit hg hneeds
      · exact inv.stay hg rfl
  | rollback =>
      obtain ⟨rfl, rfl⟩ := hreply
      exact inv.rollback hg
  | flushWAL =>
      obtain ⟨rfl, rfl, rfl⟩ | ⟨rfl, rfl, rfl⟩ := hreply
      · exact inv.flushWAL hg
      · exact inv.stay hg rfl
  | seekMeta target =>
      obtain ⟨rfl, rfl, rfl⟩ := hreply
      exact inv.stay hg ⟨rfl, inv.stores.db.listed target⟩
  | generateInodeNo =>
      obtain ⟨rfl, hnext, rfl, rfl⟩ := hreply
      obtain ⟨hno, inv'⟩ := inv.draw (i := i) hok task tx' l
        (inv.seen i _ hg) (call_ne_ret .generateInodeNo _)
      exact ⟨c, _, Nat.le_refl c, inv.upholds rfl, ⟨hno, rfl⟩, inv'⟩
  | time =>
      obtain ⟨rfl, rfl⟩ := hreply
      exact inv.stay hg rfl

end Calls

-- =============================================================== mounting

/-- A store that passes the check mounts, and the context gets its
counter. -/
theorem Sound.exec_vnMount {db : Store} (h : Sound codec c db)
    (clock : UInt64) :
    (vnMount codec).exec ⟨db, db, none, 0, clock, []⟩
      = .ok (some ⟨c, { rootInode clock with refCnt := 2 }⟩,
        ⟨db, db, none, 0, clock, []⟩) :=
  ViveNas.exec_vnMount (w := ⟨db, db, none, 0, clock, []⟩) rfl h.seed
    (Nat.lt_of_le_of_lt h.high (by decide)) h.superblock

/-- What a mount after a crash or an unmount starts from. -/
theorem StoresAgree.remount (h : StoresAgree F codec c s)
    (hmount : Remounts codec s s') :
    ∃ db, (db = s.durable ∨ db = s.db)
      ∧ s' = ⟨db, db, c, fun _ => none⟩ := by
  obtain ⟨db, clock, ctx, w, hdb, hexec, rfl⟩ := hmount
  have hsound : Sound codec c db := by
    rcases hdb with rfl | rfl
    · exact h.durable
    · exact h.db
  rw [hsound.exec_vnMount] at hexec
  obtain ⟨hctx, -⟩ := Prod.mk.inj (Except.ok.inj hexec)
  refine ⟨db, hdb, ?_⟩
  rw [← Option.some.inj hctx]

/-- After a crash or an unmount nobody is left, and the store the mount
finds agrees with the one before. -/
theorem Upkeep.remount (inv : Upkeep F codec c tr s g)
    (hmount : Remounts codec s s') :
    Agree F s.db s'.db ∧ Upkeep F codec c (.reset :: tr) s' fun _ => none := by
  obtain ⟨db, hdb, rfl⟩ := inv.stores.remount hmount
  have hsound : Sound codec c db ∧ Agree F s.db db := by
    rcases hdb with rfl | rfl
    · exact ⟨inv.stores.durable, inv.stores.agree⟩
    · exact ⟨inv.stores.db, Agree.refl F _⟩
  refine ⟨hsound.2, ⟨hsound.1, hsound.1, fun _ _ => rfl, Agree.refl F _,
    Nat.le_refl c, hsound.1.high⟩, ?_, ?_, ?_, ?_⟩
  · intro j y hy
    cases hy
  · intro j y hy
    cases hy
  · intro j j' y y' m hy
    cases hy
  · intro j task a ha
    rcases List.mem_cons.mp ha with hnew | hold
    · cases hnew
    · exact (inv.answers j task a hold).mono hsound.2.keeps

end Inv

-- ================================================================ any run

section Runs

theorem Upkeep.seed_eq {c : Nat} {tr : List ServiceLabel} {s : Shared}
    {g : Nat → Option SeatClient} (inv : Upkeep F codec c tr s g) :
    s.db.seed = c :=
  inv.stores.db.seed_eq

/-- The invariant in the form of Lib/Pool.lean: every step keeps it, and
keeps what the callers rely on. -/
theorem service_modular :
    Modular (service codec) (Proper F) Seat.start (fun _ => Seat.Moves)
      (fun _ => Seat.Needs F) (fun _ a l => l.Returns F a)
      (fun tr s g => ∃ c, Upkeep F codec c tr s g)
      (fun s s' => Upholds F s s' ∧ s.db.seed ≤ s'.db.seed) where
  refl s := ⟨⟨fun _ h => h, fun _ _ h hnone => absurd h hnone⟩,
    Nat.le_refl _⟩
  safe s i task hok := safe_prog hok
  spawn := by
    intro tr s g i task hinv hnone hok
    obtain ⟨c, inv⟩ := hinv
    have hgiven : task.Given F s.db := hok
    refine ⟨c, inv.advance inv.stores (fun _ h => h) (Nat.le_refl _)
      (fun _ _ h => Or.inl h) (fun _ _ h => ⟨h, rfl⟩) _ ?_ ?_ ?_
      (fun j task' a h => by cases h)⟩
    · intro y hy
      cases hy
      intro t ht
      cases ht
    · intro y hy
      cases hy
      intro rec hrec
      rcases hgiven.inode rec hrec.1 with hroot | hmatch
      · have hE := hrec.2
        rw [hroot.2, extentSize_eq] at hE
        cases hE
      · exact hmatch
    · intro y m hy hm
      cases hy
      cases hm
  call := by
    intro tr s g i x call r s' tx' hinv hg hneeds hreply hok
    obtain ⟨c, inv⟩ := hinv
    obtain ⟨task, tx, l⟩ := x
    obtain ⟨c', l', hc, hup, hmoves, inv'⟩ := inv.call hg hneeds hreply hok
    refine ⟨⟨hup, ?_⟩, l', hmoves, c', inv'⟩
    rw [inv.seed_eq, inv'.seed_eq]
    exact hc
  ret := by
    intro tr s g i x a hinv hg hreturns hok
    obtain ⟨c, inv⟩ := hinv
    have hgives : a.Gives F s.db :=
      ⟨fun n hn => inv.handed hg (hreturns.inodes n hn), hreturns.files⟩
    have hlab : ∀ j task a', (.ret i x.job a : ServiceLabel)
        = .ret j task a' → a'.Gives F s.db := by
      intro j task a' h
      cases h
      exact hgives
    obtain ⟨hup, inv'⟩ := inv.leave (i := i) hlab
    exact ⟨⟨hup, Nat.le_refl _⟩, c, inv'⟩
  abort := by
    intro tr s g i x hinv hg hok
    obtain ⟨c, inv⟩ := hinv
    have hlab : ∀ j task a, (.abort i x.job : ServiceLabel)
        = .ret j task a → a.Gives F s.db := by
      intro j task a h
      cases h
    obtain ⟨hup, inv'⟩ := inv.leave (i := i) hlab
    exact ⟨⟨hup, Nat.le_refl _⟩, c, inv'⟩
  reset := by
    intro tr s g s' hinv hmount hok
    obtain ⟨c, inv⟩ := hinv
    obtain ⟨hagree, inv'⟩ := inv.remount hmount
    refine ⟨⟨hagree.upholds inv'.stores.db, ?_⟩, c, inv'⟩
    rw [inv.seed_eq, inv'.seed_eq]

/-- A file system just formatted passes the check. -/
theorem formattedStore_sound :
    Sound codec vnFirstUserIno (formattedStore codec) where
  superblock := formattedStore_shape.superblock
  seed := by rw [formattedStore_meta, if_pos rfl]
  low := Nat.le_refl _
  high := by decide
  pairs key v hv := by
    rw [formattedStore_meta] at hv
    split at hv
    · next hkey =>
      subst hkey
      cases hv
      exact .seed
    · split at hv
      · next hkey =>
        subst hkey
        cases hv
        exact .superblock
      · cases hv
  single p a q b v hp := by
    rw [formattedStore_meta, if_neg (fileKey_ne_inodeSeedKey p a).symm,
      if_neg (fileKey_ne_superblockKey p a).symm] at hp
    cases hp
  extents key e he := by
    rw [formattedStore_data] at he
    cases he

/-- It holds of a freshly formatted and mounted file system. -/
theorem Service.Fresh.inv {n : Service} (h : n.Fresh codec) :
    n.threads = (fun _ => none)
      ∧ ∃ c, Upkeep F codec c [] n.shared fun _ => none := by
  rw [h.eq]
  refine ⟨rfl, vnFirstUserIno, ⟨formattedStore_sound, formattedStore_sound,
    fun _ _ => rfl, Agree.refl F _, Nat.le_refl _,
    (@formattedStore_sound codec).high⟩, ?_, ?_, ?_, ?_⟩
  · intro j y hy
    cases hy
  · intro j y hy
    cases hy
  · intro j j' y y' m hy
    cases hy
  · intro j task a ha
    cases ha

variable {tr : List ServiceLabel} {n n' : Service}

/-- The invariant holds along every run. -/
theorem upkeep_of_run (hrun : ServiceRun codec (Proper F) tr n) :
    ∃ c g, Upkeep F codec c tr n.shared g := by
  obtain ⟨g, ⟨c, inv⟩, -⟩ := run_modular service_modular
    (fun _ hn => hn.inv) hrun
  exact ⟨c, g, inv⟩

theorem upholds_of_step (hrun : ServiceRun codec (Proper F) tr n)
    {lab : ServiceLabel}
    (hstep : Step (service codec) (Proper F) n lab n') :
    Upholds F n.shared n'.shared :=
  (step_guarantee service_modular (fun _ hn => hn.inv) hrun hstep).1

/-- Whatever callers do, together or one after the other, with store calls
that fail, callers that are aborted, crashes and mounts: the committed
store passes the check, and so does what a crash would leave, with one
counter that the context's is not behind. -/
theorem stores_stay_sound (hrun : ServiceRun codec (Proper F) tr n) :
    ∃ c, Sound codec c n.shared.db ∧ Sound codec c n.shared.durable
      ∧ c ≤ n.shared.inodeSeed := by
  obtain ⟨c, g, inv⟩ := upkeep_of_run hrun
  exact ⟨c, inv.stores.db, inv.stores.durable, inv.stores.ahead⟩

/-- The run that makes the first file. -/
theorem stores_stay_sound_firstFile : ∃ tr n,
    ServiceRun plainCodec (Proper attributes) tr n
      ∧ n.shared.db.metaCf[fileKey vnRootIno nameA]?
        = some (inodeKey vnFirstUserIno)
      ∧ ∃ c, Sound plainCodec c n.shared.db
        ∧ Sound plainCodec c n.shared.durable ∧ c ≤ n.shared.inodeSeed := by
  obtain ⟨tr, n, hrun, hidle⟩ := run_firstTask attributes plainCodec
  refine ⟨_, n, hrun, ?_, stores_stay_sound hrun⟩
  rw [hidle.agrees.db]
  exact oneFileSys_entry 0 0

/-- The mount after a crash, as a step. -/
theorem step_crash (hrun : ServiceRun codec (Proper F) tr n) : ∃ n',
    Step (service codec) (Proper F) n .reset n'
      ∧ n'.shared.db = n.shared.durable := by
  obtain ⟨c, g, inv⟩ := upkeep_of_run hrun
  exact ⟨_, .reset ⟨n.shared.durable, 0, _, _, Or.inl rfl,
    inv.stores.durable.exec_vnMount 0, rfl⟩ trivial, rfl⟩

/-- A crash or an unmount, wherever the callers are, and the mount after
it: every entry is as it was committed, every inode that matched a record
does and no other, and numbers go on from the same counter. -/
theorem remount_keeps_namespace (hrun : ServiceRun codec (Proper F) tr n)
    (hstep : Step (service codec) (Proper F) n .reset n') :
    (∀ p a, n'.shared.db.metaCf[fileKey p a]?
        = n.shared.db.metaCf[fileKey p a]?)
      ∧ Agree F n.shared.db n'.shared.db
      ∧ n'.shared.db.seed = n.shared.db.seed
      ∧ n'.shared.inodeSeed = n.shared.db.seed := by
  obtain ⟨c, g, inv⟩ := upkeep_of_run hrun
  cases hstep with
  | reset hreset hok =>
      obtain ⟨db, hdb, rfl⟩ := inv.stores.remount hreset
      rw [inv.seed_eq]
      rcases hdb with rfl | rfl
      · exact ⟨inv.stores.names, inv.stores.agree,
          inv.stores.durable.seed_eq, rfl⟩
      · exact ⟨fun _ _ => rfl, Agree.refl F _, inv.seed_eq, rfl⟩

/-- A crash after it: the file is on disk. -/
theorem remount_keeps_namespace_firstFile : ∃ tr n n',
    ServiceRun plainCodec (Proper attributes) tr n
      ∧ Step (service plainCodec) (Proper attributes) n .reset n'
      ∧ n'.shared.db = n.shared.durable
      ∧ n'.shared.db.metaCf[fileKey vnRootIno nameA]?
        = some (inodeKey vnFirstUserIno) := by
  obtain ⟨tr, n, hrun, hidle⟩ := run_firstTask attributes plainCodec
  obtain ⟨n', hstep, hdb⟩ := step_crash hrun
  refine ⟨_, n, n', hrun, hstep, hdb, ?_⟩
  rw [(remount_keeps_namespace hrun hstep).1, hidle.agrees.db]
  exact oneFileSys_entry 0 0

/-- A number that is drawn is new: in neither store is there an entry, a
record or an extent with it, also where a crash has set the counter
back. -/
theorem drawn_number_is_new (hrun : ServiceRun codec (Proper F) tr n)
    {i : Nat} {task : Task} {m : Nat}
    (hstep : Step (service codec) (Proper F) n
      (.call i task .generateInodeNo m) n')
    {db : Store} (hdb : db = n.shared.durable ∨ db = n.shared.db) :
    FileNo m ∧ db.metaCf[inodeKey m]? = none
      ∧ (∀ p a, db.metaCf[fileKey p a]? ≠ some (inodeKey m))
      ∧ ∀ idx, db.dataCf[vnExtentKey idx m]? = none := by
  obtain ⟨c, g, inv⟩ := upkeep_of_run hrun
  cases hstep with
  | call hthread hrest hreply hok =>
      obtain ⟨rfl, hnext, -, -⟩ := hreply
      have hahead := inv.stores.ahead
      have hno : FileNo n.shared.inodeSeed :=
        ⟨Nat.le_trans inv.stores.db.low hahead, hok⟩
      have hsound : Sound codec c db := by
        rcases hdb with rfl | rfl
        · exact inv.stores.durable
        · exact inv.stores.db
      have hfree : ¬ db.Recorded n.shared.inodeSeed := by
        intro hrec
        have hlt := (hsound.record hno hrec).1
        omega
      refine ⟨hno, ?_, hsound.no_entry hno hfree, hsound.no_extent hno hfree⟩
      cases hget : db.metaCf[inodeKey n.shared.inodeSeed]? with
      | none => rfl
      | some v => exact absurd ⟨v, hget⟩ hfree

/-- The draw of number 12. -/
theorem drawn_number_is_new_first : ∃ n n',
    ServiceRun plainCodec (Proper attributes) [.spawn 0 firstTask] n
      ∧ Step (service plainCodec) (Proper attributes) n
        (.call 0 firstTask .generateInodeNo vnFirstUserIno) n'
      ∧ ∀ idx, n.shared.db.dataCf[vnExtentKey idx vnFirstUserIno]? = none := by
  have hspawn : ServiceRun plainCodec (Proper attributes)
      [.spawn 0 firstTask] ⟨(freshService plainCodec).shared,
        Function.update (fun _ => none) 0
          (some ⟨firstTask, firstTask.prog, none⟩)⟩ :=
    .step (.init freshService_fresh) (.spawn rfl (firstTask_given _))
  have hreply : (service plainCodec).reply 0 .generateInodeNo
      (freshService plainCodec).shared none vnFirstUserIno
      { (freshService plainCodec).shared with
        inodeSeed := vnFirstUserIno + 1 } none :=
    ⟨rfl, show vnFirstUserIno + 1 < 2 ^ 63 by decide, rfl, rfl⟩
  have hdraw : Step (service plainCodec) (Proper attributes)
      ⟨(freshService plainCodec).shared, Function.update (fun _ => none)
        0 (some ⟨firstTask, firstTask.prog, none⟩)⟩
      (.call 0 firstTask .generateInodeNo vnFirstUserIno) _ :=
    .call (t := ⟨firstTask, firstTask.prog, none⟩) rfl rfl hreply
      (show vnFirstUserIno < plainNos by decide)
  exact ⟨_, _, hspawn, hdraw, (drawn_number_is_new hspawn hdraw
    (Or.inr rfl)).2.2.2⟩

/-- A file starts empty and on disk: at the step its record appears, it
has no extents in either store and every byte of it reads as zero. -/
theorem new_file_is_empty (hrun : ServiceRun codec (Proper F) tr n)
    {lab : ServiceLabel}
    (hstep : Step (service codec) (Proper F) n lab n') {m : Nat}
    (hm : FileNo m) (hnew : n'.shared.db.Recorded m)
    (hold : ¬ n.shared.db.Recorded m) :
    n'.shared.durable = n'.shared.db
      ∧ (∀ idx, n'.shared.db.dataCf[vnExtentKey idx m]? = none)
      ∧ ∀ x, content n'.shared.db m x = 0 := by
  obtain ⟨hdurable, hnone⟩ := (upholds_of_step hrun hstep).fresh m hm hnew hold
  refine ⟨hdurable, hnone, fun x => ?_⟩
  rw [content, extentByte, Store.getData, hnone]

/-- The commit that makes file 12. -/
theorem new_file_is_empty_first : ∃ tr n lab n',
    ServiceRun plainCodec (Proper attributes) tr n
      ∧ Step (service plainCodec) (Proper attributes) n lab n'
      ∧ n'.shared.db.Recorded vnFirstUserIno
      ∧ ¬ n.shared.db.Recorded vnFirstUserIno
      ∧ ∀ x, content n'.shared.db vnFirstUserIno x = 0 := by
  obtain ⟨tr, n, hrun, hidle⟩ := run_firstTask attributes plainCodec
  have hrec : n.shared.db.Recorded vnFirstUserIno := by
    rw [hidle.agrees.db]
    exact ⟨_, oneFileSys_record 0 0⟩
  obtain ⟨tr₁, n₁, lab, n₂, hrun₁, hstep, hnone, hsome⟩ := hrun.crossing
    (P := fun n => n.shared.db.Recorded vnFirstUserIno) (fun n hn hr => by
      rw [hn.eq] at hr
      exact absurd (formattedStore_sound.record fileNo_first hr).1
        (Nat.lt_irrefl _)) hrec
  exact ⟨tr₁, n₁, lab, n₂, hrun₁, hstep, hsome, hnone,
    (new_file_is_empty hrun₁ hstep fileNo_first hsome hnone).2.2⟩

/-- What was handed out stays good: every inode and every handle an API
call ever returned, before crashes too, is one that a call can be made
on, and its record is still there with what calls leave alone. -/
theorem answers_stay_good (hrun : ServiceRun codec (Proper F) tr n)
    {i : Nat} {task : Task} {a : Answer} (ha : Label.ret i task a ∈ tr) :
    a.Gives F n.shared.db := by
  obtain ⟨c, g, inv⟩ := upkeep_of_run hrun
  exact inv.answers i task a ha

/-- The inode of the first file, handed out before a crash. -/
theorem answers_stay_good_firstFile : ∃ tr n,
    ServiceRun plainCodec (Proper attributes) (.reset :: tr) n
      ∧ Label.ret 0 firstTask (.inode vnFirstUserIno (some firstInode)) ∈ tr
      ∧ Handed attributes n.shared.db firstInode := by
  obtain ⟨tr, n, hrun, -⟩ := run_firstTask attributes plainCodec
  obtain ⟨n', hstep, -⟩ := step_crash hrun
  refine ⟨_, n', .step hrun hstep, List.mem_cons_self, ?_⟩
  exact (answers_stay_good (.step hrun hstep)
    (List.mem_cons_of_mem _ List.mem_cons_self)).inodes firstInode
    List.mem_cons_self

/-- Records are forever: no step of any caller, no abort and no crash
removes a file's record or changes what calls leave alone in it, neither
in the committed store nor on disk. -/
theorem records_last (hrun : ServiceRun codec (Proper F) tr n)
    {lab : ServiceLabel}
    (hstep : Step (service codec) (Proper F) n lab n') {m : Nat}
    (hm : FileNo m) {rec : ViveInode}
    (hrec : n.shared.db.metaCf[inodeKey m]? = some rec.toBytes)
    {db : Store} (hdb : db = n'.shared.durable ∨ db = n'.shared.db) :
    ∃ rec' : ViveInode, db.metaCf[inodeKey m]? = some rec'.toBytes
      ∧ F.of rec' = F.of rec := by
  obtain ⟨c, g, inv⟩ := upkeep_of_run hrun
  obtain ⟨c', g', inv'⟩ := upkeep_of_run (.step hrun hstep)
  obtain ⟨hgen, hmatch⟩ := inv.stores.db.matches_record (F := F) hm hrec
  have hkept := (upholds_of_step hrun hstep).keeps rec hmatch
  have hthere : Matches F db rec := by
    rcases hdb with rfl | rfl
    · exact inv'.stores.agree.keeps rec hkept
    · exact hkept
  obtain ⟨rec', hrec', hof⟩ := hthere.record
  rw [hgen.number] at hrec'
  exact ⟨rec', hrec', hof.symm⟩

/-- Its record, through a crash. -/
theorem records_last_firstFile : ∃ tr n n',
    ServiceRun plainCodec (Proper attributes) tr n
      ∧ Step (service plainCodec) (Proper attributes) n .reset n'
      ∧ n.shared.db.metaCf[inodeKey vnFirstUserIno]? = some firstInode.toBytes
      ∧ ∃ rec' : ViveInode, n'.shared.db.metaCf[inodeKey vnFirstUserIno]?
          = some rec'.toBytes
        ∧ rec'.cleared = firstInode.cleared := by
  obtain ⟨tr, n, hrun, hidle⟩ := run_firstTask attributes plainCodec
  obtain ⟨n', hstep, -⟩ := step_crash hrun
  have hrec : n.shared.db.metaCf[inodeKey vnFirstUserIno]?
      = some firstInode.toBytes := by
    rw [hidle.agrees.db]
    exact oneFileSys_record 0 0
  exact ⟨_, n, n', hrun, hstep, hrec,
    records_last hrun hstep fileNo_first hrec (Or.inr rfl)⟩

end Runs

end ViveNas
