/-
Inode numbers are never used twice, whatever is interleaved, aborted or
lost in a crash.

# The two counters

Two counters are in play: the context's, which every create takes its
number from, and the committed one, which a mount starts the context's
from. The first runs ahead of the second. What ties them is the lock on
INODE_SEED_KEY: a create copies the context's counter into its
transaction under that lock, and keeps the lock until it commits. So the
value it holds is past its own number, and nobody moves the committed
counter meanwhile (`Phase.Held`).

# The steps

From there each step is short: a commit moves the committed counter up
to the copied value (`SeedInv.commit`), and a mount, which sets the
context's counter back, sets it back to a value past every number that
was committed (`SeedInv.remount`).
-/
import ViveNas.Proofs.Alone
import ViveNas.Proofs.System

namespace ViveNas

open LittleEndian Pool

-- ======================================================== the two counters

/-- The committed counter. -/
def Store.seed (db : Store) : Nat :=
  leNat ((db.metaCf[inodeSeedKey]?.getD []).take 8)

theorem Store.seed_eq {db : Store} {c : Nat} (hc : c < 2 ^ 64)
    (h : db.metaCf[inodeSeedKey]? = some (leBytes 8 c)) : db.seed = c := by
  rw [Store.seed, h, Option.getD_some,
    List.take_of_length_le (by rw [leBytes_length]), leNat_leBytes_of_lt hc]

/-- The lock a create copies the counter under. -/
def seedLock : Cf × Bytes := (.metaCf, inodeSeedKey)

-- ====================================================== where a create is

/-- Where a `vn_create_file` is: `m` is its number, `k` the counter's
value in its transaction. -/
inductive Phase where
  | start
  | drawn (m : Nat)
  | opened (m : Nat)
  | sealed (m k : Nat)
  | done (m : Nat)
  | closed

namespace Phase

/-- The number a create has drawn and may still return. -/
def number : Phase → Option Nat
  | start | closed => none
  | drawn m | opened m | sealed m _ | done m => some m

/-- How a call and its reply move a create on. -/
def Moves : (c : StoreCall) → Phase → c.Resp → Phase → Prop
  | .generateInodeNo, .start, m, l => m < 2 ^ 63 ∧ l = .drawn m
  | .beginTransaction _, .drawn m, _, l => l = .opened m
  | .putSeed, .opened m, .ok, l => ∃ k, l = .sealed m k
  | .commit, .sealed m _, .ok, l => l = .done m
  | .rollback, _, _, l => l = .closed
  | _, l, _, l' => l' = l

/-- What a create has behind it when it makes a call. -/
def Needs : StoreCall → Phase → Prop
  | .generateInodeNo, l => l = .start
  | .beginTransaction opt, l => opt = .metaOpt ∧ ∃ m, l = .drawn m
  | .put cf key val, l =>
      ∃ m, l = .opened m ∧ (WriteOp.put cf key val).Fits (m + 1)
  | .putSeed, l => ∃ m, l = .opened m
  | .commit, l => ∃ m k, l = .sealed m k
  | .getForUpdate _ _, l => ∃ m, l = .opened m
  | .rollback, _ | .time, _ => True
  | _, _ => False

/-- A create returns an error, or its number once that is committed. -/
def Returns (a : Int) (l : Phase) : Prop :=
  a < 0 ∨ ∃ m : Nat, l = .done m ∧ a = m

end Phase

theorem createFailed_safe {code : Int} (hcode : 0 < code) (l : Phase) :
    (createFailed code).Safe Phase.Moves Phase.Needs
      (fun a l => (pure a.1 : Fs Int).Safe Phase.Moves Phase.Needs
        Phase.Returns l) l := by
  refine Prog.safe_perform trivial fun _ l' _ => ?_
  exact Or.inl (Int.neg_neg_of_pos hcode)

/-- `vn_create_file` keeps to its phases, whatever the replies. -/
theorem create_safe (parent : Int) (name : FileName)
    (mode uid gid : UInt16) :
    (Job.create parent name mode uid gid).prog.Safe Phase.Moves Phase.Needs
      Phase.Returns .start := by
  refine Prog.Safe.bind ?_
  have heio := createFailed_safe (show 0 < eio by decide)
  refine Prog.safe_perform rfl fun ino l hdraw => ?_
  obtain ⟨hino, rfl⟩ := hdraw
  refine Prog.safe_perform trivial fun now l hl => ?_
  obtain rfl : l = .drawn ino := hl
  refine Prog.safe_perform ⟨rfl, ino, rfl⟩ fun _ l hl => ?_
  obtain rfl : l = .opened ino := hl
  have hnew := newInode_iNo (Nat.lt_trans hino (by decide)) mode uid gid now
  refine Prog.safe_perform ⟨ino, rfl⟩ fun status l hl => ?_
  obtain rfl : l = .opened ino := hl
  cases status with
  | ok v => exact createFailed_safe (by decide) _
  | notFound | failed =>
      refine Prog.safe_perform ⟨ino, rfl, fileKey_ne_superblockKey _ _,
        fileKey_ne_inodeSeedKey _ _, Or.inl ⟨ino, Nat.le_succ ino, rfl⟩⟩
        fun status l hl => ?_
      obtain rfl : l = .opened ino := hl
      cases status with
      | failed => exact heio _
      | ok =>
      refine Prog.safe_perform ⟨ino, rfl, fits_record (by
        rw [hnew]; exact Nat.lt_succ_self ino)⟩ fun status l hl => ?_
      obtain rfl : l = .opened ino := hl
      cases status with
      | failed => exact heio _
      | ok =>
      refine Prog.safe_perform ⟨ino, rfl⟩ fun status l hl => ?_
      cases status with
      | failed => exact heio _
      | ok =>
      obtain ⟨k, rfl⟩ := hl
      refine Prog.safe_perform ⟨ino, k, rfl⟩ fun status l hl => ?_
      cases status with
      | failed => exact heio _
      | ok =>
      obtain rfl : l = .done ino := hl
      exact Or.inr ⟨ino, rfl, asInt64_of_lt hino⟩

-- ========================================================== the invariant

/-- What a create in its phase can rely on. `c` is the committed
counter. -/
def Phase.Held (c : Nat) (s : Shared) (i : Nat) (tx : Option Tx) :
    Phase → Prop
  | .start | .closed => True
  | .drawn m => vnFirstUserIno ≤ m ∧ m < s.inodeSeed
  | .opened m => (vnFirstUserIno ≤ m ∧ m < s.inodeSeed)
      ∧ ∃ b, tx = some ⟨.metaOpt, b⟩ ∧ ∀ op ∈ b, op.Fits (m + 1)
  | .sealed m k => (vnFirstUserIno ≤ m ∧ m < k)
      ∧ (c ≤ k ∧ k ≤ s.inodeSeed) ∧ s.locks seedLock = some i
      ∧ ∃ b, tx = some ⟨.metaOpt, b
          ++ [.put .metaCf inodeSeedKey (leBytes 8 k)]⟩
        ∧ ∀ op ∈ b, op.Fits (m + 1)
  | .done m => vnFirstUserIno ≤ m ∧ m < c

/-- The number a label says a create returned. -/
def returnedNo : ServerLabel → Option Int
  | .ret _ (.create ..) a => if 0 ≤ a then some a else none
  | _ => none

/-- The numbers returned by successful creates, the newest first. -/
def returned (tr : List ServerLabel) : List Int := tr.filterMap returnedNo

/-- The store and the two counters. -/
structure SeedShared (codec : SuperblockCodec) (c : Nat) (s : Shared) :
    Prop where
  shape : StoreShape codec s.db c
  seed : s.db.metaCf[inodeSeedKey]? = some (leBytes 8 c)
  durable : s.durable = s.db
  low : vnFirstUserIno ≤ c
  ahead : c ≤ s.inodeSeed
  high : s.inodeSeed < 2 ^ 63

abbrev CreateClient := Client (Option Tx) Job Phase

structure SeedInv (codec : SuperblockCodec) (c : Nat)
    (tr : List ServerLabel) (s : Shared) (g : Nat → Option CreateClient) :
    Prop where
  shared : SeedShared codec c s
  held : ∀ i x, g i = some x → x.loc.Held c s i x.priv
  distinct : ∀ i j x y m, g i = some x → g j = some y →
    x.loc.number = some m → y.loc.number = some m → i = j
  unreturned : ∀ i x m, g i = some x → x.loc.number = some m →
    (m : Int) ∉ returned tr
  returned : ∀ a ∈ returned tr, ∃ m : Nat, a = m ∧ vnFirstUserIno ≤ m ∧ m < c
  nodup : (ViveNas.returned tr).Nodup

section Inv

variable {codec : SuperblockCodec} {c c' : Nat} {s s' : Shared}
  {tr : List ServerLabel} {g : Nat → Option CreateClient} {i : Nat}
  {x : CreateClient} {lab : ServerLabel}

/-- A create's number has been drawn. -/
theorem Phase.Held.number_lt {l : Phase} {tx : Option Tx}
    (h : l.Held c s i tx) (hahead : c ≤ s.inodeSeed) {m : Nat}
    (hm : l.number = some m) : m < s.inodeSeed := by
  cases l with
  | start | closed => cases hm
  | drawn n =>
      cases hm
      exact h.2
  | opened n =>
      cases hm
      exact h.1.2
  | sealed n k =>
      cases hm
      obtain ⟨hn, hk, -⟩ := h
      omega
  | done n =>
      cases hm
      obtain ⟨-, hn⟩ := h
      omega

/-- What other callers may do to a create: move the counters up, but not
the committed one while it has the seed's lock. -/
theorem Phase.Held.rely {l : Phase} {tx : Option Tx} (h : l.Held c s i tx)
    (hc : c ≤ c') (hseed : s.inodeSeed ≤ s'.inodeSeed)
    (hlock : s.locks seedLock = some i →
      s'.locks seedLock = some i ∧ c' = c) : l.Held c' s' i tx := by
  cases l with
  | start | closed => trivial
  | drawn m => exact ⟨h.1, by have := h.2; omega⟩
  | opened m =>
      obtain ⟨hm, hb⟩ := h
      exact ⟨⟨hm.1, by omega⟩, hb⟩
  | sealed m k =>
      obtain ⟨hm, hk, hown, hb⟩ := h
      obtain ⟨hown', rfl⟩ := hlock hown
      exact ⟨hm, ⟨hk.1, by omega⟩, hown', hb⟩
  | done m => exact ⟨h.1, by have := h.2; omega⟩

/-- One caller moves on, comes or goes; the others rely on what it did. -/
theorem SeedInv.advance (inv : SeedInv codec c tr s g)
    (hshared : SeedShared codec c' s') (hc : c ≤ c')
    (hseed : s.inodeSeed ≤ s'.inodeSeed)
    (hlock : ∀ j, j ≠ i → s.locks seedLock = some j →
      s'.locks seedLock = some j ∧ c' = c)
    (x' : Option CreateClient)
    (hx : ∀ y, x' = some y → y.loc.Held c' s' i y.priv)
    (hnum : ∀ y m, x' = some y → y.loc.number = some m →
      (∃ x, g i = some x ∧ x.loc.number = some m) ∨ s.inodeSeed ≤ m)
    (hlab : returnedNo lab = none) :
    SeedInv codec c' (lab :: tr) s' (Function.update g i x') := by
  have hret : ViveNas.returned (lab :: tr) = ViveNas.returned tr :=
    List.filterMap_cons_none hlab
  -- the number of another caller is not the one `i` has now
  have hother : ∀ j y y' m, j ≠ i → g j = some y → y.loc.number = some m →
      x' = some y' → y'.loc.number ≠ some m := by
    intro j y y' m hj hy hm hy' hm'
    rcases hnum y' m hy' hm' with ⟨x, hg, hold⟩ | hnew
    · exact hj (inv.distinct j i y x m hy hg hm hold)
    · have := (inv.held j y hy).number_lt inv.shared.ahead hm
      omega
  constructor
  case shared => exact hshared
  case held =>
    exact Partial.forall_update hx fun j hj y hy =>
      (inv.held j y hy).rely hc hseed (hlock j hj)
  case distinct =>
    intro j j' y y' m hy hy' hm hm'
    by_cases hj : j = i <;> by_cases hj' : j' = i
    · exact hj.trans hj'.symm
    · subst hj
      rw [Function.update_self] at hy
      rw [Function.update_of_ne hj'] at hy'
      exact absurd hm (hother j' y' y m hj' hy' hm' hy)
    · subst hj'
      rw [Function.update_self] at hy'
      rw [Function.update_of_ne hj] at hy
      exact absurd hm' (hother j y y' m hj hy hm hy')
    · rw [Function.update_of_ne hj] at hy
      rw [Function.update_of_ne hj'] at hy'
      exact inv.distinct j j' y y' m hy hy' hm hm'
  case unreturned =>
    rw [hret]
    intro j y m hy
    revert j y
    refine Partial.forall_update (fun y hy hm => ?_)
      fun j _ y hy hm => inv.unreturned j y m hy hm
    rcases hnum y m hy hm with ⟨x, hg, hold⟩ | hnew
    · exact inv.unreturned i x m hg hold
    · intro hmem
      obtain ⟨n, hn, -, hlt⟩ := inv.returned _ hmem
      have := inv.shared.ahead
      omega
  case returned =>
    intro a ha
    rw [hret] at ha
    obtain ⟨m, hm, hlow, hlt⟩ := inv.returned a ha
    exact ⟨m, hm, hlow, by omega⟩
  case nodup =>
    rw [hret]
    exact inv.nodup

-- ============================================================== the steps

/-- A step that leaves the store and the counters as they are. -/
theorem SeedInv.quiet (inv : SeedInv codec c tr s g) (hg : g i = some x)
    (locks : Cf × Bytes → Option Nat)
    (hlocks : ∀ j, j ≠ i → s.locks seedLock = some j →
      locks seedLock = some j)
    {x' : CreateClient}
    (hx : x'.loc.Held c { s with locks := locks } i x'.priv)
    (hnum : x'.loc.number = x.loc.number ∨ x'.loc.number = none)
    (hlab : returnedNo lab = none) :
    SeedInv codec c (lab :: tr) { s with locks := locks }
      (Function.update g i (some x')) := by
  have hshared : SeedShared codec c { s with locks := locks } :=
    ⟨inv.shared.shape, inv.shared.seed, inv.shared.durable, inv.shared.low,
      inv.shared.ahead, inv.shared.high⟩
  refine inv.advance hshared (Nat.le_refl c) (Nat.le_refl _)
    (fun j hj h => ⟨hlocks j hj h, rfl⟩) (some x') ?_ ?_ hlab
  · rintro y hy
    cases hy
    exact hx
  · rintro y m hy hm
    cases hy
    rcases hnum with hsame | hnone
    · exact Or.inl ⟨x, hg, hsame ▸ hm⟩
    · cases hnone.symm.trans hm

/-- `generate_inode_no`. -/
theorem SeedInv.draw (inv : SeedInv codec c tr s g)
    (hnext : s.inodeSeed + 1 < 2 ^ 63) (job : Job) (tx : Option Tx)
    (hlab : returnedNo lab = none) :
    SeedInv codec c (lab :: tr) { s with inodeSeed := s.inodeSeed + 1 }
      (Function.update g i (some ⟨job, tx, .drawn s.inodeSeed⟩)) := by
  have hlow := inv.shared.low
  have hahead := inv.shared.ahead
  have hshared : SeedShared codec c
      { s with inodeSeed := s.inodeSeed + 1 } :=
    ⟨inv.shared.shape, inv.shared.seed, inv.shared.durable, hlow,
      Nat.le_succ_of_le hahead, hnext⟩
  refine inv.advance hshared (Nat.le_refl c) (Nat.le_succ _)
    (fun j hj h => ⟨h, rfl⟩) _ ?_ ?_ hlab
  · rintro y hy
    cases hy
    exact ⟨by omega, Nat.lt_succ_self _⟩
  · rintro y m hy hm
    cases hy
    cases hm
    exact Or.inr (Nat.le_refl _)

/-- A commit: the counter the transaction holds becomes the committed
one. -/
theorem SeedInv.commit (inv : SeedInv codec c tr s g) (hg : g i = some x)
    {m k : Nat} (hloc : x.loc = .sealed m k)
    (hlab : returnedNo lab = none) :
    c ≤ k ∧ SeedInv codec k (lab :: tr) (s.commitTx i x.priv)
      (Function.update g i (some ⟨x.job, none, .done m⟩)) := by
  have hheld := inv.held i x hg
  rw [hloc] at hheld
  obtain ⟨⟨hlow, hmk⟩, ⟨hck, hk⟩, hlock, b, htx, hb⟩ := hheld
  have hhigh := inv.shared.high
  have hdb : (s.db.applyBatch
      (b ++ [.put .metaCf inodeSeedKey (leBytes 8 k)])).metaCf[inodeSeedKey]?
      = some (leBytes 8 k) := by
    rw [Store.applyBatch_append, Store.applyBatch_singleton,
      Store.applyOp_meta, WriteOp.onMeta, if_pos rfl]
  have hshape : StoreShape codec (s.db.applyBatch
      (b ++ [.put .metaCf inodeSeedKey (leBytes 8 k)])) k := by
    rw [Store.applyBatch_append, Store.applyBatch_singleton]
    refine StoreShape.put_meta ?_ superblockKey_ne_inodeSeedKey.symm
      (Or.inl ⟨k, Nat.le_refl k, rfl⟩)
    exact (inv.shared.shape.mono hck).applyBatch
      fun op hop => (hb op hop).mono hmk
  have hshared : SeedShared codec k (s.commitTx i (some ⟨.metaOpt,
      b ++ [.put .metaCf inodeSeedKey (leBytes 8 k)]⟩)) := by
    rw [Shared.commitTx_metaOpt]
    exact ⟨hshape, hdb, rfl, Nat.le_trans inv.shared.low hck, hk, hhigh⟩
  refine ⟨hck, ?_⟩
  rw [htx]
  refine inv.advance hshared hck (Nat.le_refl _) ?_ _ ?_ ?_ hlab
  · -- the lock is the committer's, so nobody else is waiting to commit
    intro j hj hother
    exact absurd (Option.some.inj (hother.symm.trans hlock)) hj
  · rintro y hy
    cases hy
    exact ⟨hlow, hmk⟩
  · rintro y n hy hn
    cases hy
    cases hn
    exact Or.inl ⟨x, hg, by rw [hloc]; rfl⟩

/-- A caller leaves without a number. -/
theorem SeedInv.leave (inv : SeedInv codec c tr s g)
    (hlab : returnedNo lab = none) :
    SeedInv codec c (lab :: tr) (s.release i)
      (Function.update g i none) := by
  have hshared : SeedShared codec c (s.release i) :=
    ⟨inv.shared.shape, inv.shared.seed, inv.shared.durable, inv.shared.low,
      inv.shared.ahead, inv.shared.high⟩
  refine inv.advance hshared (Nat.le_refl c) (Nat.le_refl _)
    (fun j hj h => ⟨Shared.release_of_ne hj h, rfl⟩) none ?_ ?_ hlab
  · rintro y hy
    cases hy
  · rintro y m hy
    cases hy

/-- A caller leaves with the number it committed. -/
theorem SeedInv.return (inv : SeedInv codec c tr s g) (hg : g i = some x)
    {m : Nat} (hloc : x.loc = .done m)
    (hlab : returnedNo lab = some (m : Int)) :
    SeedInv codec c (lab :: tr) (s.release i)
      (Function.update g i none) := by
  have hret : ViveNas.returned (lab :: tr) = (m : Int) :: ViveNas.returned tr :=
    List.filterMap_cons_some hlab
  have hheld := inv.held i x hg
  rw [hloc] at hheld
  have hnum : x.loc.number = some m := by rw [hloc]; rfl
  have hquiet : SeedInv codec c (.reset :: tr) (s.release i)
      (Function.update g i none) := inv.leave rfl
  have hkeep : ∀ j y, Function.update g i none j = some y →
      j ≠ i ∧ g j = some y := by
    exact Partial.forall_update (fun y hy => by cases hy)
      fun j hj y hy => ⟨hj, hy⟩
  refine ⟨hquiet.shared, hquiet.held, hquiet.distinct, ?_, ?_, ?_⟩
  · intro j y n hy hn
    obtain ⟨hj, hgj⟩ := hkeep j y hy
    rw [hret, List.mem_cons, not_or]
    refine ⟨fun hsame => hj ?_, inv.unreturned j y n hgj hn⟩
    obtain rfl := Int.ofNat.inj hsame
    exact inv.distinct j i y x n hgj hg hn hnum
  · intro a ha
    rw [hret, List.mem_cons] at ha
    rcases ha with rfl | ha
    · exact ⟨m, rfl, hheld.1, hheld.2⟩
    · exact inv.returned a ha
  · rw [hret, List.nodup_cons]
    exact ⟨inv.unreturned i x m hg hnum, inv.nodup⟩

/-- What `vn_mount` loads from a store of that shape. -/
theorem Remounts.eq (hshared : SeedShared codec c s)
    (hmount : Remounts codec s s') :
    s' = ⟨s.db, s.db, c, fun _ => none⟩ := by
  obtain ⟨db, clock, ctx, w, hdb, hexec, rfl⟩ := hmount
  obtain rfl : db = s.db := hdb.elim (·.trans hshared.durable) id
  have hhigh := hshared.high
  have hahead := hshared.ahead
  rw [exec_vnMount (w := ⟨s.db, s.db, none, 0, clock, []⟩) rfl hshared.seed
    (by omega) hshared.shape.superblock] at hexec
  obtain ⟨hctx, -⟩ := Prod.mk.inj (Except.ok.inj hexec)
  rw [← Option.some.inj hctx]

/-- A crash or an unmount, and the mount after it: the context's counter
falls back to the committed one, past every number that was returned. -/
theorem SeedInv.remount (inv : SeedInv codec c tr s g)
    (hmount : Remounts codec s s') :
    SeedInv codec c (.reset :: tr) s' fun _ => none := by
  have hhigh := inv.shared.high
  have hahead := inv.shared.ahead
  rw [hmount.eq inv.shared]
  refine ⟨⟨inv.shared.shape, inv.shared.seed, rfl, inv.shared.low,
    Nat.le_refl c, by show c < 2 ^ 63; omega⟩, ?_, ?_, ?_, inv.returned,
    inv.nodup⟩
  · rintro j y hy
    cases hy
  · rintro j j' y y' m hy
    cases hy
  · rintro j y m hy
    cases hy

/-- Any call of a create, with any reply. -/
theorem SeedInv.call (inv : SeedInv codec c tr s g) {job : Job}
    {tx tx' : Option Tx} {l : Phase} (hg : g i = some ⟨job, tx, l⟩)
    {call : StoreCall} {r : call.Resp} (hneeds : Phase.Needs call l)
    (hreply : reply i call s tx r s' tx') :
    ∃ c' l', c ≤ c' ∧ Phase.Moves call l r l'
      ∧ SeedInv codec c' (.call i job call r :: tr) s'
        (Function.update g i (some ⟨job, tx', l'⟩)) := by
  have hheld := inv.held i _ hg
  have hsame : SeedInv codec c (.call i job call r :: tr) s
      (Function.update g i (some ⟨job, tx, l⟩)) :=
    inv.quiet hg s.locks (fun _ _ h => h) hheld (Or.inl rfl) rfl
  cases call with
  | get cf key | merge key val | delete cf key | flushWAL | seekMeta target =>
      exact hneeds.elim
  | beginTransaction opt =>
      obtain ⟨rfl, m, rfl⟩ := hneeds
      obtain ⟨rfl, rfl⟩ := hreply
      refine ⟨c, .opened m, Nat.le_refl c, rfl,
        inv.quiet hg s'.locks (fun _ _ h => h) ?_ (Or.inl rfl) rfl⟩
      exact ⟨hheld, [], rfl, fun op hop => by cases hop⟩
  | getForUpdate cf key =>
      obtain ⟨m, rfl⟩ := hneeds
      obtain ⟨hgrant, -, rfl, rfl⟩ | ⟨-, rfl, rfl⟩ := hreply
      · exact ⟨c, .opened m, Nat.le_refl c, rfl, inv.quiet hg _
          (fun j hj h => Shared.lock_of_ne hj hgrant h) hheld (Or.inl rfl)
          rfl⟩
      · exact ⟨c, .opened m, Nat.le_refl c, rfl, hsame⟩
  | put cf key val =>
      obtain ⟨m, rfl, hfits⟩ := hneeds
      obtain ⟨rfl, hgrant, rfl, rfl⟩ | ⟨rfl, rfl, rfl⟩ := hreply
      · refine ⟨c, .opened m, Nat.le_refl c, rfl, inv.quiet hg _
          (fun j hj h => Shared.lock_of_ne hj hgrant h) ?_ (Or.inl rfl) rfl⟩
        obtain ⟨hm, b, rfl, hb⟩ := hheld
        refine ⟨hm, b ++ [.put cf key val], rfl, fun op hop => ?_⟩
        rcases List.mem_append.mp hop with hold | hnew
        · exact hb op hold
        · obtain rfl := List.mem_singleton.mp hnew
          exact hfits
      · exact ⟨c, .opened m, Nat.le_refl c, rfl, hsame⟩
  | putSeed =>
      obtain ⟨m, rfl⟩ := hneeds
      obtain ⟨rfl, hgrant, rfl, rfl⟩ | ⟨rfl, rfl, rfl⟩ := hreply
      · refine ⟨c, .sealed m s.inodeSeed, Nat.le_refl c, ⟨_, rfl⟩,
          inv.quiet hg _ (fun j hj h => Shared.lock_of_ne hj hgrant h) ?_
            (Or.inl rfl) rfl⟩
        obtain ⟨hm, b, rfl, hb⟩ := hheld
        exact ⟨hm, ⟨inv.shared.ahead, Nat.le_refl _⟩,
          Shared.lock_self s i seedLock, b, rfl, hb⟩
      · exact ⟨c, .opened m, Nat.le_refl c, rfl, hsame⟩
  | commit =>
      obtain ⟨m, k, rfl⟩ := hneeds
      obtain ⟨rfl, rfl, rfl⟩ | ⟨rfl, rfl, rfl⟩ := hreply
      · obtain ⟨hck, hinv⟩ : c ≤ k ∧ SeedInv codec k
            (.call i job .commit .ok :: tr) _ _ := inv.commit hg rfl rfl
        exact ⟨k, .done m, hck, rfl, hinv⟩
      · exact ⟨c, .sealed m k, Nat.le_refl c, rfl, hsame⟩
  | rollback =>
      obtain ⟨rfl, rfl⟩ := hreply
      exact ⟨c, .closed, Nat.le_refl c, rfl, inv.quiet hg _
        (fun j hj h => Shared.release_of_ne hj h) trivial (Or.inr rfl) rfl⟩
  | generateInodeNo =>
      obtain rfl : l = .start := hneeds
      obtain ⟨rfl, hnext, rfl, rfl⟩ := hreply
      have hhigh := inv.shared.high
      exact ⟨c, .drawn s.inodeSeed, Nat.le_refl c, ⟨hhigh, rfl⟩,
        inv.draw hnext job _ rfl⟩
  | time =>
      obtain ⟨rfl, rfl⟩ := hreply
      exact ⟨c, l, Nat.le_refl c, rfl, hsame⟩

end Inv

-- ================================================================ any run

section Runs

variable {codec : SuperblockCodec}

/-- Callers that create; they may be aborted, and the file system may be
remounted, at any point. -/
def CreatesOnly (_ : Shared) : ServerLabel → Prop
  | .spawn _ (.unlink ..) => False
  | _ => True

theorem SeedInv.seed_eq {c : Nat} {tr : List ServerLabel} {s : Shared}
    {g : Nat → Option CreateClient} (inv : SeedInv codec c tr s g) :
    s.db.seed = c := by
  have hhigh := inv.shared.high
  have hahead := inv.shared.ahead
  exact Store.seed_eq (by omega) inv.shared.seed

theorem creates_modular :
    Modular (server codec) CreatesOnly (fun _ => Phase.start)
      (fun _ => Phase.Moves) (fun _ => Phase.Needs) (fun _ => Phase.Returns)
      (fun tr s g => ∃ c, SeedInv codec c tr s g)
      (fun s s' => s.db.seed ≤ s'.db.seed) where
  refl _ := Nat.le_refl _
  safe s i job hok := by
    cases job with
    | create parent name mode uid gid => exact create_safe ..
    | unlink parent name => exact hok.elim
  spawn := by
    rintro tr s g i job ⟨c, inv⟩ hnone hok
    refine ⟨c, inv.advance inv.shared (Nat.le_refl c) (Nat.le_refl _)
      (fun _ _ h => ⟨h, rfl⟩) _ ?_ ?_ rfl⟩
    · rintro y hy
      cases hy
      trivial
    · rintro y m hy hm
      cases hy
      cases hm
  call := by
    rintro tr s g i ⟨job, tx, l⟩ call r s' tx' ⟨c, inv⟩ hg hneeds hreply -
    obtain ⟨c', l', hc, hmoves, inv'⟩ := inv.call hg hneeds hreply
    refine ⟨?_, l', hmoves, c', inv'⟩
    rw [inv.seed_eq, inv'.seed_eq]
    exact hc
  ret := by
    rintro tr s g i x a ⟨c, inv⟩ hg hreturns -
    refine ⟨Nat.le_refl _, c, ?_⟩
    cases hno : returnedNo (.ret i x.job a) with
    | none => exact inv.leave hno
    | some b =>
        -- only a create's number is one, and it is what was returned
        have hb : 0 ≤ a ∧ b = a := by
          cases hjob : x.job with
          | unlink parent name => rw [hjob] at hno; cases hno
          | create parent name mode uid gid =>
              rw [hjob, returnedNo] at hno
              split at hno
              · next hpos => exact ⟨hpos, (Option.some.inj hno).symm⟩
              · cases hno
        obtain ⟨hpos, rfl⟩ := hb
        obtain hneg | ⟨m, hloc, rfl⟩ := hreturns
        · omega
        · exact inv.return hg hloc hno
  abort := by
    rintro tr s g i x ⟨c, inv⟩ - -
    exact ⟨Nat.le_refl _, c, inv.leave rfl⟩
  reset := by
    rintro tr s g s' ⟨c, inv⟩ hmount -
    have inv' := inv.remount hmount
    refine ⟨?_, c, inv'⟩
    rw [inv.seed_eq, inv'.seed_eq]

/-- A fresh file system: the first number is 12. -/
theorem Server.Fresh.inv {n : Server} (h : n.Fresh codec) :
    SeedInv codec vnFirstUserIno [] n.shared fun _ => none := by
  obtain ⟨-, clock, r, w, hmkfs, hmount⟩ := h
  rw [exec_vnMkfsVivefs (w := blankWorld clock) rfl] at hmkfs
  obtain ⟨-, rfl⟩ := Prod.mk.inj (Except.ok.inj hmkfs)
  have hseed : (formattedStore codec).metaCf[inodeSeedKey]?
      = some (leBytes 8 vnFirstUserIno) := by
    rw [formattedStore_meta, if_pos rfl]
  -- the seed in memory before the mount does not matter
  have hshared : SeedShared codec vnFirstUserIno
      ⟨formattedStore codec, formattedStore codec, vnFirstUserIno,
        fun _ => none⟩ :=
    ⟨formattedStore_shape, hseed, rfl, Nat.le_refl _, Nat.le_refl _,
      show vnFirstUserIno < 2 ^ 63 by decide⟩
  have hmount' : Remounts codec ⟨formattedStore codec, formattedStore codec,
      vnFirstUserIno, fun _ => none⟩ n.shared := hmount
  rw [hmount'.eq hshared]
  refine ⟨hshared, ?_, ?_, ?_, ?_, List.nodup_nil⟩
  · rintro j y hy
    cases hy
  · rintro j j' y y' m hy
    cases hy
  · rintro j y m hy
    cases hy
  · rintro a ha
    cases ha

/-- Along any interleaving of creates, with aborts, crashes, unmounts and
mounts: the committed counter never falls and is past every committed
record's number, numbers start at 12, and none is returned twice. -/
theorem numbers_never_reused {tr : List ServerLabel} {n : Server}
    (hrun : ServerRun codec (Server.Fresh codec) CreatesOnly tr n) :
    (∀ lab n', Step (server codec) CreatesOnly n lab n' →
        n.shared.db.seed ≤ n'.shared.db.seed)
      ∧ (∀ key (rec : ViveInode), key ≠ superblockKey →
        n.shared.db.metaCf[key]? = some rec.toBytes →
        rec.iNo.toNat < n.shared.db.seed)
      ∧ (∀ a ∈ returned tr, (vnFirstUserIno : Int) ≤ a)
      ∧ (returned tr).Nodup := by
  have hinit : ∀ n : Server, n.Fresh codec → n.threads = (fun _ => none)
      ∧ ∃ c, SeedInv codec c [] n.shared fun _ => none :=
    fun n hn => ⟨hn.1, vnFirstUserIno, hn.inv⟩
  obtain ⟨g, ⟨c, inv⟩, -⟩ := run_modular creates_modular hinit hrun
  refine ⟨fun lab n' hstep => step_guarantee creates_modular hinit hrun hstep,
    fun key rec hkey hrec => ?_, fun a ha => ?_, inv.nodup⟩
  · rw [inv.seed_eq]
    exact inv.shared.shape.record_lt hkey hrec
  · obtain ⟨m, rfl, hlow, -⟩ := inv.returned a ha
    exact Int.ofNat_le.mpr hlow

/-- A server on a file system just formatted and mounted. -/
def freshServer (codec : SuperblockCodec) : Server :=
  ⟨⟨formattedStore codec, formattedStore codec, vnFirstUserIno,
    fun _ => none⟩, fun _ => none⟩

theorem freshServer_fresh : (freshServer codec).Fresh codec := by
  have hshape : StoreShape codec (formattedStore codec) vnFirstUserIno :=
    formattedStore_shape
  have hseed : (formattedStore codec).metaCf[inodeSeedKey]?
      = some (leBytes 8 vnFirstUserIno) :=
    (formattedStore_meta inodeSeedKey).trans (if_pos rfl)
  let w : World := ⟨formattedStore codec, formattedStore codec, none, 0, 0, []⟩
  have hcalm : Calm w := rfl
  exact ⟨rfl, 0, 0, _, exec_vnMkfsVivefs rfl, formattedStore codec, 0, _, w,
    Or.inl rfl, exec_vnMount hcalm hseed (by decide) hshape.superblock, rfl⟩

theorem returned_soloLabels (i : Nat) (job : Job) (p : Fs Int) (w : World) :
    returned (soloLabels i job p w) = [] := by
  refine List.filterMap_eq_nil_iff.mpr fun lab hlab => ?_
  obtain ⟨e, -, rfl⟩ := List.mem_map.mp (List.mem_reverse.mp hlab)
  rfl

/-- A create made while nobody else is there, in a world like the
server's. -/
theorem run_createAlone {tr : List ServerLabel} {n : Server} {w w' : World}
    (hrun : ServerRun codec (Server.Fresh codec) CreatesOnly tr n)
    (hidle : n.threads = fun _ => none)
    (hlocks : n.shared.locks = fun _ => none) (hs : n.shared.Agrees w)
    (htx : w.tx = none) {p : Int} {a : FileName} {m : Nat}
    {inode : Option ViveInode}
    (hexec : (vnCreateFile p a 0 0 0).exec w = .ok ((m, inode), w')) :
    ∃ tr' n', ServerRun codec (Server.Fresh codec) CreatesOnly tr' n'
      ∧ returned tr' = (m : Int) :: returned tr
      ∧ (.reset ∈ tr → .reset ∈ tr') ∧ n'.shared.Agrees w' := by
  obtain ⟨job, hjob⟩ : ∃ job, job = Job.create p a 0 0 0 := ⟨_, rfl⟩
  have hprog : job.prog.exec w = .ok ((m : Int), w') := by
    rw [hjob]
    exact (exec_bind_ok hexec).trans rfl
  have hspawn : CreatesOnly n.shared (.spawn 0 job) := by
    rw [hjob]
    trivial
  have hstart := hrun.step (.spawn (by rw [hidle]) hspawn)
  have hthread : Function.update n.threads 0
      (some ⟨job, job.prog, none⟩) 0 = some ⟨job, job.prog, w.tx⟩ := by
    rw [htx]
    exact Function.update_self ..
  obtain ⟨s, hcalls, hs', -⟩ := run_solo (i := 0) rfl hstart hthread hs
    (fun key => Or.inl (congrFun hlocks key)) (fun _ _ _ _ => trivial) hprog
  have hdone := hcalls.step (.ret (Function.update_self ..) rfl trivial)
  have hret : returnedNo (.ret 0 job (m : Int)) = some (m : Int) := by
    rw [hjob, returnedNo, if_pos (Int.natCast_nonneg m)]
  refine ⟨_, _, hdone, ?_, fun h => ?_, ⟨hs'.db, hs'.durable, hs'.inodeSeed⟩⟩
  · have hlabels := returned_soloLabels 0 job job.prog w
    rw [returned] at hlabels
    refine (List.filterMap_cons_some hret).trans
      (congrArg (List.cons (m : Int)) ?_)
    rw [List.filterMap_append, hlabels]
    rfl
  · exact List.mem_cons_of_mem _ (List.mem_append_right _
      (List.mem_cons_of_mem _ h))

/-- A file, a crash and a mount, and another file: 12 and 13. -/
theorem numbers_never_reused_remount : ∃ tr n, ServerRun plainCodec
    (Server.Fresh plainCodec) CreatesOnly tr n
    ∧ .reset ∈ tr ∧ returned tr = [13, 12] ∧ (returned tr).Nodup := by
  obtain ⟨tr₁, n₁, hrun₁, hfirst, -, hs₁⟩ := run_createAlone
    (.init (@freshServer_fresh plainCodec)) rfl rfl
    (w := (mountedSys plainCodec 0 0).world) ⟨rfl, rfl, rfl⟩ rfl
    (exec_vnCreateFile_first 0 0 vnRootIno nameA 0 0 0)
  -- what the crash leaves is what was committed
  obtain ⟨db, hdb⟩ : ∃ db, db = (oneFileSys plainCodec 0 0).world.db :=
    ⟨_, rfl⟩
  have hdurable : db = n₁.shared.durable := hdb.trans hs₁.durable.symm
  have hmount : (vnMount plainCodec).exec ⟨db, db, none, 0, 0, []⟩ = _ :=
    exec_vnMount (w := ⟨db, db, none, 0, 0, []⟩) rfl
      (hdb ▸ oneFileSys_seed 0 0) (by decide)
      (hdb ▸ oneFileSys_superblock 0 0)
  have hcrash := hrun₁.step (.reset (n := n₁)
    ⟨db, 0, _, _, Or.inl hdurable, hmount, rfl⟩ trivial)
  have hcreate : (vnCreateFile vnRootIno nameB 0 0 0).exec
      ⟨db, db, none, vnFirstUserIno + 1, 0, []⟩ = _ :=
    exec_vnCreateFile_fresh (w := ⟨db, db, none, vnFirstUserIno + 1, 0, []⟩)
      rfl (show vnFirstUserIno + 1 + 1 < 2 ^ 63 by decide) 0 0 0
      (hdb ▸ oneFileSys_nameB 0 0)
  obtain ⟨tr₂, n₂, hrun₂, hsecond, hreset, -⟩ := run_createAlone hcrash rfl
    rfl ⟨rfl, rfl, rfl⟩ rfl hcreate
  have hreturned : returned tr₂ = [13, 12] :=
    hsecond.trans (congrArg (List.cons 13) hfirst)
  exact ⟨tr₂, n₂, hrun₂, hreset List.mem_cons_self, hreturned,
    (numbers_never_reused hrun₂).2.2.2⟩

end Runs

end ViveNas
