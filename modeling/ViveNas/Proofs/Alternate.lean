/-
Creates and unlinks of one name, made by many callers at once.

`vn_create_file` looks for the entry under the name's lock and keeps the
lock until it commits, so an entry it did not find is still absent when
it commits. `vn_unlink` looks outside its transaction: between the
lookup and its `Delete` another caller may remove the entry, or remove
and replace it. And both go on when the lock is not granted in time:
create takes any status but OK for a missing entry, unlink drops the
status of its `Delete`.

# What is excluded

`Orderly` excludes just these: the name's lock is free when create's
GetForUpdate or unlink's `Delete` asks for it, and the entry is still
there at the `Delete`. Successful calls then alternate in the order of
their commits (`commits_alternate`). Two unlinks that both look before
either deletes show that it takes this (`unlink_succeeds_twice`).

# The argument

`NamePhase` is where a caller is: before its lookup, past one that found
nothing or something, with its writes pending. Two lemmas about the text
of the functions (`create_nameSafe`, `unlink_nameSafe`) say which phases
a caller goes through whatever it is told; `NamePhase.Held` what the
store and the locks have to be in each, and `NamePhase.Held.rely` that
the others leave it so. `NameInv.call` puts the two together for one
call, and only a commit moves `hasCommitted`.
-/
import ViveNas.Concurrent
import ViveNas.Proofs.Namespace

namespace ViveNas

open LittleEndian Pool

-- ========================================================== who succeeded

/-- Whether the job makes the name or removes it. -/
def Job.creates : Job → Bool
  | create .. => true
  | unlink .. => false

/-- What a commit's label says was done. -/
def commitKind : ServerLabel → Option Bool
  | .call _ job .commit .ok => some job.creates
  | _ => none

/-- The committed calls, the newest first: `true` for a create. -/
def commits (tr : List ServerLabel) : List Bool := tr.filterMap commitKind

/-- The caller has committed since it was spawned. -/
def hasCommitted (i : Nat) : List ServerLabel → Bool
  | [] => false
  | .call j _ .commit .ok :: tr => j == i || hasCommitted i tr
  | .spawn j _ :: tr => j != i && hasCommitted i tr
  | _ :: tr => hasCommitted i tr

-- ============================================================ the callers

/-- The lock a call asks for. -/
def StoreCall.lockOf : StoreCall → Option (Cf × Bytes)
  | getForUpdate cf key => some (cf, key)
  | put cf key _ => some (cf, key)
  | delete cf key => some (cf, key)
  | merge key _ => some (.dataCf, key)
  | putSeed => some (.metaCf, inodeSeedKey)
  | _ => none

/-- The reply is a status other than OK and NotFound. -/
def StoreCall.Failed : (c : StoreCall) → c.Resp → Prop
  | get .., r => r = .failed
  | getForUpdate .., r => r = .failed
  | put .., r => r = .failed
  | putSeed, r => r = .failed
  | merge .., r => r = .failed
  | delete .., r => r = .failed
  | commit, r => r = .failed
  | flushWAL, r => r = .failed
  | _, _ => False

section Name

variable (parent : Int) (name : FileName)

/-- The lock of the name's entry. -/
def nameLock : Cf × Bytes := (.metaCf, fileKey parent name)

/-- Callers that create and unlink this one name and run to their end; a
call fails only by giving up on a lock that another caller holds. -/
def OneName (s : Shared) : ServerLabel → Prop
  | .spawn _ job => (∃ mode uid gid, job = .create parent name mode uid gid)
      ∨ job = .unlink parent name
  | .call i _ c r => c.Failed r → ∃ key, c.lockOf = some key ∧ ¬ s.Grants i key
  | .ret .. => True
  | .abort .. | .reset => False

/-- The step is taken with the name's lock free where the sources do not
look at the status, and an unlink deletes an entry that is still there.
The number a create draws has a record key that is no name's key. -/
def Orderly (s : Shared) (lab : ServerLabel) : Prop :=
  OneName parent name s lab ∧
    match lab with
    | .call i _ (.getForUpdate _ _) _ => s.Grants i (nameLock parent name)
    | .call i _ (.delete .metaCf _) _ => s.Grants i (nameLock parent name)
        ∧ s.db.metaCf[fileKey parent name]? ≠ none
    | .call _ _ .generateInodeNo _ => Apart s.inodeSeed
    | _ => True

/-- A number whose record no name's entry can overwrite. -/
def Plain (m : Nat) : Prop := m < 2 ^ 63 ∧ m ≠ vnRootIno ∧ Apart m

/-- The name's entry, if there is one, leads to a file, and files have one
link, as `vn_create_file` makes them. -/
structure NameReady (db : Store) : Prop where
  entry : ∀ v, db.metaCf[fileKey parent name]? = some v →
    ∃ m, Plain m ∧ v = inodeKey m
  record : ∀ m v, Plain m → db.metaCf[inodeKey m]? = some v →
    ∃ rec : ViveInode, v = rec.toBytes ∧ rec.iLinksCount = 1

/-- No caller yet; `b` is whether the name is there. -/
def Quiet (b : Bool) (n : Server) : Prop :=
  n.threads = (fun _ => none) ∧ n.shared.locks = (fun _ => none)
    ∧ NameReady parent name n.shared.db
    ∧ vnFirstUserIno ≤ n.shared.inodeSeed ∧ n.shared.inodeSeed < 2 ^ 63
    ∧ (n.shared.db.metaCf[fileKey parent name]?).isSome = b

end Name

-- ====================================================== where a caller is

/-- Where a call on the name is. The first five are a create's, with its
number; `entry` to `deleted` are an unlink's. -/
inductive NamePhase where
  | start
  | drawn (m : Nat)
  | opened (m : Nat)
  | absent (m : Nat)
  | entered (m : Nat)
  | entry (m : Nat)
  | found
  | unlinking
  | deleted
  | done
  | closed

namespace NamePhase

/-- How a call and its reply move a caller on. -/
def Moves : (c : StoreCall) → NamePhase → c.Resp → NamePhase → Prop
  | .generateInodeNo, .start, m, l => Plain m ∧ l = .drawn m
  | .beginTransaction _, .drawn m, _, l => l = .opened m
  | .getForUpdate _ _, .opened m, r, l =>
      (r = .notFound ∧ l = .absent m) ∨ ∃ v, r = .ok v ∧ l = .opened m
  | .put _ _ _, .absent m, .ok, l => l = .entered m
  | .get _ _, .start, r, l => (r = .notFound ∧ l = .closed)
      ∨ ∃ m, Plain m ∧ r = .ok (inodeKey m) ∧ l = .entry m
  | .get _ _, .entry _, r, l => (r = .notFound ∧ l = .closed)
      ∨ ∃ rec : ViveInode, r = .ok rec.toBytes ∧ rec.iLinksCount = 1
        ∧ l = .found
  | .beginTransaction _, .found, _, l => l = .unlinking
  | .delete .metaCf _, .unlinking, _, l => l = .deleted
  | .commit, _, .ok, l => l = .done
  | .rollback, _, _, l => l = .closed
  | _, l, _, l' => l' = l

/-- What a caller has behind it when it makes a call. -/
def Needs (key : Bytes) (job : Job) : StoreCall → NamePhase → Prop
  | .generateInodeNo, l => job.creates = true ∧ l = .start
  | .beginTransaction opt, l =>
      opt = .metaOpt ∧ ((∃ m, l = .drawn m) ∨ l = .found)
  | .getForUpdate cf k, l => (cf = .metaCf ∧ k = key) ∧ ∃ m, l = .opened m
  | .put cf k v, l => cf = .metaCf ∧ ∃ m,
      (l = .absent m ∧ k = key ∧ v = inodeKey m)
        ∨ (l = .entered m ∧ k = inodeKey m
          ∧ ∃ rec : ViveInode, v = rec.toBytes ∧ rec.iLinksCount = 1)
  | .putSeed, l => ∃ m, l = .entered m
  | .get cf k, l => cf = .metaCf ∧ job.creates = false
      ∧ ((l = .start ∧ k = key) ∨ ∃ m, l = .entry m ∧ k = inodeKey m)
  | .delete cf k, l =>
      l = .unlinking ∧ (cf = .defaultCf ∨ (cf = .metaCf ∧ k = key))
  | .commit, l => (∃ m, l = .entered m) ∨ l = .deleted
  | .rollback, l => l ≠ .done
  | .time, _ => True
  | .merge .., _ | .flushWAL, _ | .seekMeta _, _ => False

/-- A caller returns success once it has committed, and only then. -/
def Returns (a : Int) (l : NamePhase) : Prop := 0 ≤ a ↔ l = .done

end NamePhase

section Safe

variable (parent : Int) (name : FileName)

/-- What a text has to do to keep to the phases. -/
abbrev NameSafe {α : Type} (job : Job) (p : Fs α) (P : α → NamePhase → Prop)
    (l : NamePhase) : Prop :=
  p.Safe NamePhase.Moves (NamePhase.Needs (fileKey parent name) job) P l

variable {parent name}

theorem createFailed_nameSafe {code : Int} (hcode : 0 < code) {job : Job}
    {l : NamePhase} (hl : l ≠ .done) :
    NameSafe parent name job (createFailed code) (fun a l =>
      NameSafe parent name job (pure a.1 : Fs Int) NamePhase.Returns l) l := by
  refine Prog.safe_perform hl fun _ l' hl' => ?_
  obtain rfl : l' = .closed := hl'
  constructor
  · intro hpos
    exact absurd hpos (by show ¬ 0 ≤ -code; omega)
  · intro hdone
    cases hdone

/-- `vn_create_file` keeps to its phases. -/
theorem create_nameSafe (mode uid gid : UInt16) :
    NameSafe parent name (.create parent name mode uid gid)
      (Job.create parent name mode uid gid).prog NamePhase.Returns
      .start := by
  refine Prog.Safe.bind ?_
  have heio {l : NamePhase} (hl : l ≠ .done) : NameSafe parent name
      (.create parent name mode uid gid) (createFailed eio) _ l :=
    createFailed_nameSafe (by decide) hl
  refine Prog.safe_perform ⟨rfl, rfl⟩ fun ino l hdraw => ?_
  obtain ⟨hplain, rfl⟩ := hdraw
  refine Prog.safe_perform trivial fun now l hl => ?_
  obtain rfl : l = .drawn ino := hl
  refine Prog.safe_perform ⟨rfl, Or.inl ⟨ino, rfl⟩⟩ fun _ l hl => ?_
  obtain rfl : l = .opened ino := hl
  refine Prog.safe_perform ⟨⟨rfl, rfl⟩, ino, rfl⟩ fun status l hl => ?_
  obtain ⟨rfl, rfl⟩ | ⟨v, rfl, rfl⟩ := hl
  · refine Prog.safe_perform ⟨rfl, ino, Or.inl ⟨rfl, rfl, rfl⟩⟩
      fun status l hl => ?_
    cases status with
    | failed =>
        obtain rfl : l = .absent ino := hl
        exact heio nofun
    | ok =>
    obtain rfl : l = .entered ino := hl
    have hnew := newInode_iNo (Nat.lt_trans hplain.1 (by decide)) mode uid gid
      now
    refine Prog.safe_perform ⟨rfl, ino, Or.inr ⟨rfl, congrArg inodeKey hnew,
      _, rfl, rfl⟩⟩ fun status l hl => ?_
    obtain rfl : l = .entered ino := hl
    cases status with
    | failed => exact heio nofun
    | ok =>
    refine Prog.safe_perform ⟨ino, rfl⟩ fun status l hl => ?_
    obtain rfl : l = .entered ino := hl
    cases status with
    | failed => exact heio nofun
    | ok =>
    refine Prog.safe_perform (Or.inl ⟨ino, rfl⟩) fun status l hl => ?_
    cases status with
    | failed =>
        obtain rfl : l = .entered ino := hl
        exact heio nofun
    | ok =>
    obtain rfl : l = .done := hl
    refine ⟨fun _ => rfl, fun _ => ?_⟩
    show 0 ≤ asInt64 ino
    rw [asInt64_of_lt hplain.1]
    exact Int.natCast_nonneg ino
  · exact createFailed_nameSafe (by decide) nofun

theorem deleteExtents_nameSafe {job : Job} {P : Unit → NamePhase → Prop}
    (ino n i : Nat) (hP : P () .unlinking) :
    NameSafe parent name job (deleteExtents .defaultCf ino n i) P
      .unlinking := by
  induction n generalizing i with
  | zero => exact hP
  | succ n ih =>
      refine Prog.safe_perform ⟨rfl, Or.inl rfl⟩ fun status l hl => ?_
      obtain rfl : l = .unlinking := hl
      exact ih (i + 1)

/-- `vn_unlink` keeps to its phases: it finds one link, so it deletes the
entry. -/
theorem unlink_nameSafe :
    NameSafe parent name (.unlink parent name) (vnUnlink parent name)
      NamePhase.Returns .start := by
  have hneg (code : Int) (hcode : 0 < code) (l : NamePhase) (hl : l ≠ .done) :
      NameSafe parent name (.unlink parent name) (pure (-code) : Fs Int)
        NamePhase.Returns l := by
    constructor
    · intro hpos
      exact absurd hpos (by show ¬ 0 ≤ -code; omega)
    · intro hdone
      exact absurd hdone hl
  refine Prog.Safe.bind ?_
  refine Prog.safe_perform ⟨rfl, rfl, Or.inl ⟨rfl, rfl⟩⟩ fun status l hl => ?_
  obtain ⟨rfl, rfl⟩ | ⟨m, hplain, rfl, rfl⟩ := hl
  · exact hneg enoent (by decide) _ nofun
  refine Prog.safe_perform ⟨rfl, rfl, Or.inr ⟨m, rfl, rfl⟩⟩
    fun status l hl => ?_
  obtain ⟨rfl, rfl⟩ | ⟨rec, rfl, hlinks, rfl⟩ := hl
  · exact hneg enoent (by decide) _ nofun
  have hload : loadInt64 (inodeKey m) = .ok m :=
    loadInt64_leBytes (Nat.lt_trans hplain.1 (by decide))
  show NameSafe parent name _ (do
    let inode ← Fs.lift (deserializeInode rec.toBytes)
    let ino ← Fs.lift (loadInt64 (inodeKey m))
    return (asInt64 ino, some inode)) _ _
  rw [deserializeInode_toBytes, hload]
  show NameSafe parent name _ (if asInt64 m < 0 then _ else _) _ _
  rw [asInt64_of_lt hplain.1, if_neg (by omega)]
  refine Prog.safe_perform ⟨rfl, Or.inr rfl⟩ fun _ l hl => ?_
  obtain rfl : l = .unlinking := hl
  dsimp only
  rw [if_pos (by rw [hlinks]; rfl)]
  refine Prog.Safe.bind ?_
  cases extentCount _ with
  | error e => trivial
  | ok extents =>
  refine Prog.Safe.bind (deleteExtents_nameSafe _ extents 0 ?_)
  refine Prog.safe_perform ⟨rfl, Or.inr ⟨rfl, rfl⟩⟩ fun status l hl => ?_
  obtain rfl : l = .deleted := hl
  refine Prog.safe_perform (Or.inr rfl) fun status l hl => ?_
  cases status with
  | ok =>
      obtain rfl : l = .done := hl
      exact ⟨fun _ => rfl, fun _ => Int.le_refl 0⟩
  | failed =>
      obtain rfl : l = .deleted := hl
      refine Prog.safe_perform nofun fun _ l hl => ?_
      obtain rfl : l = .closed := hl
      exact hneg eio (by decide) _ nofun

end Safe

-- ========================================================== the invariant

/-- A write beside the entry: of another key, and one that leaves a file
with one link if it is a record. -/
def WriteOp.Beside (key : Bytes) (op : WriteOp) : Prop :=
  ∃ k v, op = .put .metaCf k v ∧ k ≠ key ∧ ∀ m, Plain m → k = inodeKey m →
    ∃ rec : ViveInode, v = rec.toBytes ∧ rec.iLinksCount = 1

abbrev NameClient := Client (Option Tx) Job NamePhase

/-- What a caller in its phase can rely on: with the name's lock, that the
entry is as it found it. -/
def NamePhase.Held (key : Bytes) (s : Shared) (i : Nat) (job : Job)
    (tx : Option Tx) : NamePhase → Prop
  | .start | .done | .closed => True
  | .drawn m => job.creates = true ∧ Plain m
  | .opened m => (job.creates = true ∧ Plain m) ∧ tx = some ⟨.metaOpt, []⟩
  | .absent m => (job.creates = true ∧ Plain m) ∧ tx = some ⟨.metaOpt, []⟩
      ∧ s.locks (.metaCf, key) = some i ∧ s.db.metaCf[key]? = none
  | .entered m => (job.creates = true ∧ Plain m)
      ∧ (∃ ops, tx = some ⟨.metaOpt, .put .metaCf key (inodeKey m) :: ops⟩
        ∧ ∀ op ∈ ops, op.Beside key)
      ∧ s.locks (.metaCf, key) = some i ∧ s.db.metaCf[key]? = none
  | .entry m => job.creates = false ∧ Plain m
  | .found => job.creates = false
  | .unlinking => job.creates = false ∧ ∃ ops, tx = some ⟨.metaOpt, ops⟩
      ∧ ∀ op ∈ ops, op.NotMeta
  | .deleted => job.creates = false
      ∧ (∃ ops, tx = some ⟨.metaOpt, ops ++ [.delete .metaCf key]⟩
        ∧ ∀ op ∈ ops, op.NotMeta)
      ∧ s.locks (.metaCf, key) = some i ∧ s.db.metaCf[key]? ≠ none

structure NameInv (parent : Int) (name : FileName) (b : Bool)
    (tr : List ServerLabel) (s : Shared) (g : Nat → Option NameClient) :
    Prop where
  ready : NameReady parent name s.db
  low : vnFirstUserIno ≤ s.inodeSeed
  high : s.inodeSeed < 2 ^ 63
  present : (s.db.metaCf[fileKey parent name]?).isSome = (commits tr).headD b
  alternates : (commits tr ++ [b]).IsChain (· ≠ ·)
  held : ∀ i x, g i = some x →
    x.loc.Held (fileKey parent name) s i x.job x.priv
  committed : ∀ i x, g i = some x → (x.loc = .done ↔ hasCommitted i tr = true)

section Inv

variable {parent : Int} {name : FileName} {b : Bool}
  {tr : List ServerLabel} {s s' : Shared} {g : Nat → Option NameClient}
  {i : Nat} {x : NameClient} {lab : ServerLabel}

/-- What other callers may do to a caller: anything, but not to the entry
while it has the entry's lock. -/
theorem NamePhase.Held.rely {key : Bytes} {job : Job} {tx : Option Tx}
    {l : NamePhase} (h : l.Held key s i job tx)
    (hlock : s.locks (.metaCf, key) = some i →
      s'.locks (.metaCf, key) = some i
        ∧ s'.db.metaCf[key]? = s.db.metaCf[key]?) :
    l.Held key s' i job tx := by
  cases l with
  | start | done | closed => trivial
  | drawn m | opened m | entry m | found | unlinking => exact h
  | absent m =>
      obtain ⟨hm, htx, hown, hnone⟩ := h
      obtain ⟨hown', hsame⟩ := hlock hown
      exact ⟨hm, htx, hown', hsame.trans hnone⟩
  | entered m =>
      obtain ⟨hm, htx, hown, hnone⟩ := h
      obtain ⟨hown', hsame⟩ := hlock hown
      exact ⟨hm, htx, hown', hsame.trans hnone⟩
  | deleted =>
      obtain ⟨hjob, htx, hown, hsome⟩ := h
      obtain ⟨hown', hsame⟩ := hlock hown
      exact ⟨hjob, htx, hown', by rw [hsame]; exact hsome⟩

/-- One caller moves on, comes or goes, and the store stays as it is. -/
theorem NameInv.advance (inv : NameInv parent name b tr s g)
    (hdb : s'.db = s.db) (hseed : s.inodeSeed ≤ s'.inodeSeed)
    (hhigh : s'.inodeSeed < 2 ^ 63)
    (hlocks : ∀ j, j ≠ i → s.locks (nameLock parent name) = some j →
      s'.locks (nameLock parent name) = some j)
    (x' : Option NameClient)
    (hx : ∀ y, x' = some y →
      y.loc.Held (fileKey parent name) s' i y.job y.priv)
    (hlab : commitKind lab = none)
    (hcommitted : ∀ j, j ≠ i → hasCommitted j (lab :: tr) = hasCommitted j tr)
    (hdone : ∀ y, x' = some y →
      (y.loc = .done ↔ hasCommitted i (lab :: tr) = true)) :
    NameInv parent name b (lab :: tr) s' (Function.update g i x') := by
  have hsame : commits (lab :: tr) = commits tr :=
    List.filterMap_cons_none hlab
  constructor
  case ready => rw [hdb]; exact inv.ready
  case low => exact Nat.le_trans inv.low hseed
  case high => exact hhigh
  case present => rw [hdb, hsame]; exact inv.present
  case alternates => rw [hsame]; exact inv.alternates
  case held =>
    refine Partial.forall_update hx fun j hj y hy => ?_
    exact (inv.held j y hy).rely fun h => ⟨hlocks j hj h, by rw [hdb]⟩
  case committed =>
    refine Partial.forall_update hdone fun j hj y hy => ?_
    rw [hcommitted j hj]
    exact inv.committed j y hy

/-- A commit turns the entry over, and its caller has the entry's lock. -/
theorem NameInv.commit (inv : NameInv parent name b tr s g) {job : Job}
    {batch : List WriteOp} (hlock : s.locks (nameLock parent name) = some i)
    (hbefore : (s.db.metaCf[fileKey parent name]?).isSome = !job.creates)
    (hready : NameReady parent name (s.db.applyBatch batch))
    (hafter : ((s.db.applyBatch batch).metaCf[fileKey parent name]?).isSome
      = job.creates) :
    NameInv parent name b (.call i job .commit .ok :: tr)
      (s.commitTx i (some ⟨.metaOpt, batch⟩))
      (Function.update g i (some ⟨job, none, .done⟩)) := by
  have hcommits : commits (.call i job .commit .ok :: tr)
      = job.creates :: commits tr := rfl
  rw [Shared.commitTx_metaOpt]
  constructor
  case ready => exact hready
  case low => exact inv.low
  case high => exact inv.high
  case present => rw [hcommits]; exact hafter
  case alternates =>
    have hhead : (commits tr ++ [b]).head? = some ((commits tr).headD b) := by
      cases commits tr <;> rfl
    rw [hcommits, List.cons_append, List.isChain_cons, hhead]
    refine ⟨fun k hk => ?_, inv.alternates⟩
    rw [← Option.some.inj hk, ← inv.present, hbefore]
    cases job.creates <;> decide
  case held =>
    refine Partial.forall_update (fun y hy => ?_) fun j hj y hy => ?_
    · cases hy
      trivial
    · refine (inv.held j y hy).rely fun h => ?_
      exact absurd (Option.some.inj (h.symm.trans hlock)) hj
  case committed =>
    refine Partial.forall_update (fun y hy => ?_) fun j hj y hy => ?_
    · cases hy
      simp [hasCommitted]
    · have hkeep : hasCommitted j (.call i job .commit .ok :: tr)
          = hasCommitted j tr := by
        simp [hasCommitted, Ne.symm hj]
      rw [hkeep]
      exact inv.committed j y hy

/-- A step that leaves the store and the counter as they are. -/
theorem NameInv.quiet (inv : NameInv parent name b tr s g) (hg : g i = some x)
    (locks : Cf × Bytes → Option Nat)
    (hlocks : ∀ j, j ≠ i → s.locks (nameLock parent name) = some j →
      locks (nameLock parent name) = some j)
    {x' : NameClient}
    (hx : x'.loc.Held (fileKey parent name) { s with locks := locks } i x'.job
      x'.priv)
    (hdone : x'.loc = .done ↔ x.loc = .done) (hlab : commitKind lab = none)
    (hcommitted : ∀ j, hasCommitted j (lab :: tr) = hasCommitted j tr) :
    NameInv parent name b (lab :: tr) { s with locks := locks }
      (Function.update g i (some x')) := by
  have hdb : ({ s with locks := locks } : Shared).db = s.db := rfl
  refine inv.advance hdb (Nat.le_refl _) inv.high hlocks (some x') ?_ hlab
    (fun j _ => hcommitted j) ?_
  · rintro y hy
    cases hy
    exact hx
  · rintro y hy
    cases hy
    rw [hcommitted i, ← inv.committed i x hg]
    exact hdone

-- ============================================================ what commits

/-- A create's batch: the entry appears, and leads to a file. -/
theorem NameReady.enter {db : Store} (h : NameReady parent name db) {m : Nat}
    (hm : Plain m) {ops : List WriteOp}
    (hops : ∀ op ∈ ops, op.Beside (fileKey parent name)) :
    NameReady parent name (db.applyBatch
        (.put .metaCf (fileKey parent name) (inodeKey m) :: ops))
      ∧ (db.applyBatch (.put .metaCf (fileKey parent name) (inodeKey m)
        :: ops)).metaCf[fileKey parent name]? = some (inodeKey m) := by
  have hentry : (db.applyBatch (.put .metaCf (fileKey parent name) (inodeKey m)
      :: ops)).metaCf[fileKey parent name]? = some (inodeKey m) := by
    refine (Store.applyBatch_meta_of_fixed (db.applyOp _) ?_).trans ?_
    · intro op hop old
      obtain ⟨k, v, rfl, hk, -⟩ := hops op hop
      rw [WriteOp.onMeta, if_neg hk]
    · rw [Store.applyOp_meta, WriteOp.onMeta, if_pos rfl]
  refine ⟨⟨fun v hv => ?_, fun n => ?_⟩, hentry⟩
  · exact ⟨m, hm, Option.some.inj (hv.symm.trans hentry)⟩
  · intro v hn hv
    rw [Store.applyBatch_meta, List.foldl_cons, WriteOp.onMeta,
      if_neg (hn.2.2 parent name)] at hv
    -- each write leaves one link at `n`, or what was there
    refine List.foldlRecOn (motive := fun old => ∀ v, old = some v →
      ∃ rec : ViveInode, v = rec.toBytes ∧ rec.iLinksCount = 1) ops _
      (fun v => h.record n v hn) ?_ v hv
    intro old hold op hop v hv
    obtain ⟨k, u, rfl, -, hrec⟩ := hops op hop
    rw [WriteOp.onMeta] at hv
    split at hv
    · next hk => exact Option.some.inj hv ▸ hrec n hn hk
    · exact hold v hv

/-- An unlink's batch: the entry is gone, and nothing else. -/
theorem NameReady.delete {db : Store} (h : NameReady parent name db)
    {ops : List WriteOp} (hops : ∀ op ∈ ops, op.NotMeta) :
    NameReady parent name
        (db.applyBatch (ops ++ [.delete .metaCf (fileKey parent name)]))
      ∧ (db.applyBatch (ops ++ [.delete .metaCf (fileKey parent name)])
        ).metaCf[fileKey parent name]? = none := by
  have hmeta (key : Bytes) : (db.applyBatch (ops ++
      [.delete .metaCf (fileKey parent name)])).metaCf[key]?
      = if fileKey parent name = key then none else db.metaCf[key]? := by
    rw [Store.applyBatch_append, Store.applyBatch_singleton,
      Store.applyOp_meta, WriteOp.onMeta,
      Store.applyBatch_meta_of_notMeta _ hops]
  refine ⟨⟨fun v hv => ?_, fun m v hm hv => ?_⟩, ?_⟩
  · rw [hmeta, if_pos rfl] at hv
    cases hv
  · rw [hmeta, if_neg (hm.2.2 parent name)] at hv
    exact h.record m v hm hv
  · rw [hmeta, if_pos rfl]

-- =============================================================== the calls

/-- A lock request that finds its lock free does not fail. -/
theorem OneName.not_failed {job : Job} {c : StoreCall} {r : c.Resp}
    (hok : OneName parent name s (.call i job c r)) {key : Cf × Bytes}
    (hkey : c.lockOf = some key) (hgrants : s.Grants i key) :
    ¬ c.Failed r := by
  intro hfailed
  obtain ⟨key', hkey', hheld⟩ := hok hfailed
  obtain rfl := Option.some.inj (hkey.symm.trans hkey')
  exact hheld hgrants

/-- A call that asks for no lock does not fail. -/
theorem OneName.not_failed_of_none {job : Job} {c : StoreCall} {r : c.Resp}
    (hok : OneName parent name s (.call i job c r)) (hnone : c.lockOf = none) :
    ¬ c.Failed r := by
  intro hfailed
  obtain ⟨key, hkey, -⟩ := hok hfailed
  cases hnone.symm.trans hkey

/-- The first and the second read of a lookup. -/
theorem NameInv.get (inv : NameInv parent name b tr s g) {job : Job}
    {tx : Option Tx} {l : NamePhase} (hg : g i = some ⟨job, tx, l⟩) {cf : Cf}
    {key : Bytes} {r : GetStatus}
    (hneeds : NamePhase.Needs (fileKey parent name) job (.get cf key) l)
    (hreplies : s.db.Replies cf key r)
    (hok : OneName parent name s (.call i job (.get cf key) r)) :
    ∃ l', NamePhase.Moves (.get cf key) l r l'
      ∧ NameInv parent name b (.call i job (.get cf key) r :: tr) s
        (Function.update g i (some ⟨job, tx, l'⟩)) := by
  have hquiet (l' : NamePhase) (hl : l ≠ .done) (hl' : l' ≠ .done)
      (hheld : l'.Held (fileKey parent name) s i job tx) :
      NameInv parent name b (.call i job (.get cf key) r :: tr) s
        (Function.update g i (some ⟨job, tx, l'⟩)) :=
    inv.quiet hg s.locks (fun _ _ h => h) hheld
      ⟨fun h => absurd h hl', fun h => absurd h hl⟩ rfl fun _ => rfl
  have hheld := inv.held i _ hg
  obtain ⟨rfl, hjob, ⟨rfl, rfl⟩ | ⟨m, rfl, rfl⟩⟩ := hneeds
  · cases r with
    | ok v =>
        obtain ⟨m, hm, rfl⟩ := inv.ready.entry v (Except.ok.inj hreplies)
        exact ⟨.entry m, Or.inr ⟨m, hm, rfl, rfl⟩,
          hquiet _ nofun nofun ⟨hjob, hm⟩⟩
    | notFound =>
        exact ⟨.closed, Or.inl ⟨rfl, rfl⟩, hquiet _ nofun nofun trivial⟩
    | failed => exact absurd rfl (hok.not_failed_of_none rfl)
  · cases r with
    | ok v =>
        obtain ⟨rec, rfl, hlinks⟩ := inv.ready.record m v hheld.2
          (Except.ok.inj hreplies)
        exact ⟨.found, Or.inr ⟨rec, rfl, hlinks, rfl⟩,
          hquiet _ nofun nofun hjob⟩
    | notFound =>
        exact ⟨.closed, Or.inl ⟨rfl, rfl⟩, hquiet _ nofun nofun trivial⟩
    | failed => exact absurd rfl (hok.not_failed_of_none rfl)

/-- A create that has put the entry writes beside it. -/
theorem NameInv.writeBeside (inv : NameInv parent name b tr s g) {job : Job}
    {tx tx' : Option Tx} {m : Nat} (hg : g i = some ⟨job, tx, .entered m⟩)
    {key : Cf × Bytes} {op : WriteOp} {r : Status}
    (hop : op.Beside (fileKey parent name))
    (hwrites : s.Writes i tx key op r s' tx') (hlab : commitKind lab = none)
    (hcommitted : ∀ j, hasCommitted j (lab :: tr) = hasCommitted j tr) :
    NameInv parent name b (lab :: tr) s'
      (Function.update g i (some ⟨job, tx', .entered m⟩)) := by
  have hheld := inv.held i _ hg
  obtain ⟨-, hgrants, rfl, rfl⟩ | ⟨-, rfl, rfl⟩ := hwrites
  · obtain ⟨hm, ⟨ops, rfl, hops⟩, hlock, hnone⟩ := hheld
    refine inv.quiet hg _ (fun j hj h => Shared.lock_of_ne hj hgrants h) ?_
      Iff.rfl hlab hcommitted
    refine ⟨hm, ⟨ops ++ [op], rfl, fun op' hop' => ?_⟩,
      Shared.lock_of_own hlock, hnone⟩
    rcases List.mem_append.mp hop' with hold | hnew
    · exact hops op' hold
    · rw [List.mem_singleton.mp hnew]
      exact hop
  · exact inv.quiet hg s'.locks (fun _ _ h => h) hheld Iff.rfl hlab hcommitted

/-- A create's `Put` of the entry or of the record. -/
theorem NameInv.put (inv : NameInv parent name b tr s g) {job : Job}
    {tx tx' : Option Tx} {l : NamePhase} (hg : g i = some ⟨job, tx, l⟩)
    {cf : Cf} {key val : Bytes} {r : Status}
    (hneeds : NamePhase.Needs (fileKey parent name) job (.put cf key val) l)
    (hwrites : s.Writes i tx (cf, key) (.put cf key val) r s' tx') :
    ∃ l', NamePhase.Moves (.put cf key val) l r l'
      ∧ NameInv parent name b (.call i job (.put cf key val) r :: tr) s'
        (Function.update g i (some ⟨job, tx', l'⟩)) := by
  have hheld := inv.held i _ hg
  obtain ⟨rfl, m, ⟨rfl, rfl, rfl⟩ | ⟨rfl, rfl, hrec⟩⟩ := hneeds
  · obtain ⟨rfl, hgrants, rfl, rfl⟩ | ⟨rfl, rfl, rfl⟩ := hwrites
    · obtain ⟨hm, rfl, -, hnone⟩ := hheld
      refine ⟨.entered m, rfl, inv.quiet hg _
        (fun j hj h => Shared.lock_of_ne hj hgrants h) ?_
        ⟨nofun, nofun⟩ rfl fun _ => rfl⟩
      exact ⟨hm, ⟨[], rfl, nofun⟩, Shared.lock_self .., hnone⟩
    · exact ⟨.absent m, rfl, inv.quiet hg s'.locks (fun _ _ h => h) hheld
        Iff.rfl rfl fun _ => rfl⟩
  · have hbeside : WriteOp.Beside (fileKey parent name)
        (.put .metaCf (inodeKey m) val) :=
      ⟨_, _, rfl, (hheld.1.2.2.2 parent name).symm, fun _ _ _ => hrec⟩
    exact ⟨.entered m, rfl,
      inv.writeBeside hg hbeside hwrites rfl fun _ => rfl⟩

/-- An unlink's `Delete` of an extent or of the entry. -/
theorem NameInv.delete (inv : NameInv parent name b tr s g) {job : Job}
    {tx tx' : Option Tx} {l : NamePhase} (hg : g i = some ⟨job, tx, l⟩)
    {cf : Cf} {key : Bytes} {r : Status}
    (hneeds : NamePhase.Needs (fileKey parent name) job (.delete cf key) l)
    (hwrites : s.Writes i tx (cf, key) (.delete cf key) r s' tx')
    (hok : Orderly parent name s (.call i job (.delete cf key) r)) :
    ∃ l', NamePhase.Moves (.delete cf key) l r l'
      ∧ NameInv parent name b (.call i job (.delete cf key) r :: tr) s'
        (Function.update g i (some ⟨job, tx', l'⟩)) := by
  have hheld := inv.held i _ hg
  obtain ⟨rfl, rfl | ⟨rfl, rfl⟩⟩ := hneeds
  · obtain ⟨rfl, hgrants, rfl, rfl⟩ | ⟨rfl, rfl, rfl⟩ := hwrites
    · obtain ⟨hjob, ops, rfl, hops⟩ := hheld
      refine ⟨.unlinking, rfl, inv.quiet hg _
        (fun j hj h => Shared.lock_of_ne hj hgrants h) ?_
        Iff.rfl rfl fun _ => rfl⟩
      refine ⟨hjob, ops ++ [_], rfl, fun op hop => ?_⟩
      rcases List.mem_append.mp hop with hold | hnew
      · exact hops op hold
      · obtain rfl := List.mem_singleton.mp hnew
        exact nofun
    · exact ⟨.unlinking, rfl, inv.quiet hg s'.locks (fun _ _ h => h) hheld
        Iff.rfl rfl fun _ => rfl⟩
  · obtain ⟨hone, hfree, hpresent⟩ := hok
    obtain ⟨rfl, hgrants, rfl, rfl⟩ | ⟨rfl, -⟩ := hwrites
    · obtain ⟨hjob, ops, rfl, hops⟩ := hheld
      refine ⟨.deleted, rfl, inv.quiet hg _
        (fun j hj h => Shared.lock_of_ne hj hgrants h) ?_
        ⟨nofun, nofun⟩ rfl fun _ => rfl⟩
      exact ⟨hjob, ⟨ops, rfl, hops⟩, Shared.lock_self .., hpresent⟩
    · exact absurd rfl (hone.not_failed rfl hfree)

/-- A create's GetForUpdate, with the lock free. -/
theorem NameInv.getForUpdate (inv : NameInv parent name b tr s g) {job : Job}
    {tx tx' : Option Tx} {l : NamePhase} (hg : g i = some ⟨job, tx, l⟩)
    {cf : Cf} {key : Bytes} {r : GetStatus}
    (hneeds : NamePhase.Needs (fileKey parent name) job
      (.getForUpdate cf key) l)
    (hreply : reply i (.getForUpdate cf key) s tx r s' tx')
    (hok : Orderly parent name s (.call i job (.getForUpdate cf key) r)) :
    ∃ l', NamePhase.Moves (.getForUpdate cf key) l r l'
      ∧ NameInv parent name b (.call i job (.getForUpdate cf key) r :: tr) s'
        (Function.update g i (some ⟨job, tx', l'⟩)) := by
  have hheld := inv.held i _ hg
  obtain ⟨⟨rfl, rfl⟩, m, rfl⟩ := hneeds
  obtain ⟨hone, hfree⟩ := hok
  have hnot := hone.not_failed rfl hfree
  obtain ⟨hm, rfl⟩ := hheld
  obtain ⟨hgrants, hreplies, rfl, rfl⟩ | ⟨rfl, -⟩ := hreply
  · have hquiet (l' : NamePhase) (hl : l' ≠ .done)
        (hheld' : l'.Held (fileKey parent name)
          (s.lock i (.metaCf, fileKey parent name)) i job
          (some ⟨.metaOpt, []⟩)) :
        NameInv parent name b
          (.call i job (.getForUpdate .metaCf (fileKey parent name)) r :: tr)
          (s.lock i (.metaCf, fileKey parent name))
          (Function.update g i (some ⟨job, some ⟨.metaOpt, []⟩, l'⟩)) :=
      inv.quiet hg _ (fun j hj h => Shared.lock_of_ne hj hgrants h) hheld'
        ⟨fun h => absurd h hl, nofun⟩ rfl fun _ => rfl
    cases r with
    | ok v => exact ⟨.opened m, Or.inr ⟨v, rfl, rfl⟩,
        hquiet _ nofun ⟨hm, rfl⟩⟩
    | notFound => exact ⟨.absent m, Or.inl ⟨rfl, rfl⟩, hquiet _ nofun
        ⟨hm, rfl, Shared.lock_self .., Except.ok.inj hreplies⟩⟩
    | failed => exact absurd rfl hnot
  · exact absurd rfl hnot

/-- Any call of a caller, in an orderly step. -/
theorem NameInv.call (inv : NameInv parent name b tr s g) {job : Job}
    {tx tx' : Option Tx} {l : NamePhase} (hg : g i = some ⟨job, tx, l⟩)
    {call : StoreCall} {r : call.Resp}
    (hneeds : NamePhase.Needs (fileKey parent name) job call l)
    (hreply : reply i call s tx r s' tx')
    (hok : Orderly parent name s (.call i job call r)) :
    ∃ l', NamePhase.Moves call l r l'
      ∧ NameInv parent name b (.call i job call r :: tr) s'
        (Function.update g i (some ⟨job, tx', l'⟩)) := by
  have hheld := inv.held i _ hg
  cases call with
  | merge key val | flushWAL | seekMeta target => exact hneeds.elim
  | get cf key =>
      obtain ⟨hreplies, rfl, rfl⟩ := hreply
      exact inv.get hg hneeds hreplies hok.1
  | getForUpdate cf key => exact inv.getForUpdate hg hneeds hreply hok
  | put cf key val => exact inv.put hg hneeds hreply
  | delete cf key => exact inv.delete hg hneeds hreply hok
  | beginTransaction opt =>
      obtain ⟨rfl, ⟨m, rfl⟩ | rfl⟩ := hneeds
      · obtain ⟨rfl, rfl⟩ := hreply
        exact ⟨.opened m, rfl, inv.quiet hg s'.locks (fun _ _ h => h)
          ⟨hheld, rfl⟩ ⟨nofun, nofun⟩ rfl fun _ => rfl⟩
      · obtain ⟨rfl, rfl⟩ := hreply
        exact ⟨.unlinking, rfl, inv.quiet hg s'.locks (fun _ _ h => h)
          ⟨hheld, [], rfl, nofun⟩ ⟨nofun, nofun⟩ rfl fun _ => rfl⟩
  | putSeed =>
      obtain ⟨m, rfl⟩ := hneeds
      have hbeside (v : Bytes) : WriteOp.Beside (fileKey parent name)
          (.put .metaCf inodeSeedKey v) :=
        ⟨_, _, rfl, (fileKey_ne_inodeSeedKey parent name).symm,
          fun n _ hn => absurd hn (inodeKey_ne_inodeSeedKey n).symm⟩
      exact ⟨.entered m, rfl,
        inv.writeBeside hg (hbeside _) hreply rfl fun _ => rfl⟩
  | commit =>
      obtain ⟨rfl, rfl, rfl⟩ | ⟨rfl, -⟩ := hreply
      · obtain ⟨m, rfl⟩ | rfl := hneeds
        · obtain ⟨⟨hjob, hm⟩, ⟨ops, rfl, hops⟩, hlock, hnone⟩ := hheld
          obtain ⟨hready, hentry⟩ := inv.ready.enter hm hops
          refine ⟨.done, rfl, inv.commit hlock ?_ hready ?_⟩
          · rw [hnone, hjob]; rfl
          · rw [hentry, hjob]; rfl
        · obtain ⟨hjob, ⟨ops, rfl, hops⟩, hlock, hsome⟩ := hheld
          obtain ⟨hready, hgone⟩ := inv.ready.delete hops
          refine ⟨.done, rfl, inv.commit hlock ?_ hready ?_⟩
          · rw [hjob]
            exact Option.isSome_iff_ne_none.mpr hsome
          · rw [hgone, hjob]; rfl
      · exact absurd rfl (hok.1.not_failed_of_none rfl)
  | rollback =>
      obtain ⟨rfl, rfl⟩ := hreply
      exact ⟨.closed, rfl, inv.quiet hg _
        (fun j hj h => Shared.release_of_ne hj h) trivial
        ⟨nofun, fun h => absurd h hneeds⟩ rfl fun _ => rfl⟩
  | generateInodeNo =>
      obtain ⟨hjob, rfl⟩ := hneeds
      obtain ⟨rfl, hnext, rfl, rfl⟩ := hreply
      have hplain : Plain s.inodeSeed := by
        refine ⟨inv.high, ?_, hok.2⟩
        have hlow : 12 ≤ s.inodeSeed := inv.low
        show s.inodeSeed ≠ 2
        omega
      have hdb : ({ s with inodeSeed := s.inodeSeed + 1 } : Shared).db = s.db :=
        rfl
      refine ⟨.drawn s.inodeSeed, ⟨hplain, rfl⟩, inv.advance hdb
        (Nat.le_succ _) hnext (fun _ _ h => h) _ ?_ rfl (fun _ _ => rfl) ?_⟩
      · rintro y hy
        cases hy
        exact ⟨hjob, hplain⟩
      · rintro y hy
        cases hy
        have hcommitted := inv.committed i _ hg
        exact ⟨nofun, fun h => nomatch hcommitted.mpr h⟩
  | time =>
      obtain ⟨rfl, rfl⟩ := hreply
      exact ⟨l, rfl, inv.quiet hg s'.locks (fun _ _ h => h) hheld Iff.rfl rfl
        fun _ => rfl⟩

end Inv

-- ================================================================ any run

section Runs

variable {codec : SuperblockCodec} {parent : Int} {name : FileName} {b : Bool}

theorem names_modular :
    Modular (server codec) (Orderly parent name) (fun _ => NamePhase.start)
      (fun _ => NamePhase.Moves) (NamePhase.Needs (fileKey parent name))
      (fun _ => NamePhase.Returns) (NameInv parent name b)
      (fun _ _ => True) where
  refl _ := trivial
  safe s i job hok := by
    obtain ⟨mode, uid, gid, rfl⟩ | rfl := hok.1
    · exact create_nameSafe mode uid gid
    · exact unlink_nameSafe
  spawn := by
    intro tr s g i job inv hnone hok
    refine inv.advance rfl (Nat.le_refl _) inv.high (fun _ _ h => h) _ ?_ rfl
      ?_ ?_
    · rintro y hy
      cases hy
      trivial
    · intro j hj
      show (i != j && hasCommitted j tr) = hasCommitted j tr
      rw [bne_iff_ne.mpr (Ne.symm hj), Bool.true_and]
    · rintro y hy
      cases hy
      show NamePhase.start = .done ↔ (i != i && hasCommitted i tr) = true
      rw [bne_self_eq_false, Bool.false_and]
      exact ⟨nofun, nofun⟩
  call := by
    rintro tr s g i ⟨job, tx, l⟩ call r s' tx' inv hg hneeds hreply hok
    exact ⟨trivial, inv.call hg hneeds hreply hok⟩
  ret := by
    intro tr s g i x a inv hg hreturns hok
    have hdb : (s.release i).db = s.db := rfl
    refine ⟨trivial, inv.advance hdb (Nat.le_refl _) inv.high
      (fun j hj h => Shared.release_of_ne hj h) none nofun rfl
      (fun _ _ => rfl) nofun⟩
  abort := by
    intro tr s g i x inv hg hok
    exact hok.1.elim
  reset := by
    intro tr s g s' inv hreset hok
    exact hok.1.elim

theorem Quiet.inv {n : Server} (h : Quiet parent name b n) :
    NameInv parent name b [] n.shared fun _ => none := by
  obtain ⟨-, -, hready, hlow, hhigh, hb⟩ := h
  exact ⟨hready, hlow, hhigh, hb, List.isChain_singleton b, nofun, nofun⟩

/-- Whatever the interleaving, if its steps are orderly: the committed
calls alternate, starting from whether the name was there, and the calls
that return success are those that committed. -/
theorem commits_alternate {tr : List ServerLabel} {n : Server}
    (hrun : ServerRun codec (Quiet parent name b) (Orderly parent name)
      tr n) :
    (commits tr ++ [b]).IsChain (· ≠ ·)
      ∧ ∀ i job a n', Step (server codec) (Orderly parent name) n
        (.ret i job a) n' → (0 ≤ a ↔ hasCommitted i tr = true) := by
  obtain ⟨g, inv, hdescribes⟩ := run_modular names_modular
    (fun n hn => ⟨hn.1, hn.inv⟩) hrun
  refine ⟨inv.alternates, fun i job a n' hstep => ?_⟩
  cases hstep with
  | ret hthread hrest hok =>
      obtain ⟨l, hg, hsafe⟩ := hdescribes.client hthread
      rw [hrest] at hsafe
      have hreturns : 0 ≤ a ↔ l = .done := hsafe
      exact hreturns.trans (inv.committed i _ hg)

-- ========================================================== unlinks alone

/-- What is left of an unlink once it has read the entry and a record with
one link and no extents. -/
def unlinkRest (parent : Int) (name : FileName) : Fs Int :=
  .call (.beginTransaction .metaOpt) fun _ =>
    .call (.delete .metaCf (fileKey parent name)) fun _ => unlinkCommit

/-- `vn_unlink` up to there. -/
theorem vnUnlink_reads {m : Nat} (hm : m < 2 ^ 63) {rec : ViveInode}
    (hlinks : rec.iLinksCount = 1)
    (hcount : extentCount { rec with refCnt := 1, iLinksCount := 0 } = .ok 0) :
    ∃ k₁ k₂, vnUnlink parent name
        = .call (.get .metaCf (fileKey parent name)) k₁
      ∧ k₁ (.ok (inodeKey m)) = .call (.get .metaCf (inodeKey m)) k₂
      ∧ k₂ (.ok rec.toBytes) = unlinkRest parent name := by
  refine ⟨_, _, rfl, rfl, ?_⟩
  have hload : loadInt64 (inodeKey m) = .ok m :=
    loadInt64_leBytes (Nat.lt_trans hm (by decide))
  have hzero : rec.iLinksCount - 1 = 0 := by rw [hlinks]; rfl
  show ((do
    let inode ← Fs.lift (deserializeInode rec.toBytes)
    let ino ← Fs.lift (loadInt64 (inodeKey m))
    return (asInt64 ino, some inode) : Fs (Int × Option ViveInode))
      >>= _) = _
  rw [deserializeInode_toBytes, hload]
  show (if asInt64 m < 0 then _ else _ : Fs Int) = _
  rw [asInt64_of_lt hm, if_neg (by omega)]
  dsimp only
  rw [hzero, hcount]
  rfl

section Unlinks

variable {init : Server → Prop} {ok : Shared → ServerLabel → Prop}
  {tr : List ServerLabel} {n : Server} {i m : Nat} {rec : ViveInode}

/-- An unlink comes and looks the name up. -/
theorem run_unlinkReads (hrun : ServerRun codec init ok tr n)
    (hfree : n.threads i = none) (hm : m < 2 ^ 63)
    (hentry : n.shared.db.metaCf[fileKey parent name]? = some (inodeKey m))
    (hrec : n.shared.db.metaCf[inodeKey m]? = some rec.toBytes)
    (hlinks : rec.iLinksCount = 1)
    (hcount : extentCount { rec with refCnt := 1, iLinksCount := 0 } = .ok 0)
    (hspawn : ok n.shared (.spawn i (.unlink parent name)))
    (hget : ∀ key v, ok n.shared
      (.call i (.unlink parent name) (.get .metaCf key) (.ok v))) :
    ∃ tr', ServerRun codec init ok (tr' ++ tr)
        ⟨n.shared, Function.update n.threads i
          (some ⟨.unlink parent name, unlinkRest parent name, none⟩)⟩
      ∧ commits (tr' ++ tr) = commits tr := by
  obtain ⟨k₁, k₂, htext, hfirst, hsecond⟩ :
      ∃ k₁ k₂, vnUnlink parent name = _ ∧ _ ∧ _ :=
    vnUnlink_reads hm hlinks hcount
  have hreply₁ : reply i (.get .metaCf (fileKey parent name)) n.shared none
      (.ok (inodeKey m)) n.shared none := ⟨congrArg Except.ok hentry, rfl, rfl⟩
  have hreply₂ : reply i (.get .metaCf (inodeKey m)) n.shared none
      (.ok rec.toBytes) n.shared none := ⟨congrArg Except.ok hrec, rfl, rfl⟩
  have hstart := hrun.step (.spawn hfree hspawn)
  have hread := hstart.step (.call (Function.update_self ..) htext hreply₁
    (hget _ _))
  have hfound := hread.step (.call (Function.update_self ..) hfirst hreply₂
    (hget _ _))
  rw [hsecond, Function.update_idem, Function.update_idem] at hfound
  exact ⟨[_, _, _], hfound, rfl⟩

/-- It deletes the entry, there or not, and succeeds. -/
theorem run_unlinkRest (hrun : ServerRun codec init ok tr n)
    (hthread : n.threads i
      = some ⟨.unlink parent name, unlinkRest parent name, none⟩)
    (hlocks : n.shared.locks = fun _ => none)
    (hbegin : ok n.shared
      (.call i (.unlink parent name) (.beginTransaction .metaOpt) ()))
    (hdelete : ok n.shared (.call i (.unlink parent name)
      (.delete .metaCf (fileKey parent name)) .ok))
    (hcommit : ∀ s, ok s (.call i (.unlink parent name) .commit .ok))
    (hret : ∀ s, ok s (.ret i (.unlink parent name) 0)) :
    ∃ tr' s', ServerRun codec init ok (tr' ++ tr)
        ⟨s', Function.update n.threads i none⟩
      ∧ .ret i (.unlink parent name) 0 ∈ tr'
      ∧ s'.locks = (fun _ => none) ∧ s'.inodeSeed = n.shared.inodeSeed
      ∧ s'.db = n.shared.db.applyOp (.delete .metaCf (fileKey parent name))
      ∧ commits (tr' ++ tr) = false :: commits tr := by
  have hgrants (key : Cf × Bytes) : n.shared.Grants i key :=
    Or.inl (congrFun hlocks key)
  have hreply₁ : reply i (.beginTransaction .metaOpt) n.shared none ()
      n.shared (some ⟨.metaOpt, []⟩) := ⟨rfl, rfl⟩
  have hreply₂ : reply i (.delete .metaCf (fileKey parent name)) n.shared
      (some ⟨.metaOpt, []⟩) .ok (n.shared.lock i (nameLock parent name))
      (some ⟨.metaOpt, [.delete .metaCf (fileKey parent name)]⟩) :=
    Or.inl ⟨rfl, hgrants _, rfl, rfl⟩
  have hreply₃ : reply i .commit (n.shared.lock i (nameLock parent name))
      (some ⟨.metaOpt, [.delete .metaCf (fileKey parent name)]⟩) .ok
      ((n.shared.lock i (nameLock parent name)).commitTx i
        (some ⟨.metaOpt, [.delete .metaCf (fileKey parent name)]⟩)) none :=
    Or.inl ⟨rfl, rfl, rfl⟩
  have hopen := hrun.step (.call hthread rfl hreply₁ hbegin)
  have hdeleted := hopen.step (.call (Function.update_self ..) rfl hreply₂
    hdelete)
  have hcommitted := hdeleted.step (.call (Function.update_self ..) rfl
    hreply₃ (hcommit _))
  have hdone := hcommitted.step (.ret (Function.update_self ..) rfl (hret _))
  rw [Function.update_idem, Function.update_idem, Function.update_idem]
    at hdone
  have hreleased := Shared.release_locks
    (Shared.grants_lock hgrants (nameLock parent name))
  refine ⟨[_, _, _, _], _, hdone, List.mem_cons_self,
    Shared.release_locks fun key => ?_, rfl, rfl, rfl⟩
  rw [Shared.commitTx_metaOpt]
  exact Or.inl (congrFun hreleased key)

end Unlinks

-- ========================================================== a create alone

/-- A create of a free name with no lock held, from its first call to its
return. -/
theorem run_create {init : Server → Prop}
    {ok : Shared → ServerLabel → Prop} {tr : List ServerLabel} {n : Server}
    {i : Nat} {mode uid gid : UInt16}
    (hrun : ServerRun codec init ok tr n)
    (hthread : n.threads i = some ⟨.create parent name mode uid gid,
      (Job.create parent name mode uid gid).prog, none⟩)
    (hlocks : n.shared.locks = fun _ => none)
    (habsent : n.shared.db.metaCf[fileKey parent name]? = none)
    (hseed : n.shared.inodeSeed + 1 < 2 ^ 63)
    (hcall : ∀ (s : Shared) (c : StoreCall) (r : c.Resp),
      (∀ key, s.Grants i key) → s.inodeSeed ≤ n.shared.inodeSeed + 1 →
      ¬ c.Failed r → (∀ cf key, c ≠ .delete cf key) →
      ok s (.call i (.create parent name mode uid gid) c r))
    (hret : ∀ s a, ok s (.ret i (.create parent name mode uid gid) a)) :
    ∃ tr' s', ServerRun codec init ok (tr' ++ tr)
        ⟨s', Function.update n.threads i none⟩
      ∧ .ret i (.create parent name mode uid gid)
        (asInt64 n.shared.inodeSeed) ∈ tr'
      ∧ commits (tr' ++ tr) = true :: commits tr := by
  -- what the calls reply, while no one else has a lock
  obtain ⟨s, hs⟩ : ∃ s : Shared, s = { n.shared with
    inodeSeed := n.shared.inodeSeed + 1 } := ⟨_, rfl⟩
  have hgrants₀ : ∀ key, n.shared.Grants i key :=
    fun key => Or.inl (congrFun hlocks key)
  have hgrants : ∀ key, s.Grants i key := hs ▸ hgrants₀
  have hgrants₁ := Shared.grants_lock hgrants (nameLock parent name)
  have hgrants₂ := Shared.grants_lock hgrants₁ (nameLock parent name)
  have hdraw : reply i .generateInodeNo n.shared none n.shared.inodeSeed s
      none := ⟨rfl, hseed, hs, rfl⟩
  have htime : reply i .time s none 0 s none := ⟨rfl, rfl⟩
  have hbegin : reply i (.beginTransaction .metaOpt) s none () s
      (some ⟨.metaOpt, []⟩) := ⟨rfl, rfl⟩
  have hlock : reply i (.getForUpdate .metaCf (fileKey parent name)) s
      (some ⟨.metaOpt, []⟩) .notFound (s.lock i (nameLock parent name))
      (some ⟨.metaOpt, []⟩) := by
    refine Or.inl ⟨hgrants _, congrArg Except.ok ?_, rfl, rfl⟩
    rw [hs]
    exact habsent
  have hput (s : Shared) (tx : Option Tx) (key val : Bytes)
      (h : ∀ key, s.Grants i key) : reply i (.put .metaCf key val) s tx .ok
        (s.lock i (.metaCf, key)) (txPush (.put .metaCf key val) tx) :=
    Or.inl ⟨rfl, h _, rfl, rfl⟩
  have hseed₁ : s.inodeSeed ≤ n.shared.inodeSeed + 1 :=
    Nat.le_of_eq (by rw [hs])
  -- the steps
  have hdrawn := hrun.step (.call hthread rfl hdraw
    (hcall _ _ _ hgrants₀ (Nat.le_succ _) id fun _ _ h => by cases h))
  have htimed := hdrawn.step (.call (Function.update_self ..) rfl htime
    (hcall s .time 0 hgrants hseed₁ id fun _ _ h => by cases h))
  have hopen := htimed.step (.call (Function.update_self ..) rfl hbegin
    (hcall s (.beginTransaction .metaOpt) () hgrants hseed₁ id
      fun _ _ h => by cases h))
  have hlocked := hopen.step (.call (Function.update_self ..) rfl hlock
    (hcall s (.getForUpdate .metaCf (fileKey parent name)) .notFound hgrants
      hseed₁ (fun h => by cases h) fun _ _ h => by cases h))
  have hnamed := hlocked.step (.call (Function.update_self ..) rfl
    (hput _ _ _ _ hgrants₁) (hcall _ (.put .metaCf _ _) .ok hgrants₁ hseed₁
      (fun h => by cases h) fun _ _ h => by cases h))
  have hgrants₃ := Shared.grants_lock hgrants₂ (.metaCf, inodeKey
    (newInode n.shared.inodeSeed mode uid gid 0).iNo.toNat)
  have hrecorded := hnamed.step (.call (Function.update_self ..) rfl
    (hput _ _ _ _ hgrants₂) (hcall _ (.put .metaCf _ _) .ok hgrants₂ hseed₁
      (fun h => by cases h) fun _ _ h => by cases h))
  have hsealed := hrecorded.step (.call (Function.update_self ..) rfl
    (show reply i .putSeed _ _ .ok _ _ from
      Or.inl ⟨rfl, hgrants₃ _, rfl, rfl⟩)
    (hcall _ .putSeed .ok hgrants₃ hseed₁ (fun h => by cases h)
      fun _ _ h => by cases h))
  have hcommitted := hsealed.step (.call (Function.update_self ..) rfl
    (show reply i .commit _ _ .ok _ _ from Or.inl ⟨rfl, rfl, rfl⟩)
    (hcall _ .commit .ok (Shared.grants_lock hgrants₃ _) hseed₁
      (fun h => by cases h) fun _ _ h => by cases h))
  have hdone := hcommitted.step (.ret (Function.update_self ..) rfl
    (hret _ _))
  simp only [Function.update_idem] at hdone
  exact ⟨[_, _, _, _, _, _, _, _, _], _, hdone, List.mem_cons_self, rfl⟩

/-- A server on a file system with one file in it. -/
def oneFileServer (codec : SuperblockCodec) : Server :=
  ⟨⟨(oneFileSys codec 0 0).world.db, (oneFileSys codec 0 0).world.db,
    vnFirstUserIno + 1, fun _ => none⟩, fun _ => none⟩

theorem quiet_oneFileServer :
    Quiet vnRootIno nameA true (oneFileServer codec) := by
  have hplain : Plain vnFirstUserIno :=
    ⟨by decide, by decide, apart_of_lt (by decide)⟩
  have hentry : (oneFileServer codec).shared.db.metaCf[fileKey vnRootIno nameA]?
      = some (inodeKey vnFirstUserIno) := oneFileSys_entry 0 0
  refine ⟨rfl, rfl, ⟨fun v hv => ?_, fun m v hm hv => ?_⟩, Nat.le_succ _,
    show vnFirstUserIno + 1 < 2 ^ 63 by decide, by rw [hentry]; rfl⟩
  · exact ⟨_, hplain, Option.some.inj (hv.symm.trans hentry)⟩
  · change ((formattedStore codec).applyBatch
      (createOps ..)).metaCf[inodeKey m]? = some v at hv
    rw [createOps_meta, if_neg (inodeKey_ne_inodeSeedKey m).symm] at hv
    split at hv
    · exact ⟨_, (Option.some.inj hv).symm, rfl⟩
    · rw [if_neg (hm.2.2 vnRootIno nameA), formattedStore_meta,
        if_neg (inodeKey_ne_inodeSeedKey m).symm,
        if_neg (inodeKey_ne_superblockKey m).symm] at hv
      cases hv

/-- An unlink comes to the one file and looks it up. -/
theorem run_lookUp {ok : Shared → ServerLabel → Prop}
    {init : Server → Prop} {tr : List ServerLabel} {n : Server} {i : Nat}
    (hrun : ServerRun codec init ok tr n) (hfree : n.threads i = none)
    (hshared : n.shared = (oneFileServer codec).shared)
    (hspawn : ok n.shared (.spawn i (.unlink vnRootIno nameA)))
    (hget : ∀ key v, ok n.shared
      (.call i (.unlink vnRootIno nameA) (.get .metaCf key) (.ok v))) :
    ∃ tr', ServerRun codec init ok (tr' ++ tr)
        ⟨n.shared, Function.update n.threads i
          (some ⟨.unlink vnRootIno nameA, unlinkRest vnRootIno nameA, none⟩)⟩
      ∧ commits (tr' ++ tr) = commits tr := by
  have hcount : extentCount { newInode vnFirstUserIno 0 0 0 0 with
      refCnt := 1, iLinksCount := 0 } = .ok 0 :=
    newInode_extentCount vnFirstUserIno 0 0 0 0
  refine run_unlinkReads hrun hfree (m := vnFirstUserIno) (by decide) ?_ ?_ rfl
    hcount hspawn hget
  · rw [hshared]
    exact oneFileSys_entry 0 0
  · rw [hshared]
    exact oneFileSys_record 0 0

/-- What a create with all the locks to itself may do in order. -/
theorem orderly_create {s : Shared} {i : Nat} {job : Job} {c : StoreCall}
    {r : c.Resp} (hgrants : ∀ key, s.Grants i key)
    (hseed : s.inodeSeed < 0x0101010101010101) (hwell : ¬ c.Failed r)
    (hkeeps : ∀ cf key, c ≠ .delete cf key) :
    Orderly parent name s (.call i job c r) := by
  refine ⟨fun hfail => absurd hfail hwell, ?_⟩
  cases c with
  | getForUpdate cf key => exact hgrants _
  | delete cf key => exact absurd rfl (hkeeps cf key)
  | generateInodeNo => exact apart_of_lt hseed
  | get cf key | beginTransaction opt | put cf key val | putSeed
  | merge key val | commit | rollback | flushWAL | seekMeta target
  | time => exact trivial

/-- A client unlinks the one file and another, that comes meanwhile, makes
it anew. -/
theorem commits_alternate_twoClients : ∃ tr n, ServerRun plainCodec
    (Quiet vnRootIno nameA true) (Orderly vnRootIno nameA) tr n
    ∧ .ret 0 (.unlink vnRootIno nameA) 0 ∈ tr
    ∧ .ret 1 (.create vnRootIno nameA 0 0 0) 13 ∈ tr
    ∧ commits tr = [true, false] ∧ (commits tr ++ [true]).IsChain (· ≠ ·) := by
  have hinit : ServerRun plainCodec (Quiet vnRootIno nameA true)
      (Orderly vnRootIno nameA) [] (oneFileServer plainCodec) :=
    .init quiet_oneFileServer
  obtain ⟨tr, hread, hnone⟩ := run_lookUp hinit (i := 0) rfl rfl
    ⟨Or.inr rfl, trivial⟩ fun _ _ => ⟨nofun, trivial⟩
  have hcomes : Orderly vnRootIno nameA (oneFileServer plainCodec).shared
      (.spawn 1 (.create vnRootIno nameA 0 0 0)) :=
    ⟨Or.inl ⟨0, 0, 0, rfl⟩, trivial⟩
  have hspawn := hread.step (.spawn rfl hcomes)
  have hthere : (oneFileServer plainCodec).shared.db.metaCf[fileKey vnRootIno
      nameA]? ≠ none :=
    Option.ne_none_iff_exists'.mpr ⟨_, oneFileSys_entry 0 0⟩
  obtain ⟨tr₁, s, hrun, hret, hlocks, hseed, hdb, hcommits⟩ :=
    run_unlinkRest hspawn (i := 0) rfl rfl ⟨nofun, trivial⟩
      ⟨nofun, Or.inl rfl, hthere⟩ (fun _ => ⟨nofun, trivial⟩)
      (fun _ => ⟨trivial, trivial⟩)
  have hseed : s.inodeSeed = vnFirstUserIno + 1 := hseed
  have habsent : s.db.metaCf[fileKey vnRootIno nameA]? = none := by
    rw [hdb, Store.applyOp_meta, WriteOp.onMeta, if_pos rfl]
  obtain ⟨tr₂, s', hrun', hret', hcommits'⟩ := run_create hrun (i := 1) rfl
    hlocks habsent (show s.inodeSeed + 1 < 2 ^ 63 by rw [hseed]; decide)
    (fun s₁ c r hgrants hle hwell hkeeps => orderly_create hgrants
      (Nat.lt_of_le_of_lt hle
        (show s.inodeSeed + 1 < _ by rw [hseed]; decide)) hwell hkeeps)
    (fun _ _ => ⟨trivial, trivial⟩)
  have halternate := (commits_alternate hrun').1
  have hboth : commits (tr₂ ++ (tr₁ ++ (.spawn 1 (.create vnRootIno nameA 0 0
      0) :: (tr ++ [])))) = [true, false] := by
    rw [hcommits', hcommits]
    exact congrArg (fun l => true :: false :: l) hnone
  have hnumber : asInt64 s.inodeSeed = 13 := by
    rw [hseed]
    decide
  refine ⟨_, _, hrun', ?_, ?_, hboth, halternate⟩
  · exact List.mem_append_right _ (List.mem_append_left _ hret)
  · exact List.mem_append_left _ (hnumber ▸ hret')

/-- Two unlinks look the file up before either deletes it, and both return
success. -/
theorem unlink_succeeds_twice : ∃ tr n, ServerRun plainCodec
    (Quiet vnRootIno nameA true) (OneName vnRootIno nameA) tr n
    ∧ .ret 0 (.unlink vnRootIno nameA) 0 ∈ tr
    ∧ .ret 1 (.unlink vnRootIno nameA) 0 ∈ tr
    ∧ commits tr = [false, false]
    ∧ ¬ (commits tr ++ [true]).IsChain (· ≠ ·) := by
  have hinit : ServerRun plainCodec (Quiet vnRootIno nameA true)
      (OneName vnRootIno nameA) [] (oneFileServer plainCodec) :=
    .init quiet_oneFileServer
  obtain ⟨tr₁, hread₁, hnone₁⟩ := run_lookUp hinit (i := 0) rfl rfl
    (Or.inr rfl) fun _ _ => nofun
  obtain ⟨tr₂, hread₂, hnone₂⟩ := run_lookUp hread₁ (i := 1) rfl rfl
    (Or.inr rfl) fun _ _ => nofun
  obtain ⟨tr₃, s₃, hrun₃, hret₃, hlocks₃, -, -, hcommits₃⟩ := run_unlinkRest
    hread₂ (i := 0) rfl rfl nofun nofun (fun _ => nofun) (fun _ => trivial)
  obtain ⟨tr₄, s₄, hrun₄, hret₄, -, -, -, hcommits₄⟩ := run_unlinkRest hrun₃
    (i := 1) rfl hlocks₃ nofun nofun (fun _ => nofun) (fun _ => trivial)
  have hcommits : commits (tr₄ ++ (tr₃ ++ (tr₂ ++ (tr₁ ++ []))))
      = [false, false] := by
    rw [hcommits₄, hcommits₃, hnone₂, hnone₁]
    rfl
  refine ⟨_, _, hrun₄, List.mem_append_right _ (List.mem_append_left _ hret₃),
    List.mem_append_left _ hret₄, hcommits, ?_⟩
  rw [hcommits]
  decide

end Runs

end ViveNas
