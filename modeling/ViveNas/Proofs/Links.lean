/-
Link counts and the directory.

`LinksMatch` says that a record's link count is the number of entries
that lead to it. A create keeps it as long as the two keys it writes
were free (`create_linksMatch_iff`). An unlink never does: on the last
link the entry goes and the record stays with its count of one, and on
any other the count goes down and the entry stays
(`unlink_breaks_links`).

# Counting

The entries that lead to a number are a finite set (`finite_linksTo`),
and a create or an unlink is looked at by what it adds to or takes from
that set: nothing but its own entry, for its own number
(`linksTo_created_seed`, `linksTo_created_of_ne`).
-/
import ViveNas.Proofs.Namespace
import ViveNas.Proofs.Refused

namespace ViveNas

open LittleEndian

-- ============================================================ the predicate

/-- The entries that lead to a number. -/
def Store.linksTo (db : Store) (n : Nat) : Set Bytes :=
  {key | (∃ p a, key = fileKey p a)
    ∧ db.metaCf[key]? = some (leBytes 8 n)}

/-- Every record but the root's counts the entries that lead to it. -/
def LinksMatch (db : Store) : Prop :=
  ∀ n (rec : ViveInode), n < 2 ^ 64 →
    db.metaCf[inodeKey n]? = some rec.toBytes → n ≠ vnRootIno →
    rec.iLinksCount.toNat = (db.linksTo n).ncard

/-- A directory whose numbers are below `next`: an entry holds the number
of a file with a record, and what is under a number's key and is no entry
is below `next` too. -/
structure Formed (db : Store) (next : Nat) : Prop where
  low : vnFirstUserIno ≤ next
  high : next < 2 ^ 63
  entry : ∀ p a v, db.metaCf[fileKey p a]? = some v →
    ∃ (n : Nat) (rec : ViveInode), v = leBytes 8 n ∧ n < next ∧ n ≠ vnRootIno
      ∧ db.metaCf[inodeKey n]? = some rec.toBytes ∧ rec.iNo.toNat = n
  record : ∀ n v, n < 2 ^ 64 → db.metaCf[inodeKey n]? = some v →
    (∃ p a, fileKey p a = inodeKey n) ∨ n < next

theorem finite_linksTo (db : Store) (n : Nat) : (db.linksTo n).Finite :=
  (Table.finite_keys db.metaCf).subset fun _ hkey => ⟨_, hkey.2⟩

/-- A record is no number. -/
theorem toBytes_ne_leBytes (rec : ViveInode) (n : Nat) :
    rec.toBytes ≠ leBytes 8 n := by
  intro h
  have hlen := congrArg List.length h
  rw [rec.toBytes_length, leBytes_length] at hlen
  exact absurd hlen (by decide)

theorem leBytes_ne {m n : Nat} (hm : m < 2 ^ 64) (hn : n < 2 ^ 64)
    (h : m ≠ n) : (some (leBytes 8 m) : Option Bytes) ≠ some (leBytes 8 n) :=
  fun heq => h (leBytes_inj hm hn (Option.some.inj heq))

-- =============================================================== creating

section Create

variable {db : Store} {p : Int} {a : FileName} {seed : Nat}
  {mode uid gid : UInt16} {now : UInt64}

/-- The two keys a create writes are free, and differ. -/
def KeysFree (db : Store) (p : Int) (a : FileName) (seed : Nat) : Prop :=
  db.metaCf[fileKey p a]? = none ∧ db.metaCf[inodeKey seed]? = none
    ∧ fileKey p a ≠ inodeKey seed

/-- The store after a create. -/
abbrev Store.created (db : Store) (p : Int) (a : FileName) (seed : Nat)
    (mode uid gid : UInt16) (now : UInt64) : Store :=
  db.applyBatch (createOps p a seed (newInode seed mode uid gid now))

theorem created_entry (q : Int) (b : FileName) :
    (db.created p a seed mode uid gid now).metaCf[fileKey q b]?
      = if inodeKey seed = fileKey q b then
          some (newInode seed mode uid gid now).toBytes
        else if fileKey p a = fileKey q b then some (leBytes 8 seed)
        else db.metaCf[fileKey q b]? := by
  rw [Store.created, createOps_meta,
    if_neg (fileKey_ne_inodeSeedKey q b).symm]

theorem created_record (n : Nat) :
    (db.created p a seed mode uid gid now).metaCf[inodeKey n]?
      = if inodeKey seed = inodeKey n then
          some (newInode seed mode uid gid now).toBytes
        else if fileKey p a = inodeKey n then some (leBytes 8 seed)
        else db.metaCf[inodeKey n]? := by
  rw [Store.created, createOps_meta,
    if_neg (inodeKey_ne_inodeSeedKey n).symm]

variable (hseed : seed < 2 ^ 63)
include hseed

/-- No entry gets another number than the new one. -/
theorem linksTo_created_subset {n : Nat} (hn : n < 2 ^ 64)
    (hne : n ≠ seed) :
    (db.created p a seed mode uid gid now).linksTo n ⊆ db.linksTo n := by
  rintro key ⟨⟨q, b, rfl⟩, hv⟩
  refine ⟨⟨q, b, rfl⟩, ?_⟩
  rw [created_entry] at hv
  split at hv
  · exact absurd (Option.some.inj hv) (toBytes_ne_leBytes _ n)
  · split at hv
    · exact absurd hv (leBytes_ne (by omega) hn hne.symm)
    · exact hv

/-- An entry whose key the create writes is lost to its number. -/
theorem not_linksMatch_of_overwritten (hf : Formed db seed)
    (hl : LinksMatch db) {q : Int} {b : FileName} {v : Bytes}
    (hkey : fileKey p a = fileKey q b ∨ inodeKey seed = fileKey q b)
    (hv : db.metaCf[fileKey q b]? = some v) :
    ¬ LinksMatch (db.created p a seed mode uid gid now) := by
  intro hl'
  obtain ⟨n, rec, rfl, hn, hroot, hrec, -⟩ := hf.entry q b v hv
  have hrec' : (db.created p a seed mode uid gid now).metaCf[inodeKey n]?
      = some rec.toBytes := by
    rw [created_record, if_neg, if_neg, hrec]
    · -- an entry's key holds a number, the record's a record
      intro hclash
      obtain ⟨m, -, hm, -⟩ := hf.entry p a _ (hclash ▸ hrec)
      exact toBytes_ne_leBytes rec m hm
    · intro hclash
      have := inodeKey_inj (by omega) (by omega) hclash
      omega
  have hlt : ((db.created p a seed mode uid gid now).linksTo n).ncard
      < (db.linksTo n).ncard := by
    refine Set.ncard_lt_ncard ⟨linksTo_created_subset hseed (by omega)
      (by omega), fun hsup => ?_⟩ (finite_linksTo db n)
    have hlost := (hsup ⟨⟨q, b, rfl⟩, hv⟩).2
    rw [created_entry] at hlost
    split at hlost
    · exact toBytes_ne_leBytes _ _ (Option.some.inj hlost)
    · rcases hkey with hkey | hkey
      · rw [if_pos hkey] at hlost
        exact leBytes_ne (by omega) (by omega) (by omega) hlost
      · contradiction
  rw [← hl n rec (by omega) hrec hroot, ← hl' n rec (by omega) hrec' hroot]
    at hlt
  omega

omit hseed in
theorem Formed.ne_root (hf : Formed db seed) : seed ≠ vnRootIno := by
  rintro rfl
  exact absurd hf.low (by decide)

/-- No entry leads to the number to be given out next. -/
theorem Formed.linksTo_next (hf : Formed db seed) : db.linksTo seed = ∅ := by
  rw [Set.eq_empty_iff_forall_notMem]
  rintro key ⟨⟨q, b, rfl⟩, hv⟩
  obtain ⟨n, rec, hn, hlt, -⟩ := hf.entry q b _ hv
  have := leBytes_inj (by omega) (by omega) hn
  omega

/-- Where both keys are free, the new number gets its one entry. -/
theorem linksTo_created_seed (hf : Formed db seed)
    (hfree : KeysFree db p a seed) :
    (db.created p a seed mode uid gid now).linksTo seed = {fileKey p a} := by
  ext key
  rw [Set.mem_singleton_iff]
  constructor
  · rintro ⟨⟨q, b, rfl⟩, hv⟩
    rw [created_entry] at hv
    split at hv
    · exact absurd (Option.some.inj hv) (toBytes_ne_leBytes _ _)
    · split at hv
      · next heq => exact heq.symm
      · have hmem : fileKey q b ∈ db.linksTo seed := ⟨⟨q, b, rfl⟩, hv⟩
        rw [hf.linksTo_next hseed] at hmem
        exact hmem.elim
  · rintro rfl
    refine ⟨⟨p, a, rfl⟩, ?_⟩
    rw [created_entry, if_neg hfree.2.2.symm, if_pos rfl]

/-- And every other number keeps its own. -/
theorem linksTo_created_of_ne (hfree : KeysFree db p a seed) {n : Nat}
    (hn : n < 2 ^ 64) (hne : n ≠ seed) :
    (db.created p a seed mode uid gid now).linksTo n = db.linksTo n := by
  refine Set.Subset.antisymm (linksTo_created_subset hseed hn hne) ?_
  rintro key ⟨⟨q, b, rfl⟩, hv⟩
  refine ⟨⟨q, b, rfl⟩, ?_⟩
  rw [created_entry, if_neg, if_neg, hv]
  · intro hkey
    rw [← hkey, hfree.1] at hv
    cases hv
  · intro hkey
    rw [← hkey, hfree.2.1] at hv
    cases hv

/-- A create keeps the counts exactly where it writes to free keys. -/
theorem create_linksMatch_iff (hf : Formed db seed) (hl : LinksMatch db) :
    LinksMatch (db.created p a seed mode uid gid now)
      ↔ KeysFree db p a seed := by
  constructor
  · intro hl'
    refine ⟨?_, ?_, ?_⟩
    · by_contra htaken
      obtain ⟨v, hv⟩ := Option.ne_none_iff_exists'.mp htaken
      exact not_linksMatch_of_overwritten hseed hf hl (Or.inl rfl) hv hl'
    · by_contra htaken
      obtain ⟨v, hv⟩ := Option.ne_none_iff_exists'.mp htaken
      obtain ⟨q, b, hkey⟩ | hlt := hf.record seed v (by omega) hv
      · exact not_linksMatch_of_overwritten hseed hf hl (Or.inr hkey.symm)
          (hkey ▸ hv) hl'
      · omega
    · -- the record would stand where the entry should
      intro hclash
      have hrec : (db.created p a seed mode uid gid now).metaCf[inodeKey
          seed]? = some (newInode seed mode uid gid now).toBytes := by
        rw [created_record, if_pos rfl]
      have hcount := hl' seed _ (by omega) hrec hf.ne_root
      have hnone : (db.created p a seed mode uid gid now).linksTo seed = ∅ := by
        rw [Set.eq_empty_iff_forall_notMem]
        rintro key ⟨⟨q, b, rfl⟩, hv⟩
        rw [created_entry, hclash] at hv
        split at hv
        · exact toBytes_ne_leBytes _ _ (Option.some.inj hv)
        · have hmem : fileKey q b ∈ db.linksTo seed := ⟨⟨q, b, rfl⟩, hv⟩
          rw [hf.linksTo_next hseed] at hmem
          exact hmem
      rw [hnone, Set.ncard_empty] at hcount
      cases hcount
  · intro hfree n rec hn hrec hne
    rw [created_record] at hrec
    split at hrec
    · next heq =>
      obtain rfl := inodeKey_inj (by omega) hn heq
      rw [← ViveInode.toBytes_inj (Option.some.inj hrec),
        linksTo_created_seed hseed hf hfree, Set.ncard_singleton]
      rfl
    · next hseedne =>
      split at hrec
      · exact absurd (Option.some.inj hrec).symm (toBytes_ne_leBytes rec seed)
      · rw [linksTo_created_of_ne hseed hfree hn fun h => hseedne (h ▸ rfl)]
        exact hl n rec hn hrec hne

/-- Where the number's key is no entry's, the directory stays formed. -/
theorem Formed.create (hf : Formed db seed) (hfree : KeysFree db p a seed)
    (hapart : Apart seed) (hnext : seed + 1 < 2 ^ 63) :
    Formed (db.created p a seed mode uid gid now) (seed + 1) where
  low := Nat.le_succ_of_le hf.low
  high := hnext
  entry q b v hv := by
    rw [created_entry, if_neg (hapart q b).symm] at hv
    split at hv
    · cases hv
      refine ⟨seed, newInode seed mode uid gid now, rfl, by omega,
        hf.ne_root, ?_, newInode_iNo (by omega) ..⟩
      rw [created_record, if_pos rfl]
    · obtain ⟨n, rec, rfl, hn, hne, hrec, hno⟩ := hf.entry q b v hv
      refine ⟨n, rec, rfl, by omega, hne, ?_, hno⟩
      rw [created_record, if_neg, if_neg, hrec]
      · intro hclash
        rw [← hclash, hfree.1] at hrec
        cases hrec
      · intro hclash
        have := inodeKey_inj (by omega) (by omega) hclash
        omega
  record n v hn hv := by
    rw [created_record] at hv
    split at hv
    · next heq =>
      obtain rfl := inodeKey_inj (by omega) hn heq
      exact Or.inr (by omega)
    · split at hv
      · next heq => exact Or.inl ⟨p, a, heq⟩
      · rcases hf.record n v hn hv with hentry | hlt
        · exact Or.inl hentry
        · exact Or.inr (by omega)

end Create

-- ============================================================== unlinking

section Unlink

variable {w w' : World} {p : Int} {a : FileName}

/-- The commit of an unlink that returns 0 went through. -/
theorem unlinkCommit_done {opt : WriteOpt} {b : List WriteOp}
    (hx : unlinkCommit.exec (w.within opt b) = .ok (0, w')) :
    w'.db = w.db.applyBatch b := by
  rcases unlinkCommit_ends hx with ⟨-, hdb⟩ | ⟨hcode, -⟩
  · exact hdb
  · cases hcode

/-- The lookup of an unlink that goes on found an entry and a record. -/
theorem lookup_found {ino : Int} {n : ViveInode} {w₁ : World}
    (hx : (vnLookupInodeNo p a true).exec w = .ok ((ino, some n), w₁)) :
    ∃ v u, w.db.metaCf[fileKey p a]? = some v ∧ w.db.metaCf[v]? = some u
      ∧ deserializeInode u = .ok n := by
  rw [vnLookupInodeNo, exec_bind_ok (exec_readMeta _)] at hx
  cases hread : w.readMeta (fileKey p a) with
  | notFound =>
      rw [hread] at hx
      cases hx
  | ok v =>
      rw [hread] at hx
      obtain ⟨-, hv⟩ := readMeta_eq_ok.mp hread
      have hget := (exec_bind_ok (exec_readMeta v)).symm.trans hx
      cases hrecord : (w.skip 1).readMeta v with
      | notFound =>
          rw [hrecord] at hget
          cases hget
      | failed =>
          rw [hrecord] at hget
          cases hget
      | ok u =>
          obtain ⟨-, hu⟩ := readMeta_eq_ok.mp hrecord
          rw [hrecord] at hget
          obtain ⟨inode, w₂, hinode, hload⟩ := exec_bind_inv hget
          obtain ⟨num, w₃, -, hret⟩ := exec_bind_inv hload
          cases hret
          refine ⟨v, u, hv, hu, ?_⟩
          cases hd : deserializeInode u with
          | ok m =>
              cases (exec_lift_ok hd).symm.trans hinode
              rfl
          | error e => cases (exec_lift_error hd).symm.trans hinode
  | failed =>
      rw [hread] at hx
      have hget := (exec_bind_ok (exec_readMeta [])).symm.trans hx
      cases hrecord : (w.skip 1).readMeta [] with
      | notFound =>
          rw [hrecord] at hget
          cases hget
      | failed =>
          rw [hrecord] at hget
          cases hget
      | ok u =>
          -- there is no number in the slice of a failed read
          rw [hrecord] at hget
          obtain ⟨inode, w₂, -, hload⟩ := exec_bind_inv hget
          cases hload

/-- What an unlink that returns 0 leaves alone: on the last link all but
the entry, on any other all but the record. -/
theorem unlink_done (hx : (vnUnlink p a).exec w = .ok (0, w')) :
    ∃ v u n, w.db.metaCf[fileKey p a]? = some v ∧ w.db.metaCf[v]? = some u
      ∧ deserializeInode u = .ok n
      ∧ (n.iLinksCount = 1 → ∀ key : Bytes, fileKey p a ≠ key →
        w'.db.metaCf[key]? = w.db.metaCf[key]?)
      ∧ (n.iLinksCount ≠ 1 → ∀ key : Bytes, inodeKey n.iNo.toNat ≠ key →
        w'.db.metaCf[key]? = w.db.metaCf[key]?) := by
  rw [vnUnlink] at hx
  obtain ⟨⟨ino, out⟩, w₁, hlookup, hrest⟩ := exec_bind_inv hx
  have hdb : w₁.db = w.db :=
    db_of_notCommit (calls_vnLookupInodeNo (fun _ _ => StoreCall.noConfusion)
      p a true) hlookup
  dsimp only at hrest
  split at hrest
  case isTrue => cases hrest
  case isFalse =>
    cases out with
    | none => cases hrest
    | some n =>
        obtain ⟨v, u, hv, hu, hd⟩ := lookup_found hlookup
        refine ⟨v, u, n, hv, hu, hd, fun hone key hkey => ?_,
          fun hmore key hkey => ?_⟩
        all_goals rw [exec_bind_ok (exec_begin .metaOpt)] at hrest
        · rw [if_pos (by rw [hone]; rfl)] at hrest
          obtain ⟨extents, w₂, hcount, hdel⟩ := exec_bind_inv hrest
          rw [lift_returns hcount,
            exec_bind_ok (exec_tryDeleteExtents .metaOpt _ _ extents 0 []),
            exec_bind_ok (exec_tryDelete .metaOpt _ _ _)] at hdel
          have hdone := unlinkCommit_done (w := (w₁.skip extents).skip 1) hdel
          rw [hdone, skip_db, skip_db, hdb]
          refine Store.applyBatch_meta_of_fixed _ fun op hop old => ?_
          rcases List.mem_append.mp hop with hop | hop
          · exact WriteOp.onMeta_of_notMeta (deleteOps_notMeta (by decide) _ _ _
              op (mem_of_mem_kept hop)) key old
          · split at hop
            · rw [List.mem_singleton.mp hop, WriteOp.onMeta, if_neg hkey]
            · cases hop
        · have hzero : n.iLinksCount - 1 ≠ 0 := fun h =>
            hmore (by rw [← UInt16.sub_add_cancel n.iLinksCount 1, h]; rfl)
          rw [if_neg hzero, exec_bind_ok (exec_tryPersist .metaOpt [] _)]
            at hrest
          cases hout : w₁.outcomeAt 0 with
          | false =>
              rw [hout] at hrest
              have hroll := (exec_bind_ok exec_rollback).symm.trans hrest
              cases hroll
          | true =>
              rw [hout] at hrest
              have hdone := unlinkCommit_done (w := w₁.skip 1) hrest
              rw [hdone, skip_db, hdb]
              refine Store.applyBatch_meta_of_fixed _ fun op hop old => ?_
              rw [List.mem_singleton.mp hop, WriteOp.onMeta, if_neg hkey]

end Unlink

-- ============================================================= main result

/-- A call that changes names. -/
inductive NameCall where
  | create (parent : Int) (name : FileName) (mode uid gid : UInt16)
  | unlink (parent : Int) (name : FileName)

namespace NameCall

/-- The call succeeds and leaves the world `w'`. -/
def Done (w w' : World) : NameCall → Prop
  | create p a mode uid gid => ∃ r out,
      (vnCreateFile p a mode uid gid).exec w = .ok ((r, out), w') ∧ 0 ≤ r
  | unlink p a => (vnUnlink p a).exec w = .ok (0, w')

/-- The counts match after the call. An unlink has also removed its entry
and no other, and its inode's count, if a record is left, is one less than
the number of entries there were. -/
def KeepsLinks (w w' : World) : NameCall → Prop
  | create .. => LinksMatch w'.db
  | unlink p a => LinksMatch w'.db
      ∧ (∀ q b, w'.db.metaCf[fileKey q b]?
        = if fileKey p a = fileKey q b then none
          else w.db.metaCf[fileKey q b]?)
      ∧ ∀ n (rec : ViveInode),
        w.db.metaCf[fileKey p a]? = some (leBytes 8 n) →
        w'.db.metaCf[inodeKey n]? = some rec.toBytes →
        rec.iLinksCount.toNat = (w.db.linksTo n).ncard - 1

/-- The call is a create that writes to free keys. -/
def Fresh (w : World) : NameCall → Prop
  | create p a .. => KeysFree w.db p a w.inodeSeed
  | unlink .. => False

end NameCall

section Calls

variable {w w' : World} {p : Int} {a : FileName}

/-- A create that succeeds has applied its batch. -/
theorem create_done {mode uid gid : UInt16}
    (hdone : (NameCall.create p a mode uid gid).Done w w') :
    w.inodeSeed + 1 < 2 ^ 63
      ∧ w'.db = w.db.created p a w.inodeSeed mode uid gid w.clock
      ∧ w'.inodeSeed = w.inodeSeed + 1 := by
  obtain ⟨r, out, hx, hr⟩ := hdone
  by_cases hseed : w.inodeSeed + 1 < 2 ^ 63
  · refine ⟨hseed, ?_⟩
    by_cases hcreates : w.creates p a
    · rw [exec_create_done hseed mode uid gid hcreates] at hx
      cases hx
      exact ⟨rfl, rfl⟩
    · obtain ⟨code, k, hcode, hrefused⟩ :=
        exec_create_refused hseed mode uid gid hcreates
      rw [hrefused] at hx
      cases hx
      omega
  · rw [exec_vnCreateFile_overflow hseed] at hx
    cases hx

/-- Where an entry is all that goes, its number is counted one too
high. -/
theorem not_linksMatch_of_removed {db db' : Store} {n : Nat}
    {rec : ViveInode} (hl : LinksMatch db) (hn : n < 2 ^ 64)
    (hroot : n ≠ vnRootIno)
    (hv : db.metaCf[fileKey p a]? = some (leBytes 8 n))
    (hrec : db.metaCf[inodeKey n]? = some rec.toBytes)
    (hgone : db'.metaCf[fileKey p a]? = none)
    (hkeep : ∀ key : Bytes, fileKey p a ≠ key →
      db'.metaCf[key]? = db.metaCf[key]?) : ¬ LinksMatch db' := by
  intro hl'
  have hrec' : db'.metaCf[inodeKey n]? = some rec.toBytes := by
    rw [hkeep, hrec]
    intro hclash
    rw [hclash, hrec] at hv
    exact toBytes_ne_leBytes _ _ (Option.some.inj hv)
  have hlt : (db'.linksTo n).ncard < (db.linksTo n).ncard := by
    refine Set.ncard_lt_ncard ⟨?_, fun hsup => ?_⟩ (finite_linksTo _ _)
    · rintro key ⟨hentry, hkey⟩
      refine ⟨hentry, ?_⟩
      rwa [hkeep] at hkey
      rintro rfl
      rw [hgone] at hkey
      cases hkey
    · have hmem := (hsup ⟨⟨p, a, rfl⟩, hv⟩).2
      rw [hgone] at hmem
      cases hmem
  rw [← hl n rec hn hrec hroot, ← hl' n rec hn hrec' hroot] at hlt
  omega

/-- No unlink keeps the counts. -/
theorem unlink_breaks_links (hf : Formed w.db w.inodeSeed)
    (hl : LinksMatch w.db)
    (hdone : (NameCall.unlink p a).Done w w') :
    ¬ (NameCall.unlink p a).KeepsLinks w w' := by
  rintro ⟨hl', hentries, -⟩
  have hhigh := hf.high
  obtain ⟨v, u, n, hv, hu, hd, hlast, hmore⟩ := unlink_done hdone
  obtain ⟨ino, rec, rfl, hlt, hroot, hrec, hno⟩ := hf.entry p a v hv
  cases hu.symm.trans hrec
  rw [deserializeInode_toBytes] at hd
  cases hd
  have hgone := hentries p a
  rw [if_pos rfl] at hgone
  by_cases hone : rec.iLinksCount = 1
  · exact not_linksMatch_of_removed hl (by omega) hroot hv hrec hgone
      (hlast hone) hl'
  · -- the entry is still there
    have hstay := hmore hone (fileKey p a) (by
      show inodeKey rec.iNo.toNat ≠ fileKey p a
      rw [hno]
      intro hclash
      rw [← hclash, hrec] at hv
      exact toBytes_ne_leBytes _ _ (Option.some.inj hv))
    rw [hgone, hv] at hstay
    cases hstay

/-- A formatted store has neither entries nor records. -/
theorem formedStore_links (codec : SuperblockCodec) :
    Formed (formattedStore codec) vnFirstUserIno
      ∧ LinksMatch (formattedStore codec) := by
  have hentry : ∀ p a, (formattedStore codec).metaCf[fileKey p a]? = none := by
    intro p a
    rw [formattedStore_meta, if_neg (fileKey_ne_inodeSeedKey p a).symm,
      if_neg (fileKey_ne_superblockKey p a).symm]
  have hrecord : ∀ n, (formattedStore codec).metaCf[inodeKey n]? = none := by
    intro n
    rw [formattedStore_meta, if_neg (inodeKey_ne_inodeSeedKey n).symm,
      if_neg (inodeKey_ne_superblockKey n).symm]
  refine ⟨⟨Nat.le_refl _, by decide, fun p a v hv => ?_, fun n v _ hv => ?_⟩,
    fun n rec _ hrec => ?_⟩
  · rw [hentry] at hv
    cases hv
  · rw [hrecord] at hv
    cases hv
  · rw [hrecord] at hrec
    cases hrec

theorem keysFree_formatted (codec : SuperblockCodec) (p : Int)
    (a : FileName) : KeysFree (formattedStore codec) p a vnFirstUserIno := by
  refine ⟨?_, ?_, fileKey_ne_inodeKey (by decide) p a⟩
  · rw [formattedStore_meta, if_neg (fileKey_ne_inodeSeedKey p a).symm,
      if_neg (fileKey_ne_superblockKey p a).symm]
  · rw [formattedStore_meta, if_neg (inodeKey_ne_inodeSeedKey _).symm,
      if_neg (inodeKey_ne_superblockKey _).symm]

/-- One file, as it is made: a formed directory whose counts match. -/
theorem oneFileSys_links :
    Formed (oneFileSys plainCodec 0 0).world.db (vnFirstUserIno + 1)
      ∧ LinksMatch (oneFileSys plainCodec 0 0).world.db := by
  obtain ⟨hf, hl⟩ := formedStore_links plainCodec
  have hfree := keysFree_formatted plainCodec vnRootIno nameA
  exact ⟨hf.create hf.high hfree (apart_of_lt (by decide)) (by decide),
    (create_linksMatch_iff hf.high hf hl).mpr hfree⟩

end Calls

/-- After mkfs the counts match. From any directory whose counts match, a
create keeps them if and only if its keys are free, and stays within such
directories as long as its number's key is no entry's; an unlink never
keeps them. -/
theorem links_kept_iff_fresh (codec : SuperblockCodec) :
    (∀ s, Formatted codec s →
      Formed s.world.db vnFirstUserIno ∧ LinksMatch s.world.db)
    ∧ ∀ (c : NameCall) (w w' : World), Formed w.db w.inodeSeed →
      LinksMatch w.db → c.Done w w' →
      (c.KeepsLinks w w' ↔ c.Fresh w)
      ∧ (c.Fresh w → Apart w.inodeSeed → Formed w'.db w'.inodeSeed) := by
  refine ⟨fun s hs => ?_, fun c w w' hf hl hdone => ?_⟩
  · rw [hs.world_eq.1]
    exact formedStore_links codec
  cases c with
  | create p a mode uid gid =>
      obtain ⟨hnext, hdb, hseed⟩ := create_done hdone
      rw [NameCall.KeepsLinks, NameCall.Fresh, hdb, hseed]
      exact ⟨create_linksMatch_iff hf.high hf hl, fun hfree hapart =>
        hf.create hf.high hfree hapart hnext⟩
  | unlink p a =>
      exact ⟨iff_of_false (unlink_breaks_links hf hl hdone) not_false,
        False.elim⟩

/-- A second file next to the first is counted. -/
theorem links_kept_second : ∃ w', (NameCall.create vnRootIno nameB 0 0 0).Done
      (oneFileSys plainCodec 0 0).world w'
    ∧ (oneFileSys plainCodec 0 0).world.db.metaCf[fileKey vnRootIno nameA]?
      = some (inodeKey vnFirstUserIno)
    ∧ LinksMatch w'.db := by
  obtain ⟨hf, hl⟩ := oneFileSys_links
  have hcreate := exec_vnCreateFile_fresh (w := (oneFileSys plainCodec 0
    0).world) rfl (by decide) 0 0 0 (oneFileSys_nameB 0 0)
  have hdone : (NameCall.create vnRootIno nameB 0 0 0).Done
      (oneFileSys plainCodec 0 0).world _ := ⟨_, _, hcreate, by decide⟩
  refine ⟨_, hdone, oneFileSys_entry 0 0, ?_⟩
  exact ((links_kept_iff_fresh plainCodec).2 _ _ _ hf hl hdone).1.mpr
    ⟨oneFileSys_nameB 0 0, oneFileSys_unused 0 0,
      fileKey_ne_inodeKey (by decide) _ _⟩

/-- mkfs, a file, and its unlink: the record is left with its count of one
and no entry leads to it. -/
theorem links_broken_by_unlink :
    ∃ w', (NameCall.unlink vnRootIno nameA).Done
        (oneFileSys plainCodec 0 0).world w'
      ∧ LinksMatch (oneFileSys plainCodec 0 0).world.db
      ∧ ¬ LinksMatch w'.db := by
  obtain ⟨-, hmatch⟩ := oneFileSys_links
  have hcalm : Calm (oneFileSys plainCodec 0 0).world := rfl
  have hentry : (oneFileSys plainCodec 0 0).world.db.metaCf[fileKey vnRootIno
      nameA]? = some (leBytes 8 vnFirstUserIno) := oneFileSys_entry 0 0
  have hrec : (oneFileSys plainCodec 0 0).world.db.metaCf[inodeKey
      vnFirstUserIno]? = some (newInode vnFirstUserIno 0 0 0 0).toBytes :=
    oneFileSys_record 0 0
  have hnum : leNat ((leBytes 8 vnFirstUserIno).take 8) < 2 ^ 63 := by decide
  have hmeta := unlinkOps_meta (oneFileSys plainCodec 0 0).world.db vnRootIno
    nameA (newInode vnFirstUserIno 0 0 0 0).iNo.toNat 0
  refine ⟨_, exec_vnUnlink_last hcalm hentry (by rw [leBytes_length]) hrec
    hnum rfl (newInode_extentCount ..), hmatch, ?_⟩
  exact not_linksMatch_of_removed hmatch (by decide) (by decide) hentry hrec
    ((hmeta _).trans (if_pos rfl)) fun key hkey =>
      (hmeta key).trans (if_neg hkey)

end ViveNas
