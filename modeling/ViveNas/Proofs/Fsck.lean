/-
What a checker of the store would ask for, and that it holds whatever
runs.

`Sound` is the check: the superblock and the counter are there, every key
of meta_cf is of one of the formats and its value fits it, every entry
leads to a record, no two entries to the same one, every record is below
the counter, and every extent belongs to a record and resolves. It is
asked of the committed store and of what a crash would leave of it.

# Why it holds

No function but `vn_create_file` adds a record or moves the counter, and
what it adds has a number nobody else has. All other writes are vouched
for by a record that is there (`WriteOp.Fair`), and records are never
deleted. So a record, once there, stays, and so does every reading of it
that calls leave alone (`Agree`); with it stays what was handed out. The
durable store differs from the committed one by such writes only, since
creates and unlinks sync.
-/
import ViveNas.Proofs.Seats
import ViveNas.Proofs.Listing
import ViveNas.Proofs.Numbers

namespace ViveNas

open LittleEndian ViveDataMergeOperator Pool

variable {A : Type} {F : Lasting A} {codec : SuperblockCodec}
  {c c' : Nat} {db db' db'' : Store}

-- ============================================================= the check

/-- Something is under the number's key. -/
def Store.Recorded (db : Store) (m : Nat) : Prop :=
  ∃ v, db.metaCf[inodeKey m]? = some v

/-- A key of meta_cf and a value that fits it; `c` is the counter. -/
inductive MetaPair (codec : SuperblockCodec) (c : Nat) (db : Store) :
    Bytes → Bytes → Prop where
  | superblock :
      MetaPair codec c db superblockKey (codec.serialize vivefsSuperBlock)
  | seed : MetaPair codec c db inodeSeedKey (leBytes 8 c)
  | entry (p : Int) (a : FileName) {m : Nat} (hm : FileNo m)
      (hrec : db.Recorded m) :
      MetaPair codec c db (fileKey p a) (inodeKey m)
  | record {m : Nat} {rec : ViveInode} (hm : FileNo m) (hlt : m < c)
      (hrec : Genuine m rec) : MetaPair codec c db (inodeKey m) rec.toBytes
  | root {rec : ViveInode} (hrec : IsRoot rec) :
      MetaPair codec c db (inodeKey vnRootIno) rec.toBytes

/-- A key of data_cf and an entry that fits it. -/
structure ExtentPair (db : Store) (key : Bytes) (e : Entry Bytes) :
    Prop where
  key : ∃ idx m, FileNo m ∧ db.Recorded m ∧ key = vnExtentKey idx m
  value : ∃ data, Holds (some e) data

/-- The store passes the check. -/
structure Sound (codec : SuperblockCodec) (c : Nat) (db : Store) :
    Prop where
  superblock : db.metaCf[superblockKey]?
    = some (codec.serialize vivefsSuperBlock)
  seed : db.metaCf[inodeSeedKey]? = some (leBytes 8 c)
  low : vnFirstUserIno ≤ c
  high : c ≤ plainNos
  pairs : ∀ key v, db.metaCf[key]? = some v → MetaPair codec c db key v
  single : ∀ p a q b v, db.metaCf[fileKey p a]? = some v →
    db.metaCf[fileKey q b]? = some v → p = q ∧ a = b
  extents : ∀ key e, db.dataCf[key]? = some e → ExtentPair db key e

-- ============================================================== inversion

theorem FileNo.ne_root {m : Nat} (h : FileNo m) : m ≠ vnRootIno := by
  rintro rfl
  exact absurd h.1 (by decide)

theorem inodeKey_inj_file {m n : Nat} (hm : FileNo m) (hn : n < 2 ^ 64)
    (h : inodeKey m = inodeKey n) : m = n :=
  inodeKey_inj (Nat.lt_trans hm.lt (by decide)) hn h

theorem MetaPair.mono {key v : Bytes} (h : MetaPair codec c db key v)
    (hc : c ≤ c') (hkey : key = inodeSeedKey → c' = c)
    (hrec : ∀ m, FileNo m → db.Recorded m → db'.Recorded m) :
    MetaPair codec c' db' key v := by
  cases h with
  | superblock => exact .superblock
  | seed =>
      rw [← hkey rfl]
      exact .seed
  | entry p a hm hr => exact .entry p a hm (hrec _ hm hr)
  | record hm hlt hr => exact .record hm (Nat.lt_of_lt_of_le hlt hc) hr
  | root hr => exact .root hr

/-- What is under an entry's key. -/
theorem MetaPair.of_fileKey {p : Int} {a : FileName} {v : Bytes}
    (h : MetaPair codec c db (fileKey p a) v) :
    ∃ m, FileNo m ∧ db.Recorded m ∧ v = inodeKey m := by
  generalize hkey : fileKey p a = key at h
  cases h with
  | superblock => exact absurd hkey (fileKey_ne_superblockKey p a)
  | seed => exact absurd hkey (fileKey_ne_inodeSeedKey p a)
  | entry p' a' hm hr => exact ⟨_, hm, hr, rfl⟩
  | record hm _ _ => exact absurd hkey (fileKey_ne_inodeKey hm.2 p a)
  | root _ => exact absurd hkey (fileKey_ne_inodeKey (by decide) p a)

/-- What is under a file's number. -/
theorem MetaPair.of_inodeKey {m : Nat} {v : Bytes} (hm : FileNo m)
    (h : MetaPair codec c db (inodeKey m) v) :
    m < c ∧ ∃ rec, Genuine m rec ∧ v = rec.toBytes := by
  generalize hkey : inodeKey m = key at h
  cases h with
  | superblock => exact absurd hkey (inodeKey_ne_superblockKey m)
  | seed => exact absurd hkey (inodeKey_ne_inodeSeedKey m)
  | entry p a _ _ => exact absurd hkey.symm (fileKey_ne_inodeKey hm.2 p a)
  | record hm' hlt hr =>
      obtain rfl := inodeKey_inj_file hm (Nat.lt_trans hm'.lt (by decide)) hkey
      exact ⟨hlt, _, hr, rfl⟩
  | root _ =>
      exact absurd (inodeKey_inj_file hm (by decide) hkey) hm.ne_root

namespace Sound

variable (h : Sound codec c db)

include h

theorem entry {p : Int} {a : FileName} {v : Bytes}
    (hv : db.metaCf[fileKey p a]? = some v) :
    ∃ m, FileNo m ∧ db.Recorded m ∧ v = inodeKey m :=
  (h.pairs _ v hv).of_fileKey

theorem record {m : Nat} (hm : FileNo m) (hrec : db.Recorded m) :
    m < c ∧ ∃ rec : ViveInode, Genuine m rec
      ∧ db.metaCf[inodeKey m]? = some rec.toBytes := by
  obtain ⟨v, hv⟩ := hrec
  obtain ⟨hlt, rec, hgen, rfl⟩ := (h.pairs _ v hv).of_inodeKey hm
  exact ⟨hlt, rec, hgen, hv⟩

theorem seed_eq : db.seed = c :=
  Store.seed_eq (Nat.lt_of_le_of_lt h.high (by decide)) h.seed

/-- A file's record matches itself. -/
theorem matches_record {m : Nat} (hm : FileNo m) {rec : ViveInode}
    (hrec : db.metaCf[inodeKey m]? = some rec.toBytes) :
    Genuine m rec ∧ Matches F db rec := by
  obtain ⟨-, rec', hgen, hrec'⟩ := h.record hm ⟨_, hrec⟩
  obtain rfl := ViveInode.toBytes_inj (Option.some.inj (hrec.symm.trans hrec'))
  refine ⟨hgen, hgen.number ▸ hm, hgen.extentSize, rec, ?_, rfl⟩
  rw [hgen.number, hrec]

/-- An inode that matches is the file's own. -/
theorem genuine {n : ViveInode} (hn : Matches F db n) :
    Genuine n.iNo.toNat n := by
  obtain ⟨rec, hrec, hof⟩ := hn.record
  obtain ⟨hgen, -⟩ := h.matches_record (F := F) hn.number hrec
  exact ⟨rfl, hn.extentSize, (F.links hof).trans hgen.links⟩

end Sound

-- ==================================================== what stays the same

/-- The same inodes match. -/
def Agree (F : Lasting A) (db db' : Store) : Prop :=
  ∀ n, Matches F db n ↔ Matches F db' n

/-- What matched still does. -/
def Keeps (F : Lasting A) (db db' : Store) : Prop :=
  ∀ n, Matches F db n → Matches F db' n

theorem Agree.refl (F : Lasting A) (db : Store) : Agree F db db :=
  fun _ => Iff.rfl

theorem Agree.symm (h : Agree F db db') : Agree F db' db :=
  fun n => (h n).symm

theorem Agree.trans (h : Agree F db db') (h' : Agree F db' db'') :
    Agree F db db'' :=
  fun n => (h n).trans (h' n)

theorem Keeps.trans (h : Keeps F db db') (h' : Keeps F db' db'') :
    Keeps F db db'' :=
  fun n hn => h' n (h n hn)

theorem Agree.keeps (h : Agree F db db') : Keeps F db db' :=
  fun n => (h n).mp

theorem matches_congr {n : ViveInode}
    (h : db'.metaCf[inodeKey n.iNo.toNat]?
      = db.metaCf[inodeKey n.iNo.toNat]?) :
    Matches F db n ↔ Matches F db' n := by
  constructor
  · intro hn
    obtain ⟨rec, hrec, hof⟩ := hn.record
    exact ⟨hn.number, hn.extentSize, rec, h.trans hrec, hof⟩
  · intro hn
    obtain ⟨rec, hrec, hof⟩ := hn.record
    exact ⟨hn.number, hn.extentSize, rec, h.symm.trans hrec, hof⟩

theorem agree_of_records (h : ∀ m, FileNo m →
    db'.metaCf[inodeKey m]? = db.metaCf[inodeKey m]?) : Agree F db db' :=
  fun _ => ⟨fun hn => (matches_congr (h _ hn.number)).mp hn,
    fun hn => (matches_congr (h _ hn.number)).mpr hn⟩

theorem Keeps.handed (h : Keeps F db db') {n : ViveInode}
    (hn : Handed F db n) : Handed F db' n :=
  hn.imp id (h n)

/-- Records that match are still there. -/
theorem Keeps.recorded (h : Keeps F db db') (hdb : Sound codec c db)
    {m : Nat} (hm : FileNo m) (hrec : db.Recorded m) : db'.Recorded m := by
  obtain ⟨-, rec, hgen, hv⟩ := hdb.record hm hrec
  obtain ⟨rec', hrec', -⟩ := (h rec (hdb.matches_record hm hv).2).record
  rw [hgen.number] at hrec'
  exact ⟨_, hrec'⟩

-- ========================================================= fair writes

/-- A store that is as it was but for pairs that fit. -/
theorem Sound.of_frame (h : Sound codec c db) (hc : c ≤ c')
    (hhigh : c' ≤ plainNos)
    (hsuper : db'.metaCf[superblockKey]? = db.metaCf[superblockKey]?)
    (hseed : db'.metaCf[inodeSeedKey]? = some (leBytes 8 c'))
    (hrec : ∀ m, FileNo m → db.Recorded m → db'.Recorded m)
    (hmeta : ∀ key v, db'.metaCf[key]? = some v →
      (db.metaCf[key]? = some v ∧ (key = inodeSeedKey → c' = c))
        ∨ MetaPair codec c' db' key v)
    (hsingle : ∀ p a q b v, db'.metaCf[fileKey p a]? = some v →
      db'.metaCf[fileKey q b]? = some v → p = q ∧ a = b)
    (hdata : ∀ key e, db'.dataCf[key]? = some e →
      db.dataCf[key]? = some e ∨ ExtentPair db' key e) :
    Sound codec c' db' where
  superblock := hsuper.trans h.superblock
  seed := hseed
  low := Nat.le_trans h.low hc
  high := hhigh
  pairs key v hv := by
    rcases hmeta key v hv with ⟨hold, hkey⟩ | hnew
    · exact (h.pairs key v hold).mono hc hkey hrec
    · exact hnew
  single := hsingle
  extents key e he := by
    rcases hdata key e he with hold | hnew
    · obtain ⟨⟨idx, m, hm, hr, hk⟩, hvalue⟩ := h.extents key e hold
      exact ⟨⟨idx, m, hm, hrec m hm hr, hk⟩, hvalue⟩
    · exact hnew

/-- What a fair write, or a batch of them, does to a sound store. -/
structure Evolves (F : Lasting A) (codec : SuperblockCodec) (c : Nat)
    (opt : WriteOpt) (db db' : Store) : Prop where
  sound : Sound codec c db'
  agree : Agree F db db'
  names : opt = .dataOpt → ∀ p a,
    db'.metaCf[fileKey p a]? = db.metaCf[fileKey p a]?

theorem Evolves.refl {opt : WriteOpt} (h : Sound codec c db) :
    Evolves F codec c opt db db :=
  ⟨h, Agree.refl F db, fun _ _ _ => rfl⟩

theorem Evolves.trans {opt : WriteOpt} (h : Evolves F codec c opt db db')
    (h' : Evolves F codec c opt db' db'') :
    Evolves F codec c opt db db'' where
  sound := h'.sound
  agree := h.agree.trans h'.agree
  names hopt p a := (h'.names hopt p a).trans (h.names hopt p a)

section Fair

variable {opt : WriteOpt}

/-- A record written over the one that vouched for it. -/
theorem Sound.putRecord (h : Sound codec c db) {n : ViveInode}
    (hn : Handed F db n) :
    Evolves F codec c opt db
      (db.applyOp (.put .metaCf (inodeKey n.iNo.toNat) n.toBytes)) := by
  have hplain : n.iNo.toNat < plainNos := by
    rcases hn with hroot | hmatch
    · rw [hroot.1]
      decide
    · exact hmatch.number.2
  have hmeta (key : Bytes) : (db.applyOp (.put .metaCf
      (inodeKey n.iNo.toNat) n.toBytes)).metaCf[key]?
      = if inodeKey n.iNo.toNat = key then some n.toBytes
        else db.metaCf[key]? :=
    db.applyOp_meta _ key
  have hnames (p : Int) (a : FileName) : (db.applyOp (.put .metaCf
      (inodeKey n.iNo.toNat) n.toBytes)).metaCf[fileKey p a]?
      = db.metaCf[fileKey p a]? := by
    rw [hmeta, if_neg (fileKey_ne_inodeKey hplain p a).symm]
  have hagree : Agree F db (db.applyOp (.put .metaCf
      (inodeKey n.iNo.toNat) n.toBytes)) := by
    rcases hn with hroot | hmatch
    · refine agree_of_records fun m hm => ?_
      rw [hmeta, if_neg]
      intro hkey
      rw [hroot.1] at hkey
      exact hm.ne_root (inodeKey_inj_file hm (by decide) hkey.symm)
    · intro x
      obtain ⟨rec, hrec, hof⟩ := hmatch.record
      by_cases hx : x.iNo.toNat = n.iNo.toNat
      · have hnew : (db.applyOp (.put .metaCf (inodeKey n.iNo.toNat)
            n.toBytes)).metaCf[inodeKey x.iNo.toNat]? = some n.toBytes := by
          rw [hmeta, if_pos (by rw [hx])]
        constructor
        · intro hm
          obtain ⟨rec', hrec', hof'⟩ := hm.record
          rw [hx, hrec] at hrec'
          obtain rfl := ViveInode.toBytes_inj (Option.some.inj hrec')
          exact ⟨hm.number, hm.extentSize, n, hnew, hof'.trans hof.symm⟩
        · intro hm
          obtain ⟨rec', hrec', hof'⟩ := hm.record
          rw [hnew] at hrec'
          obtain rfl := ViveInode.toBytes_inj (Option.some.inj hrec')
          exact ⟨hm.number, hm.extentSize, rec, by rw [hx, hrec],
            hof'.trans hof⟩
      · refine matches_congr ?_
        rw [hmeta, if_neg]
        exact fun hkey => hx
          (inodeKey_inj_file hmatch.number x.iNo.toNat_lt hkey).symm
  refine ⟨h.of_frame (Nat.le_refl c) h.high ?_ ?_
    (fun m hm => hagree.keeps.recorded h hm) ?_ ?_ ?_, hagree,
    fun _ => hnames⟩
  · rw [hmeta, if_neg (inodeKey_ne_superblockKey _)]
  · rw [hmeta, if_neg (inodeKey_ne_inodeSeedKey _)]
    exact h.seed
  · intro key v hv
    rw [hmeta] at hv
    split at hv
    · next hkey =>
      subst hkey
      cases hv
      right
      rcases hn with hroot | hmatch
      · rw [hroot.1]
        exact .root hroot
      · obtain ⟨rec, hrec, -⟩ := hmatch.record
        exact .record hmatch.number (h.record hmatch.number ⟨_, hrec⟩).1
          (h.genuine hmatch)
    · exact Or.inl ⟨hv, fun _ => rfl⟩
  · intro p a q b v hp hq
    rw [hnames] at hp hq
    exact h.single p a q b v hp hq
  · exact fun key e he => Or.inl he

/-- An entry deleted. -/
theorem Sound.deleteEntry (h : Sound codec c db) (p : Int) (a : FileName)
    (hopt : opt = .metaOpt) :
    Evolves F codec c opt db
      (db.applyOp (.delete .metaCf (fileKey p a))) := by
  have hmeta (key : Bytes) : (db.applyOp (.delete .metaCf
      (fileKey p a))).metaCf[key]?
      = if fileKey p a = key then none else db.metaCf[key]? :=
    db.applyOp_meta _ key
  have hsub (key v : Bytes) (hv : (db.applyOp (.delete .metaCf
      (fileKey p a))).metaCf[key]? = some v) : db.metaCf[key]? = some v := by
    rw [hmeta] at hv
    split at hv
    · cases hv
    · exact hv
  have hagree : Agree F db (db.applyOp (.delete .metaCf (fileKey p a))) :=
    agree_of_records fun m hm => by
      rw [hmeta, if_neg (fileKey_ne_inodeKey hm.2 p a)]
  refine ⟨h.of_frame (Nat.le_refl c) h.high ?_ ?_
    (fun m hm => hagree.keeps.recorded h hm)
    (fun key v hv => Or.inl ⟨hsub key v hv, fun _ => rfl⟩) ?_
    (fun key e he => Or.inl he), hagree, fun hdata => ?_⟩
  · rw [hmeta, if_neg (fileKey_ne_superblockKey p a)]
  · rw [hmeta, if_neg (fileKey_ne_inodeSeedKey p a)]
    exact h.seed
  · exact fun p a q b v hp hq =>
      h.single p a q b v (hsub _ v hp) (hsub _ v hq)
  · rw [hopt] at hdata
    cases hdata

/-- A write that leaves meta_cf alone and leaves extents that fit. -/
theorem Sound.onData (h : Sound codec c db) {op : WriteOp}
    (hmeta : op.NotMeta)
    (hdata : ∀ key e, (db.applyOp op).dataCf[key]? = some e →
      db.dataCf[key]? = some e ∨ ExtentPair db key e) :
    Evolves F codec c opt db (db.applyOp op) := by
  have hsame (key : Bytes) :
      (db.applyOp op).metaCf[key]? = db.metaCf[key]? := by
    rw [Store.applyOp_meta, WriteOp.onMeta_of_notMeta hmeta]
  have hagree : Agree F db (db.applyOp op) :=
    agree_of_records fun m _ => hsame _
  have hrec : ∀ m, FileNo m → db.Recorded m → (db.applyOp op).Recorded m :=
    fun m hm => hagree.keeps.recorded h hm
  refine ⟨h.of_frame (Nat.le_refl c) h.high (hsame _)
    ((hsame _).trans h.seed) hrec
    (fun key v hv => Or.inl ⟨(hsame key).symm.trans hv, fun _ => rfl⟩)
    ?_ ?_, hagree, fun _ p a => hsame _⟩
  · intro p a q b v hp hq
    rw [hsame] at hp hq
    exact h.single p a q b v hp hq
  · intro key e he
    rcases hdata key e he with hold | ⟨⟨idx, m, hm, hr, hk⟩, hvalue⟩
    · exact Or.inl hold
    · exact Or.inr ⟨⟨idx, m, hm, hrec m hm hr, hk⟩, hvalue⟩

/-- The extent's file has its record. -/
theorem Handed.extentKey {n : ViveInode} (hn : Handed F db n)
    (hE : n.iExtentSize.toNat = vivefsExtentSize) (idx : Nat) :
    ∃ idx' m, FileNo m ∧ db.Recorded m
      ∧ vnExtentKey idx n.iNo.toNat = vnExtentKey idx' m := by
  rcases hn with hroot | hmatch
  · rw [hroot.2, extentSize_eq] at hE
    cases hE
  · obtain ⟨rec, hrec, -⟩ := hmatch.record
    exact ⟨idx, _, hmatch.number, ⟨_, hrec⟩, rfl⟩

/-- What an entry of data_cf holds, if there is one. -/
theorem Sound.holds (h : Sound codec c db) (key : Bytes) :
    ∃ data, Holds db.dataCf[key]? data := by
  cases he : db.dataCf[key]? with
  | none => exact ⟨_, holds_none⟩
  | some e => exact (h.extents key e he).value

/-- Every fair write keeps the store sound. -/
theorem Sound.fair (h : Sound codec c db) {op : WriteOp}
    (hop : op.Fair (Handed F db) opt) :
    Evolves F codec c opt db (db.applyOp op) := by
  rcases op with ⟨_ | _ | _, key, val⟩ | ⟨key, val⟩ | ⟨_ | _ | _, key⟩
  · exact h.onData (fun h => by cases h) fun _ _ he => Or.inl he
  · obtain ⟨n, hn, rfl, rfl⟩ := hop
    exact h.putRecord hn
  · obtain ⟨idx, n, b, hn, hE, rfl, rfl⟩ := hop
    refine h.onData (fun h => by cases h) fun key e he => ?_
    rw [Store.applyOp_data, WriteOp.onData] at he
    split at he
    · next hkey =>
      subst hkey
      cases he
      exact Or.inr ⟨hn.extentKey hE idx, _, holds_put b⟩
    · exact Or.inl he
  · obtain ⟨idx, n, d, hn, hE, rfl, rfl⟩ := hop
    refine h.onData trivial fun key e he => ?_
    rw [Store.applyOp_data, WriteOp.onData] at he
    split at he
    · next hkey =>
      subst hkey
      cases he
      obtain ⟨data, hdata⟩ := h.holds (vnExtentKey idx n.iNo.toNat)
      exact Or.inr ⟨hn.extentKey hE idx, _, hdata.push d⟩
    · exact Or.inl he
  · exact h.onData (fun h => by cases h) fun _ _ he => Or.inl he
  · obtain ⟨hopt, p, a, rfl⟩ := hop
    exact h.deleteEntry p a hopt
  · refine h.onData (fun h => by cases h) fun key' e he => ?_
    rw [Store.applyOp_data, WriteOp.onData] at he
    split at he
    · cases he
    · exact Or.inl he

/-- ... and so does a batch of them, each fair when the batch is made. -/
theorem Sound.fairBatch (h : Sound codec c db) {batch : List WriteOp}
    (hb : ∀ op ∈ batch, op.Fair (Handed F db) opt) :
    Evolves F codec c opt db (db.applyBatch batch) := by
  induction batch generalizing db with
  | nil => exact Evolves.refl h
  | cons op batch ih =>
      have hop := h.fair (hb op List.mem_cons_self)
      refine hop.trans (ih hop.sound fun op' hop' => ?_)
      exact (hb op' (List.mem_cons_of_mem _ hop')).mono
        fun n hn => hop.agree.keeps.handed hn

end Fair

-- =============================================================== creating

theorem vnExtentKey_number {i j m n : Nat} (hm : m < 2 ^ 64)
    (hn : n < 2 ^ 64) (h : vnExtentKey i m = vnExtentKey j n) : m = n :=
  inodeKey_inj hm hn
    (List.append_inj h (by rw [leBytes_length, leBytes_length])).2

/-- A number that no record has, no extent has. -/
theorem Sound.no_extent (h : Sound codec c db) {m : Nat} (hm : FileNo m)
    (hfree : ¬ db.Recorded m) (idx : Nat) :
    db.dataCf[vnExtentKey idx m]? = none := by
  cases he : db.dataCf[vnExtentKey idx m]? with
  | none => rfl
  | some e =>
      obtain ⟨idx', m', hm', hr, hkey⟩ := (h.extents _ e he).key
      obtain rfl := vnExtentKey_number (Nat.lt_trans hm.lt (by decide))
        (Nat.lt_trans hm'.lt (by decide)) hkey
      exact absurd hr hfree

/-- ... nor any entry. -/
theorem Sound.no_entry (h : Sound codec c db) {m : Nat} (hm : FileNo m)
    (hfree : ¬ db.Recorded m) (p : Int) (a : FileName) :
    db.metaCf[fileKey p a]? ≠ some (inodeKey m) := by
  intro hp
  obtain ⟨m', hm', hr, hkey⟩ := h.entry hp
  obtain rfl := inodeKey_inj_file hm (Nat.lt_trans hm'.lt (by decide)) hkey
  exact hfree hr

/-- The writes of a create: its name, its record and the counter. -/
theorem namingOps_meta (db : Store) (p : Int) (a : FileName) (m : Nat)
    (rec : ViveInode) (k : Nat) (key : Bytes) :
    (db.applyBatch (namingOps p a m rec
        ++ [.put .metaCf inodeSeedKey (leBytes 8 k)])).metaCf[key]?
      = if inodeSeedKey = key then some (leBytes 8 k)
        else if inodeKey m = key then some rec.toBytes
        else if fileKey p a = key then some (inodeKey m)
        else db.metaCf[key]? := by
  rw [Store.applyBatch_meta]
  rfl

/-- The records after them. -/
theorem namingOps_record (db : Store) (p : Int) (a : FileName) {m m' : Nat}
    (hm : FileNo m) (hm' : FileNo m') (rec : ViveInode) (k : Nat) :
    (db.applyBatch (namingOps p a m rec
        ++ [.put .metaCf inodeSeedKey (leBytes 8 k)])).metaCf[inodeKey m']?
      = if m = m' then some rec.toBytes else db.metaCf[inodeKey m']? := by
  rw [namingOps_meta, if_neg (inodeKey_ne_inodeSeedKey m').symm]
  by_cases hmm : m = m'
  · rw [if_pos hmm, if_pos (by rw [hmm])]
  · rw [if_neg hmm, if_neg, if_neg (fileKey_ne_inodeKey hm'.2 p a)]
    exact fun hkey => hmm
      (inodeKey_inj_file hm (Nat.lt_trans hm'.lt (by decide)) hkey)

/-- The entries after them. -/
theorem namingOps_entry (db : Store) (p : Int) (a : FileName) {m : Nat}
    (hm : FileNo m) (rec : ViveInode) (k : Nat) (q : Int) (b : FileName) :
    (db.applyBatch (namingOps p a m rec
        ++ [.put .metaCf inodeSeedKey (leBytes 8 k)])).metaCf[fileKey q b]?
      = if fileKey p a = fileKey q b then some (inodeKey m)
        else db.metaCf[fileKey q b]? := by
  rw [namingOps_meta, if_neg (fileKey_ne_inodeSeedKey q b).symm,
    if_neg (fileKey_ne_inodeKey hm.2 q b).symm]

/-- A pair of meta_cf after them is an old one or one of the three. -/
theorem namingOps_pair {p : Int} {a : FileName} {m k : Nat}
    (hm : FileNo m) {rec : ViveInode} (hgen : Genuine m rec) (hmk : m < k)
    (hdb' : db' = db.applyBatch (namingOps p a m rec
      ++ [.put .metaCf inodeSeedKey (leBytes 8 k)])) {key v : Bytes}
    (hv : db'.metaCf[key]? = some v) :
    (db.metaCf[key]? = some v ∧ key ≠ inodeSeedKey)
      ∨ MetaPair codec k db' key v := by
  have hself : db'.metaCf[inodeKey m]? = some rec.toBytes := by
    rw [hdb', namingOps_record db p a hm hm, if_pos rfl]
  rw [hdb', namingOps_meta] at hv
  split at hv
  · next hkey =>
    subst hkey
    cases hv
    exact Or.inr .seed
  · next hseed =>
    split at hv
    · next hkey =>
      subst hkey
      cases hv
      exact Or.inr (.record hm hmk hgen)
    · split at hv
      · next hkey =>
        subst hkey
        cases hv
        exact Or.inr (.entry p a hm ⟨_, hself⟩)
      · exact Or.inl ⟨hv, fun hkey => hseed hkey.symm⟩

/-- A name for a number that had none is one more, and no second one. -/
theorem Sound.single_naming (h : Sound codec c db) {m : Nat} (hm : FileNo m)
    (hfree : ¬ db.Recorded m) {p : Int} {a : FileName}
    (hname : ∀ q b, db'.metaCf[fileKey q b]?
      = if fileKey p a = fileKey q b then some (inodeKey m)
        else db.metaCf[fileKey q b]?) (q : Int) (b : FileName) (q' : Int)
    (b' : FileName) (v : Bytes) (hq : db'.metaCf[fileKey q b]? = some v)
    (hq' : db'.metaCf[fileKey q' b']? = some v) : q = q' ∧ b = b' := by
  have hunnamed := h.no_entry hm hfree
  rw [hname] at hq hq'
  split at hq
  · next hkey =>
    cases hq
    split at hq'
    · next hkey' => exact fileKey_inj (hkey.symm.trans hkey')
    · exact absurd hq' (hunnamed q' b')
  · split at hq'
    · cases hq'
      exact absurd hq (hunnamed q b)
    · exact h.single q b q' b' v hq hq'

/-- A file with a number that nothing in the store has. -/
theorem Sound.create (h : Sound codec c db) {m k : Nat} (hm : FileNo m)
    (hfree : ¬ db.Recorded m) {rec : ViveInode} (hgen : Genuine m rec)
    (hmk : m < k) (hck : c ≤ k) (hk : k ≤ plainNos) (p : Int)
    (a : FileName)
    (hdb' : db' = db.applyBatch (namingOps p a m rec
      ++ [.put .metaCf inodeSeedKey (leBytes 8 k)])) :
    Sound codec k db' ∧ Keeps F db db' ∧ Matches F db' rec
      ∧ ∀ m', FileNo m' → db'.Recorded m' → db.Recorded m' ∨ m' = m := by
  have hmeta (key : Bytes) : db'.metaCf[key]? = _ :=
    hdb' ▸ namingOps_meta db p a m rec k key
  have hrecord (m' : Nat) (hm' : FileNo m') : db'.metaCf[inodeKey m']? = _ :=
    hdb' ▸ namingOps_record db p a hm hm' rec k
  have hself : db'.metaCf[inodeKey m]? = some rec.toBytes := by
    rw [hrecord m hm, if_pos rfl]
  have hrec (m' : Nat) (hm' : FileNo m') (hr : db.Recorded m') :
      db'.Recorded m' := by
    obtain ⟨v, hv⟩ := hr
    rw [Store.Recorded, hrecord m' hm']
    split
    · exact ⟨_, rfl⟩
    · exact ⟨v, hv⟩
  refine ⟨h.of_frame hck hk ?_ ?_ hrec ?_ ?_ ?_, ?_, ?_, ?_⟩
  · rw [hmeta, if_neg superblockKey_ne_inodeSeedKey.symm,
      if_neg (inodeKey_ne_superblockKey m),
      if_neg (fileKey_ne_superblockKey p a)]
  · rw [hmeta, if_pos rfl]
  · intro key v hv
    rcases namingOps_pair hm hgen hmk hdb' hv with ⟨hold, hseed⟩ | hpair
    · exact Or.inl ⟨hold, fun hkey => absurd hkey hseed⟩
    · exact Or.inr hpair
  · exact h.single_naming hm hfree fun q b =>
      hdb' ▸ namingOps_entry db p a hm rec k q b
  · intro key e he
    rw [hdb', Store.applyBatch_data] at he
    exact Or.inl he
  · intro n hn
    refine (matches_congr ?_).mp hn
    rw [hrecord _ hn.number, if_neg]
    intro hno
    obtain ⟨rec', hrec', -⟩ := hn.record
    exact hfree ⟨_, hno ▸ hrec'⟩
  · exact ⟨hgen.number ▸ hm, hgen.extentSize, rec, hgen.number ▸ hself, rfl⟩
  · intro m' hm' hr
    obtain ⟨v, hv⟩ := hr
    rw [hrecord m' hm'] at hv
    split at hv
    · next hmm => exact Or.inr hmm.symm
    · exact Or.inl ⟨v, hv⟩

end ViveNas
