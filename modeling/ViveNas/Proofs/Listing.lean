/-
What a directory walk lists.

The walk seeks the directory's prefix in meta_cf and goes on while keys
start with it, so it meets every key with the prefix and no other
(Lib/PrefixScan.lean). It serves each by the number its value starts
with, whether the value is an entry's number or a record's first field
(`exec_iterateDir`).

# When a listing is exact

It therefore lists the directory exactly as long as no record's key
starts with the prefix (`NsRel.listsExactly_iff`): the 8 bytes of inode
24370 start with "2_", and its record shows up in the root.
-/
import ViveNas.Lib.PrefixScan
import ViveNas.Proofs.Naming

namespace ViveNas

open LittleEndian

-- ================================================================ the walk

section Walk

variable {w : World} {dir : Bytes} {bufLen : Nat}

/-- The walk turns a key and its value into an entry of the list. -/
def Served (w : World) (dir : Bytes) (bufLen : Nat) (kv : Bytes × Bytes)
    (e : Bytes × ViveInode) : Prop :=
  ∃ rec : ViveInode, loadInt64 kv.2 = .ok rec.iNo.toNat
    ∧ w.db.metaCf[inodeKey rec.iNo.toNat]? = some rec.toBytes
    ∧ e = (kv.1.drop dir.length, { rec with refCnt := 1 })
    ∧ e.1.length < bufLen

theorem Served.name_eq {kv : Bytes × Bytes} {e : Bytes × ViveInode}
    (h : Served w dir bufLen kv e) : e.1 = kv.1.drop dir.length := by
  obtain ⟨rec, -, -, rfl, -⟩ := h
  rfl

theorem Served.unique {kv : Bytes × Bytes} {e e' : Bytes × ViveInode}
    (h : Served w dir bufLen kv e) (h' : Served w dir bufLen kv e') :
    e = e' := by
  obtain ⟨rec, hnum, hrec, rfl, -⟩ := h
  obtain ⟨rec', hnum', hrec', rfl, -⟩ := h'
  rw [Except.ok.inj (hnum.symm.trans hnum'), hrec'] at hrec
  rw [ViveInode.toBytes_inj (Option.some.inj hrec)]

/-- The same of a store with anything in it: the value holds a number, and
under that number there is a value to be taken for its inode. -/
def Walked (w : World) (dir : Bytes) (bufLen : Nat) (kv : Bytes × Bytes)
    (e : Bytes × ViveInode) : Prop :=
  ∃ n u, loadInt64 kv.2 = .ok n ∧ w.db.metaCf[inodeKey n]? = some u
    ∧ deserializeInode u = .ok e.2 ∧ e.2.iNo.toNat = n
    ∧ e.1 = kv.1.drop dir.length ∧ e.1.length < bufLen

theorem Served.walked {kv : Bytes × Bytes} {e : Bytes × ViveInode}
    (h : Served w dir bufLen kv e) : Walked w dir bufLen kv e := by
  obtain ⟨rec, hnum, hrec, rfl, hlen⟩ := h
  exact ⟨_, _, hnum, hrec, deserializeInode_toBytes rec, rfl, rfl, hlen⟩

theorem exec_vnBeginIterateDir (d : Int) : (vnBeginIterateDir d).exec w
    = .ok (⟨w.db.metaCf.seek (dirPrefix d), dirPrefix d⟩, w) := by
  rw [vnBeginIterateDir, exec_bind_ok (exec_seekMeta _)]
  rfl

/-- The keys a walk meets. -/
theorem mem_walk_iff {w : World} {d : Int} {kv : Bytes × Bytes} :
    kv ∈ (w.db.metaCf.toList.filter fun kv => (dirPrefix d).isPrefixOf kv.1)
      ↔ w.db.metaCf[kv.1]? = some kv.2 ∧ dirPrefix d <+: kv.1 := by
  rw [List.mem_filter, Std.ExtTreeMap.mem_toList_iff_getElem?_eq_some,
    List.isPrefixOf_iff_prefix]

/-- One turn of the walk. -/
theorem exec_vnNextInode (h : Calm w) {k v : Bytes}
    {itor : List (Bytes × Bytes)} {name : Bytes} {inode : ViveInode}
    (hpre : dir.isPrefixOf k = true)
    (hwalked : Walked w dir bufLen (k, v) (name, inode)) :
    (vnNextInode ⟨(k, v) :: itor, dir⟩ bufLen).exec w
      = .ok ((some (inode, name), ⟨itor, dir⟩), w) := by
  obtain ⟨n, u, hnum, hrec, hinode, hno, hname, hlen⟩ := hwalked
  cases hname
  rw [vnNextInode]
  dsimp only
  rw [if_pos hpre, exec_bind_ok (exec_lift_ok hnum),
    exec_bind_ok (exec_getMeta h _), hrec]
  refine (exec_bind_ok (exec_lift_ok hinode)).trans ?_
  rw [if_neg (not_not.mpr hno), if_neg (Nat.not_le.mpr hlen)]
  rfl

/-- A walk whose keys can all be served lists them in order, given the
turns for it. -/
theorem exec_iterateDir (h : Calm w) {fuel : Nat}
    {itor : List (Bytes × Bytes)} {es : List (Bytes × ViveInode)}
    (hserved : List.Forall₂ (Walked w dir bufLen)
      (itor.takeWhile fun kv => dir.isPrefixOf kv.1) es) :
    (iterateDir bufLen fuel ⟨itor, dir⟩).exec w
      = if es.length < fuel then .ok (es, w) else .error .diverged := by
  induction fuel generalizing itor es with
  | zero => rw [if_neg (Nat.not_lt_zero _)]; rfl
  | succ fuel ih =>
      cases itor with
      | nil =>
          cases hserved
          rfl
      | cons kv itor =>
          obtain ⟨k, v⟩ := kv
          have hnext : vnIteratorHasNext ⟨(k, v) :: itor, dir⟩
              = dir.isPrefixOf k := rfl
          rw [List.takeWhile_cons] at hserved
          rw [iterateDir, hnext]
          cases hpre : dir.isPrefixOf k with
          | false =>
              rw [hpre, if_neg Bool.false_ne_true] at hserved
              cases hserved
              rfl
          | true =>
              rw [hpre, if_pos rfl] at hserved
              obtain ⟨⟨name, inode⟩, es, hfirst, hrest, rfl⟩ :=
                List.forall₂_cons_left_iff.mp hserved
              rw [if_pos rfl, exec_bind_ok (exec_vnNextInode h hpre hfirst)]
              have hloop := ih hrest
              dsimp only
              by_cases hlt : es.length < fuel
              · rw [if_pos hlt] at hloop
                rw [exec_bind_ok hloop, if_pos (by rw [List.length_cons]; omega)]
                rfl
              · rw [if_neg hlt] at hloop
                rw [exec_bind_error hloop,
                  if_neg (by rw [List.length_cons]; omega)]

end Walk

-- ========================================================= exact listings

/-- A caller's walk of a directory ends, with this list. -/
def Lists (w : World) (d : Int) (bufLen : Nat)
    (es : List (Bytes × ViveInode)) : Prop :=
  ∃ fuel, (vnBeginIterateDir d >>= iterateDir bufLen fuel).exec w
    = .ok (es, w)

/-- With room for every name, the walk lists the directory's entries, each
once, with their inodes, and nothing else. -/
def ListsExactly (w : World) (d : Int) : Prop :=
  ∀ bufLen, (∀ (a : FileName) v, w.db.metaCf[fileKey d a]? = some v →
      a.val.length < bufLen) →
    ∃ es, Lists w d bufLen es ∧ (es.map Prod.fst).Nodup
      ∧ ∀ name inode, (name, inode) ∈ es ↔
        ∃ (a : FileName) (n : Nat) (rec : ViveInode), name = a.val
          ∧ w.db.metaCf[fileKey d a]? = some (leBytes 8 n)
          ∧ w.db.metaCf[inodeKey n]? = some rec.toBytes
          ∧ inode = { rec with refCnt := 1 }

/-- No record's key starts with the directory's prefix. -/
def NoRecordUnder (db : Store) (d : Int) : Prop :=
  ∀ n v, n < 2 ^ 64 → Apart n → db.metaCf[inodeKey n]? = some v →
    ¬ dirPrefix d <+: inodeKey n

theorem dirPrefix_head (d : Int) : ∃ b rest, dirPrefix d = b :: rest
    ∧ (b.toNat = 45 ∨ 48 ≤ b.toNat ∧ b.toNat ≤ 57) := by
  have hhead := fileKey_head (p := d) (n := ⟨[], List.not_mem_nil⟩)
  rwa [fileKey, List.append_nil] at hhead

/-- The two fixed keys start with neither a digit nor a sign. -/
theorem not_dirPrefix_superblockKey (d : Int) :
    ¬ dirPrefix d <+: superblockKey := by
  obtain ⟨b, rest, hd, hb⟩ := dirPrefix_head d
  rintro ⟨tail, htail⟩
  rw [hd, List.cons_append] at htail
  have hhead : b = 118 := (List.cons.inj htail).1
  subst hhead
  simp at hb

theorem not_dirPrefix_inodeSeedKey (d : Int) :
    ¬ dirPrefix d <+: inodeSeedKey := by
  obtain ⟨b, rest, hd, hb⟩ := dirPrefix_head d
  rintro ⟨tail, htail⟩
  rw [hd, List.cons_append] at htail
  have hhead : b = 95 := (List.cons.inj htail).1
  subst hhead
  simp at hb

/-- A table's contents have no repetitions. -/
theorem nodup_toList_filter (t : Table Bytes Bytes)
    (q : Bytes × Bytes → Bool) : (t.toList.filter q).Nodup := by
  refine List.Nodup.filter q ?_
  refine Std.ExtTreeMap.distinct_keys_toList.imp ?_
  rintro kv _ hne rfl
  exact hne Std.ReflOrd.compare_self

/-- The keys of a store have a bounded length. -/
theorem exists_room (db : Store) (d : Int) : ∃ bufLen, ∀ (k : Bytes) v,
    db.metaCf[k]? = some v → dirPrefix d <+: k →
    (k.drop (dirPrefix d).length).length < bufLen := by
  refine ⟨(db.metaCf.toList.map fun kv => kv.1.length).sum + 1,
    fun k v hv _ => ?_⟩
  have hmem := Std.ExtTreeMap.mem_toList_iff_getElem?_eq_some.mpr hv
  have hle := List.le_sum_of_mem
    (List.mem_map_of_mem (f := fun kv : Bytes × Bytes => kv.1.length) hmem)
  dsimp only at hle
  rw [List.length_drop]
  omega

section Exact

variable {codec : SuperblockCodec} {s : Sys} {N : Namespace}

/-- The walk's list, from the keys with the prefix. -/
theorem lists_iff {w : World} (h : Calm w) {d : Int} {bufLen : Nat}
    {es : List (Bytes × ViveInode)}
    (hserved : List.Forall₂ (Walked w (dirPrefix d) bufLen)
      (w.db.metaCf.toList.filter fun kv => (dirPrefix d).isPrefixOf kv.1) es)
    {es' : List (Bytes × ViveInode)} : Lists w d bufLen es' ↔ es' = es := by
  rw [← PrefixScan.seek_takeWhile] at hserved
  have hloop (fuel : Nat) : (vnBeginIterateDir d >>= iterateDir bufLen
      fuel).exec w
        = if es.length < fuel then .ok (es, w) else .error .diverged := by
    rw [exec_bind_ok (exec_vnBeginIterateDir d), exec_iterateDir h hserved]
  constructor
  · rintro ⟨fuel, hx⟩
    rw [hloop] at hx
    split at hx
    · cases hx
      rfl
    · cases hx
  · rintro rfl
    exact ⟨es'.length + 1, by rw [hloop, if_pos (Nat.lt_succ_self _)]⟩

namespace NsRel

variable (rel : NsRel codec s N)
include rel

/-- Every key with the prefix is an entry of the directory or a record's,
and is served by its record. -/
theorem served {d : Int} (kv : Bytes × Bytes) {bufLen : Nat}
    (hkv : s.world.db.metaCf[kv.1]? = some kv.2)
    (hpre : dirPrefix d <+: kv.1)
    (hlen : (kv.1.drop (dirPrefix d).length).length < bufLen) :
    ∃ e, Served s.world (dirPrefix d) bufLen kv e := by
  obtain ⟨k, v⟩ := kv
  rcases rel.keys k v hkv with rfl | rfl | ⟨p, a, rfl⟩ | ⟨n, hn, hap, rfl⟩
  · exact absurd hpre (not_dirPrefix_superblockKey d)
  · exact absurd hpre (not_dirPrefix_inodeSeedKey d)
  · obtain ⟨n, hfind, rfl, hnum⟩ := rel.found hkv
    obtain ⟨rec, hrec, hno, -⟩ := rel.mapped_record hfind
    refine ⟨_, rec, ?_, hno ▸ hrec, rfl, hlen⟩
    rw [hno, loadInt64_ok (by rw [inodeKey_length]), hnum]
  · obtain ⟨rec, rfl, hown⟩ := rel.records n v hn hap hkv
    refine ⟨_, rec, ?_, hown.number.symm ▸ hkv, rfl, hlen⟩
    rw [loadInt64_ok (by rw [rec.toBytes_length]; decide),
      rec.leNat_take_toBytes]

/-- The list of a walk with room for every key it meets. -/
theorem exists_lists {d : Int} {bufLen : Nat}
    (hroom : ∀ k v, s.world.db.metaCf[k]? = some v → dirPrefix d <+: k →
      (k.drop (dirPrefix d).length).length < bufLen) :
    ∃ es, (∀ es', Lists s.world d bufLen es' ↔ es' = es)
      ∧ (es.map Prod.fst).Nodup
      ∧ ∀ e, e ∈ es ↔ ∃ kv : Bytes × Bytes,
        s.world.db.metaCf[kv.1]? = some kv.2 ∧ dirPrefix d <+: kv.1
        ∧ Served s.world (dirPrefix d) bufLen kv e := by
  let l := s.world.db.metaCf.toList.filter fun kv =>
    (dirPrefix d).isPrefixOf kv.1
  have hl : ∀ kv, kv ∈ l ↔ s.world.db.metaCf[kv.1]? = some kv.2
      ∧ dirPrefix d <+: kv.1 := fun kv => mem_walk_iff
  have hall : ∀ kv ∈ l, ∃ e, Served s.world (dirPrefix d) bufLen kv e := by
    intro kv hkv
    obtain ⟨hget, hpre⟩ := (hl kv).mp hkv
    exact rel.served kv hget hpre (hroom _ _ hget hpre)
  have : Nonempty (Bytes × ViveInode) := ⟨[], vnAllocInode⟩
  choose! serve hserve using hall
  refine ⟨l.map serve, fun es' => lists_iff rel.base.calm ?_, ?_, ?_⟩
  · exact List.forall₂_map_right_iff.mpr
      (List.forall₂_same.mpr fun kv hkv => (hserve kv hkv).walked)
  · rw [List.map_map]
    refine List.Nodup.map_on (fun kv hkv kv' hkv' hname => ?_)
      (nodup_toList_filter _ _)
    -- the same rest after the same prefix is the same key
    obtain ⟨hget, rest, hrest⟩ := (hl kv).mp hkv
    obtain ⟨hget', rest', hrest'⟩ := (hl kv').mp hkv'
    rw [Function.comp_apply, Function.comp_apply, (hserve kv hkv).name_eq,
      (hserve kv' hkv').name_eq, ← hrest, ← hrest', List.drop_left,
      List.drop_left] at hname
    have hkey : kv.1 = kv'.1 := by rw [← hrest, ← hrest', hname]
    rw [hkey, hget'] at hget
    exact Prod.ext hkey (Option.some.inj hget).symm
  · intro e
    rw [List.mem_map]
    constructor
    · rintro ⟨kv, hkv, rfl⟩
      obtain ⟨hget, hpre⟩ := (hl kv).mp hkv
      exact ⟨kv, hget, hpre, hserve kv hkv⟩
    · rintro ⟨kv, hget, hpre, he⟩
      have hkv := (hl kv).mpr ⟨hget, hpre⟩
      exact ⟨kv, hkv, (hserve kv hkv).unique he⟩

/-- Where no record's key starts with the prefix, the walk lists the
directory. -/
theorem listsExactly {d : Int} (hclear : NoRecordUnder s.world.db d) :
    ListsExactly s.world d := by
  intro bufLen hroom
  -- a key with the prefix is an entry of the directory
  have hentry : ∀ k v, s.world.db.metaCf[k]? = some v → dirPrefix d <+: k →
      ∃ a, k = fileKey d a := by
    intro k v hv hpre
    rcases rel.keys k v hv with rfl | rfl | ⟨p, a, rfl⟩ | ⟨n, hn, hap, rfl⟩
    · exact absurd hpre (not_dirPrefix_superblockKey d)
    · exact absurd hpre (not_dirPrefix_inodeSeedKey d)
    · exact ⟨a, by rw [dirPrefix_prefix_iff.mp hpre]⟩
    · exact absurd hpre (hclear n v hn hap hv)
  have hfits : ∀ k v, s.world.db.metaCf[k]? = some v → dirPrefix d <+: k →
      (k.drop (dirPrefix d).length).length < bufLen := by
    intro k v hv hpre
    obtain ⟨a, rfl⟩ := hentry k v hv hpre
    rw [fileKey, List.drop_left]
    exact hroom a v hv
  obtain ⟨es, hes, hnodup, hmem⟩ := rel.exists_lists hfits
  refine ⟨es, (hes es).mpr rfl, hnodup, fun name inode => ?_⟩
  rw [hmem]
  constructor
  · rintro ⟨⟨k, v⟩, hv, hpre, rec, hnum, hrec, he, -⟩
    obtain ⟨a, rfl⟩ := hentry k v hv hpre
    obtain ⟨n, -, rfl, hn⟩ := rel.found hv
    rw [loadInt64_ok (by rw [inodeKey_length]), hn] at hnum
    cases he
    exact ⟨a, _, rec, by rw [fileKey, List.drop_left], hv,
      (Except.ok.inj hnum).symm ▸ hrec, rfl⟩
  · rintro ⟨a, n, rec, rfl, hv, hrec, rfl⟩
    obtain ⟨m, hm, hnm, hnum⟩ := rel.found hv
    obtain ⟨rec', hrec', hno, -⟩ := rel.mapped_record hm
    rw [inodeKey, hnm, hrec'] at hrec
    obtain rfl := ViveInode.toBytes_inj (Option.some.inj hrec)
    refine ⟨(fileKey d a, leBytes 8 n), hv, List.prefix_append _ _, rec', ?_,
      hno ▸ hrec', ?_, hroom a _ hv⟩
    · rw [hno, loadInt64_ok (by rw [leBytes_length]), hnum]
    · rw [fileKey, List.drop_left]

/-- The walk lists the directory exactly where no record's key starts with
its prefix. -/
theorem listsExactly_iff {d : Int} :
    ListsExactly s.world d ↔ NoRecordUnder s.world.db d := by
  refine ⟨fun hexact n v hn hap hv hpre => ?_, rel.listsExactly⟩
  obtain ⟨bufLen, hfits⟩ := exists_room s.world.db d
  obtain ⟨es, hes, -, hmem⟩ := rel.exists_lists hfits
  obtain ⟨es', hlists, -, hmem'⟩ := hexact bufLen fun a u hu => by
    have hlt := hfits _ u hu (List.prefix_append _ _)
    rwa [fileKey, List.drop_left] at hlt
  obtain rfl := (hes es').mp hlists
  -- the record is listed, under a name that is none
  obtain ⟨⟨name, inode⟩, hserved⟩ := rel.served (inodeKey n, v) hv hpre
    (hfits _ _ hv hpre)
  obtain ⟨a, -, -, hname, -⟩ :=
    (hmem' name inode).mp ((hmem _).mpr ⟨_, hv, hpre, hserved⟩)
  obtain ⟨rest, hrest⟩ := hpre
  refine hap d a ?_
  have heq := hserved.name_eq
  dsimp only at heq
  rw [← hrest, List.drop_left] at heq
  rw [fileKey, ← hname, heq, hrest]

end NsRel

end Exact

-- =================================================================== runs

/-- A create or an unlink, and mounting around them. -/
def Call.Naming : Call → Prop
  | .create .. | .unlink .. | .mount _ | .umount => True
  | _ => False

/-- The number's key starts with no directory's prefix. -/
def Clear (n : Nat) : Prop := ∀ d, ¬ dirPrefix d <+: inodeKey n

theorem Clear.apart {n : Nat} (h : Clear n) : Apart n :=
  fun p _ heq => h p (heq ▸ List.prefix_append _ _)

/-- Only clear numbers are drawn. -/
def DrawsClear (s : Sys) (call : Call) : Prop :=
  call.Naming ∧ (s.draws call = true → Clear s.world.inodeSeed)

section Runs

variable {codec : SuperblockCodec} {s s' : Sys} {N : Namespace}
  {call : Call} {r : Int} {tr : List Event}

theorem Call.Naming.plain (h : call.Naming) : call.Plain := by
  cases call <;> first | exact trivial | exact h

/-- A step that draws a clear number adds no record under a directory. -/
theorem noRecordUnder_step (rel : NsRel codec s N)
    (hclear : ∀ d, NoRecordUnder s.world.db d) (hcall : DrawsClear s call)
    (heff : Effect s call r s') : ∀ d, NoRecordUnder s'.world.db d := by
  cases heff with
  | createTaken => exact hclear
  | @createFresh _ addr p a mode uid gid hm hfree hseed hkey =>
      intro d n v hn hap hv hpre
      have hv' : (s.world.db.applyBatch (createOps p a s.world.inodeSeed
          (newInode s.world.inodeSeed mode uid gid
            s.world.clock))).metaCf[inodeKey n]? = some v := by
        cases addr <;> exact hv
      rw [createOps_meta, if_neg (inodeKey_ne_inodeSeedKey n).symm] at hv'
      split at hv'
      · next hsame => exact hcall.2 rfl d (hsame ▸ hpre)
      · rw [if_neg (hap p a)] at hv'
        exact hclear d n v hn hap hv' hpre
  | unlinkNone => exact hclear
  | unlinkLast hkey hrec hlinks hcount =>
      intro d n v hn hap hv
      have hv' := (unlinkOps_meta s.world.db _ _ _ _ (inodeKey n)).symm.trans hv
      split at hv'
      · cases hv'
      · exact hclear d n v hn hap hv'
  | unlinkMore hkey hrec hlinks =>
      obtain ⟨ino, hino, rfl, -⟩ := rel.found hkey
      obtain ⟨rec, hrec', -, hone, -⟩ := rel.mapped_record hino
      cases ViveInode.toBytes_inj (Option.some.inj (hrec.symm.trans hrec'))
      exact absurd hone hlinks
  | umounted | mounted => exact hclear
  | wrote hwrites =>
      cases call <;> first | exact hcall.1.elim | cases hwrites
  | _ => exact hcall.1.elim

/-- What a run that draws only clear numbers keeps. -/
theorem run_noRecordUnder (hrun : SysRun codec DrawsClear tr s) :
    ∃ N, NsRel codec s N ∧ ∀ d, NoRecordUnder s.world.db d := by
  refine hrun.invariant (I := fun _ s => ∃ N, NsRel codec s N
    ∧ ∀ d, NoRecordUnder s.world.db d) (fun s h => ?_) ?_
  · refine ⟨_, h.nsRel, fun d n v hn hap hv => ?_⟩
    obtain ⟨rec, rfl, -⟩ := h.nsRel.records n v hn hap hv
    rw [h.world_eq.1, formattedStore_meta,
      if_neg (inodeKey_ne_inodeSeedKey n).symm,
      if_neg (inodeKey_ne_superblockKey n).symm] at hv
    cases hv
  · rintro tr s e s' ⟨N, rel, hclear⟩ (⟨clock⟩ | ⟨hcall, hstep⟩)
    · exact ⟨N, rel.quiet (rel.base.withWorld rel.base.calm rel.base.shape
        rel.base.seed rel.base.counter) rfl rel.memory, hclear⟩
    · have hplain := hcall.1.plain
      have heff := step_effect rel.base hplain.admissible hstep
      obtain ⟨N', -, rel'⟩ := heff.simulated rel hplain.admissible
        (hplain.faithful (s := s)).2 fun hdraws => (hcall.2 hdraws).apart
      exact ⟨N', rel', noRecordUnder_step rel hclear hcall heff⟩

/-- A run of creates and unlinks that draws fewer than 2^56 numbers. -/
theorem run_naming_nsRel (hrun : SysRun codec (fun _ c => c.Naming) tr s)
    (hcount : tr.countP Event.drew < 2 ^ 56) : ∃ N, NsRel codec s N := by
  have hfaithful : SysRun codec Faithful tr s :=
    hrun.mono (P := fun _ => True) (fun _ _ _ => trivial)
      (fun tr s e s' _ _ hstep => by
        obtain ⟨clock⟩ | ⟨hcall, hstep⟩ := hstep
        · exact .tick clock
        · exact .call hcall.plain.faithful hstep) trivial
  obtain ⟨N, -, rel⟩ := run_nsRel (run_nameable hfaithful hcount)
  exact ⟨N, rel⟩

end Runs

/-- As long as creates draw only numbers whose 8 bytes start with no
directory's prefix, every directory is listed exactly. And whatever the
first 2^56 numbers are, a directory is listed exactly just where no record's
key starts with its prefix. -/
theorem listing_exact_of_clear (codec : SuperblockCodec) :
    (∀ tr s, SysRun codec DrawsClear tr s → ∀ d, ListsExactly s.world d)
    ∧ ∀ tr s, SysRun codec (fun _ c => c.Naming) tr s →
      tr.countP Event.drew < 2 ^ 56 →
      ∀ d, ListsExactly s.world d ↔ NoRecordUnder s.world.db d := by
  constructor
  · intro tr s hrun d
    obtain ⟨N, rel, hclear⟩ := run_noRecordUnder hrun
    exact rel.listsExactly (hclear d)
  · intro tr s hrun hcount d
    obtain ⟨N, rel⟩ := run_naming_nsRel hrun hcount
    exact rel.listsExactly_iff

/-- A number whose lowest byte is no digit and no sign is clear. -/
theorem clear_of_head {n : Nat} (hsign : (UInt8.ofNat n).toNat ≠ 45)
    (hdigit : (UInt8.ofNat n).toNat < 48 ∨ 57 < (UInt8.ofNat n).toNat) :
    Clear n := by
  rintro d ⟨tail, htail⟩
  obtain ⟨b, rest, hd, hb⟩ := dirPrefix_head d
  rw [hd, List.cons_append, inodeKey, leBytes] at htail
  have hhead := (List.cons.inj htail).1
  subst hhead
  omega

/-- A run that makes one file. -/
theorem run_oneFile_clear :
    ∃ tr, SysRun plainCodec DrawsClear tr (oneFileSys plainCodec 0 0) := by
  have hmount : SysRun plainCodec DrawsClear [.call (.mount 0) 0 false]
      (mountedSys plainCodec 0 0) :=
    run_mountedSys 0 fun _ => ⟨trivial, fun h => by cases h⟩
  have hcreate : DrawsClear (mountedSys plainCodec 0 0)
      (.create none vnRootIno nameA 0 0 0) :=
    ⟨trivial, fun _ => clear_of_head (by decide) (by decide)⟩
  exact ⟨_, .step hmount (.call hcreate (step_create_first 0 0 rfl))⟩

/-- The root of a file system with one file lists that file. -/
theorem listing_exact_oneFile :
    ListsExactly (oneFileSys plainCodec 0 0).world vnRootIno := by
  obtain ⟨tr, hrun⟩ := run_oneFile_clear
  exact (listing_exact_of_clear plainCodec).1 tr _ hrun vnRootIno

-- ------------------------------------------------- a record in the root

/-- The name of file `i`: its number in decimal. -/
def numbered (i : Nat) : FileName :=
  ⟨formatNat i, fun h => absurd (mem_formatNat h).1 (by decide)⟩

theorem numbered_inj {i j : Nat} (h : numbered i = numbered j) : i = j :=
  formatNat_inj (congrArg Subtype.val h)

/-- The state after `k` creates in directory 5: each has a record, and the
names still to come are free. -/
structure Filled (k : Nat) (s : Sys) : Prop where
  mounted : s.mounted = true
  calm : Calm s.world
  seed : s.world.inodeSeed = vnFirstUserIno + k
  records : ∀ i < k, ∃ v,
    s.world.db.metaCf[inodeKey (vnFirstUserIno + i)]? = some v
  free : ∀ i, k ≤ i → s.world.db.metaCf[fileKey 5 (numbered i)]? = none

/-- One more create. -/
theorem Filled.step {codec : SuperblockCodec} {k : Nat} {s : Sys}
    (h : Filled k s) (hk : k < 2 ^ 56) :
    ∃ s', s.step codec (.create none 5 (numbered k) 0 0 0)
        = .ok ((vnFirstUserIno + k : Nat), s') ∧ Filled (k + 1) s' := by
  have hfirst : vnFirstUserIno = 12 := rfl
  have hseed := h.seed
  have hcreate := exec_vnCreateFile_fresh h.calm (by omega) 0 0 0
    (h.free k (Nat.le_refl k))
  refine ⟨{ s with
    world := s.world.drawn.committed .metaOpt (createOps 5 (numbered k)
      s.world.inodeSeed (newInode s.world.inodeSeed 0 0 0 s.world.clock)) },
    ?_, ?_⟩
  · rw [step_of_mounted h.mounted, Sys.stepMounted,
      if_pos (show s.freeAddr none = true from rfl), hcreate, ← h.seed]
    rfl
  · have hmeta := createOps_meta s.world.db 5 (numbered k) s.world.inodeSeed
      (newInode s.world.inodeSeed 0 0 0 s.world.clock)
    refine ⟨h.mounted, h.calm, ?_, fun i hi => ?_, fun i hi => ?_⟩
    · show s.world.inodeSeed + 1 = _
      omega
    · show ∃ v, (Store.applyBatch _ (createOps ..)).metaCf[_]? = some v
      rw [drawn_db, hmeta, if_neg (inodeKey_ne_inodeSeedKey _).symm]
      split
      · exact ⟨_, rfl⟩
      · next hne =>
        split
        · exact ⟨_, rfl⟩
        · refine h.records i ?_
          have : i ≠ k := by
            rintro rfl
            exact hne (by rw [h.seed])
          omega
    · show (Store.applyBatch _ (createOps ..)).metaCf[_]? = none
      rw [drawn_db, hmeta, if_neg (fileKey_ne_inodeSeedKey _ _).symm,
        if_neg (fileKey_ne_inodeKey (by omega) _ _).symm, if_neg,
        h.free i (by omega)]
      intro hsame
      have := numbered_inj (fileKey_inj hsame).2
      omega

/-- The call returned no error. -/
def Event.Succeeded : Event → Prop
  | .tick => True
  | .call _ r _ => 0 ≤ r

/-- `k` creates in a row, all successful. -/
theorem run_filled (codec : SuperblockCodec) {k : Nat} (hk : k ≤ 2 ^ 56) :
    ∃ tr s, SysRun codec (fun _ c => c.Naming) tr s ∧ Filled k s
      ∧ tr.countP Event.drew = k ∧ ∀ e ∈ tr, e.Succeeded := by
  induction k with
  | zero =>
      refine ⟨_, mountedSys codec 0 0, run_mountedSys 0 fun _ => trivial,
        ⟨rfl, rfl, rfl, fun i hi => absurd hi (Nat.not_lt_zero i),
          fun i _ => ?_⟩, rfl, fun e he => ?_⟩
      · rw [mountedSys_db, formattedStore_meta,
          if_neg (fileKey_ne_inodeSeedKey _ _).symm,
          if_neg (fileKey_ne_superblockKey _ _).symm]
      · rw [List.mem_singleton.mp he]
        exact Int.le_refl 0
  | succ k ih =>
      obtain ⟨tr, s, hrun, hfilled, hcount, hdone⟩ := ih (by omega)
      obtain ⟨s', hstep, hfilled'⟩ := hfilled.step (by omega)
      have hnaming : Call.Naming (.create none 5 (numbered k) 0 0 0) := trivial
      refine ⟨_, s', .step hrun (.call hnaming hstep), hfilled', ?_,
        fun e he => ?_⟩
      · rw [List.countP_cons, hcount]
        rfl
      · rcases List.mem_cons.mp he with rfl | he
        · exact Int.natCast_nonneg _
        · exact hdone e he

/-- After 24359 creates in directory 5 the root, which is empty, lists
something: the 8 bytes of inode 24370 start with "2_". -/
theorem listing_shows_record :
    ∃ tr s, SysRun plainCodec (fun _ c => c.Naming) tr s
      ∧ (∀ e ∈ tr, e.Succeeded) ∧ ¬ ListsExactly s.world vnRootIno := by
  obtain ⟨tr, s, hrun, hfilled, hcount, hdone⟩ := run_filled plainCodec
    (k := 24359) (by decide)
  obtain ⟨N, rel⟩ := run_naming_nsRel hrun (by rw [hcount]; decide)
  refine ⟨tr, s, hrun, hdone, fun hexact => ?_⟩
  obtain ⟨v, hv⟩ := hfilled.records 24358 (by decide)
  exact rel.listsExactly_iff.mp hexact (vnFirstUserIno + 24358) v (by decide)
    (apart_of_lt (by decide)) hv ⟨List.replicate 6 0, by decide⟩

end ViveNas
