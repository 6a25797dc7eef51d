/-
When a directory walk ends.

Every exit of `vn_next_inode` but one moves the cursor or stops the
program. The exit for a lost inode returns NULL with the cursor where it
was, while `vn_iterator_has_next` looks at the cursor alone: the caller's
loop then asks for the same entry for ever (`exec_iterateDir_lost`). A
walk ends, and has then returned every entry, exactly when each key it
meets can be served (`iteration_ends_iff`).
-/
import ViveNas.Proofs.Listing

namespace ViveNas

open LittleEndian

section Walk

variable {w : World} {dir : Bytes} {bufLen : Nat}

/-- An entry whose record is missing leaves the cursor where it is. -/
theorem exec_vnNextInode_lost (h : Calm w) {k v : Bytes} {n : Nat}
    {itor : List (Bytes × Bytes)} (hpre : dir.isPrefixOf k = true)
    (hnum : loadInt64 v = .ok n) (hlost : w.db.metaCf[inodeKey n]? = none) :
    (vnNextInode ⟨(k, v) :: itor, dir⟩ bufLen).exec w
      = .ok ((none, ⟨(k, v) :: itor, dir⟩), w) := by
  rw [vnNextInode]
  dsimp only
  rw [if_pos hpre, exec_bind_ok (exec_lift_ok hnum),
    exec_bind_ok (exec_getMeta h _), hlost]
  rfl

/-- At such an entry no number of turns is enough. -/
theorem exec_iterateDir_lost (h : Calm w) {k v : Bytes} {n : Nat}
    {itor : List (Bytes × Bytes)} (hpre : dir.isPrefixOf k = true)
    (hnum : loadInt64 v = .ok n) (hlost : w.db.metaCf[inodeKey n]? = none)
    (fuel : Nat) :
    (iterateDir bufLen fuel ⟨(k, v) :: itor, dir⟩).exec w
      = .error .diverged := by
  induction fuel with
  | zero => rfl
  | succ fuel ih =>
      have hnext : vnIteratorHasNext ⟨(k, v) :: itor, dir⟩ = true := hpre
      rw [iterateDir, if_pos hnext,
        exec_bind_ok (exec_vnNextInode_lost h hpre hnum hlost)]
      exact exec_bind_error ih

/-- What a turn that returns has done: served the entry under the cursor
and moved on, or found its record missing and stayed. -/
theorem vnNextInode_returns (h : Calm w) {k v : Bytes}
    {itor : List (Bytes × Bytes)} (hpre : dir.isPrefixOf k = true)
    {r : Option (ViveInode × Bytes)} {it' : VnInodeIterator} {w' : World}
    (hx : (vnNextInode ⟨(k, v) :: itor, dir⟩ bufLen).exec w
      = .ok ((r, it'), w')) :
    w' = w ∧ ((∃ e, Walked w dir bufLen (k, v) e ∧ it' = ⟨itor, dir⟩)
      ∨ it' = ⟨(k, v) :: itor, dir⟩) := by
  rw [vnNextInode] at hx
  dsimp only at hx
  rw [if_pos hpre] at hx
  cases hnum : loadInt64 v with
  | error e =>
      rw [exec_bind_error (exec_lift_error hnum)] at hx
      cases hx
  | ok n =>
      rw [exec_bind_ok (exec_lift_ok hnum),
        exec_bind_ok (exec_getMeta h _)] at hx
      cases hrec : w.db.metaCf[inodeKey n]? with
      | none =>
          rw [hrec] at hx
          cases hx
          exact ⟨rfl, Or.inr rfl⟩
      | some u =>
          rw [hrec] at hx
          cases hinode : deserializeInode u with
          | error e =>
              cases (exec_bind_error (exec_lift_error hinode)).symm.trans hx
          | ok inode =>
              replace hx := (exec_bind_ok (exec_lift_ok hinode)).symm.trans hx
              split at hx
              case isTrue => cases hx
              case isFalse hno =>
                split at hx
                case isTrue => cases hx
                case isFalse hlen =>
                  cases hx
                  exact ⟨rfl, Or.inl ⟨(k.drop dir.length, inode), ⟨n, u,
                    hnum, hrec, hinode, not_not.mp hno, rfl,
                    Nat.not_le.mp hlen⟩, rfl⟩⟩

/-- A walk that ends has served every key it met. -/
theorem walked_of_iterateDir (h : Calm w) {fuel : Nat}
    {itor : List (Bytes × Bytes)} {es : List (Bytes × ViveInode)} {w' : World}
    (hx : (iterateDir bufLen fuel ⟨itor, dir⟩).exec w = .ok (es, w')) :
    ∀ kv ∈ itor.takeWhile fun kv => dir.isPrefixOf kv.1,
      ∃ e, Walked w dir bufLen kv e := by
  -- on the turns left: a turn that stays leaves one less to serve the same
  induction fuel generalizing itor es w' with
  | zero => cases hx
  | succ fuel ih =>
      cases itor with
      | nil => exact fun kv hkv => by cases hkv
      | cons kv itor =>
          obtain ⟨k, v⟩ := kv
          rw [List.takeWhile_cons]
          cases hpre : dir.isPrefixOf k with
          | false => exact fun kv hkv => by cases hkv
          | true =>
              have hnext : vnIteratorHasNext ⟨(k, v) :: itor, dir⟩ = true :=
                hpre
              rw [iterateDir, if_pos hnext] at hx
              obtain ⟨⟨r, it'⟩, w₁, hturn, hx⟩ := exec_bind_inv hx
              obtain ⟨rest, w₂, hrest, -⟩ := exec_bind_inv hx
              obtain ⟨rfl, ⟨e, hwalked, rfl⟩ | rfl⟩ :=
                vnNextInode_returns h hpre hturn
              · intro kv hkv
                rcases List.mem_cons.mp hkv with rfl | hkv
                · exact ⟨e, hwalked⟩
                · exact ih hrest kv hkv
              · have hsame := ih hrest
                rwa [List.takeWhile_cons, hpre] at hsame

end Walk

-- ================================================================ the law

/-- The caller's walk of a directory ends, and has then returned every
entry whose record is there. -/
def WalkEnds (w : World) (d : Int) (bufLen : Nat) : Prop :=
  ∃ fuel es w', (vnBeginIterateDir d >>= iterateDir bufLen fuel).exec w
      = .ok (es, w')
    ∧ ∀ k v n u, w.db.metaCf[k]? = some v → dirPrefix d <+: k →
      loadInt64 v = .ok n → w.db.metaCf[inodeKey n]? = some u →
      ∃ inode, deserializeInode u = .ok inode
        ∧ (k.drop (dirPrefix d).length, inode) ∈ es

/-- A walk ends exactly when each key under the directory's prefix can be
served: its value holds a number, the number's record is there and is its
own, and the name fits the caller's buffer. -/
theorem iteration_ends_iff (w : World) (hcalm : Calm w) (d : Int)
    (bufLen : Nat) :
    WalkEnds w d bufLen
      ↔ ∀ k v, w.db.metaCf[k]? = some v → dirPrefix d <+: k →
        ∃ e, Walked w (dirPrefix d) bufLen (k, v) e := by
  constructor
  · rintro ⟨fuel, es, w', hx, -⟩ k v hv hpre
    rw [exec_bind_ok (exec_vnBeginIterateDir d)] at hx
    have hall := walked_of_iterateDir hcalm hx
    rw [PrefixScan.seek_takeWhile] at hall
    exact hall (k, v) (mem_walk_iff.mpr ⟨hv, hpre⟩)
  · intro hall
    have hall' : ∀ kv ∈ w.db.metaCf.toList.filter fun kv =>
        (dirPrefix d).isPrefixOf kv.1,
        ∃ e, Walked w (dirPrefix d) bufLen kv e := by
      intro kv hkv
      obtain ⟨hv, hpre⟩ := mem_walk_iff.mp hkv
      exact hall kv.1 kv.2 hv hpre
    have : Nonempty (Bytes × ViveInode) := ⟨[], vnAllocInode⟩
    choose! serve hserve using hall'
    obtain ⟨fuel, hx⟩ := (lists_iff hcalm (List.forall₂_map_right_iff.mpr
      (List.forall₂_same.mpr hserve))).mpr rfl
    refine ⟨fuel, _, w, hx, fun k v n u hv hpre hnum hrec => ?_⟩
    have hmem := mem_walk_iff.mpr (show w.db.metaCf[(k, v).1]? = some (k, v).2
      ∧ dirPrefix d <+: (k, v).1 from ⟨hv, hpre⟩)
    obtain ⟨n', u', hnum', hrec', hinode, -, hname, -⟩ := hserve _ hmem
    obtain rfl := Except.ok.inj (hnum.symm.trans hnum')
    obtain rfl := Option.some.inj (hrec.symm.trans hrec')
    refine ⟨_, hinode, List.mem_map.mpr ⟨_, hmem, ?_⟩⟩
    exact Prod.ext hname rfl

/-- The root of a file system with one file, walked. -/
theorem iteration_ends_iff_oneFile :
    ∃ bufLen, WalkEnds (oneFileSys plainCodec 0 0).world vnRootIno bufLen := by
  obtain ⟨tr, hrun⟩ := run_oneFile_clear
  obtain ⟨N, rel, -⟩ := run_noRecordUnder hrun
  obtain ⟨bufLen, hroom⟩ := exists_room (oneFileSys plainCodec 0 0).world.db
    vnRootIno
  refine ⟨bufLen, (iteration_ends_iff _ rel.base.calm _ bufLen).mpr ?_⟩
  intro k v hv hpre
  obtain ⟨e, hserved⟩ := rel.served (k, v) hv hpre (hroom k v hv hpre)
  exact ⟨e, hserved.walked⟩

/-- A store with an entry in the root whose record is lost. -/
def lostWorld : World where
  db := Store.empty.applyOp
    (.put .metaCf (fileKey vnRootIno nameA) (leBytes 8 12))
  durable := Store.empty
  tx := none
  inodeSeed := 13
  clock := 0
  script := []

theorem lostWorld_meta (key : Bytes) : lostWorld.db.metaCf[key]?
    = if fileKey vnRootIno nameA = key then some (leBytes 8 12) else none := by
  rw [lostWorld, Store.applyOp_meta]
  rfl

/-- Its walk never ends. -/
theorem iteration_stuck :
    (∀ fuel, (vnBeginIterateDir vnRootIno >>= iterateDir 256 fuel).exec
        lostWorld = .error .diverged)
      ∧ ¬ WalkEnds lostWorld vnRootIno 256 := by
  have hcalm : Calm lostWorld := rfl
  have hstuck : ∀ fuel, (vnBeginIterateDir vnRootIno
      >>= iterateDir 256 fuel).exec lostWorld = .error .diverged := by
    intro fuel
    have hbegin : (vnBeginIterateDir vnRootIno).exec lostWorld
        = .ok (⟨[(fileKey vnRootIno nameA, leBytes 8 12)],
          dirPrefix vnRootIno⟩, lostWorld) := rfl
    rw [exec_bind_ok hbegin]
    refine exec_iterateDir_lost hcalm (by decide)
      (loadInt64_leBytes (show 12 < 2 ^ 64 by decide)) ?_ fuel
    rw [lostWorld_meta, if_neg (by decide)]
  refine ⟨hstuck, ?_⟩
  rintro ⟨fuel, es, w', hx, -⟩
  rw [hstuck] at hx
  cases hx

end ViveNas
