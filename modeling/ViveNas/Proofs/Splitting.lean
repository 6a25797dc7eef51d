/-
The extent loop splits its range exactly, and nothing wraps on the way.

# The closed form

Both sides meet in the closed form of Lib/Paging.lean. The pieces the
loops visit are the pieces `pieceAt j` of the extents from `start_ext`
on (`segments_eq`), and the checked walk gives the same list because
each of its values stays in its type (`mixedSegments_eq`). What makes
the list a partition is then arithmetic on `cut`: a turn moves it
strictly forward until the last one reaches `len`.

# The loops

The four loops of File.lean are loops over that list (`Followed`),
whatever they do with a piece.
-/
import ViveNas.Splitting
import ViveNas.Proofs.Segments

namespace ViveNas

open Paging

variable {E offset len i : Nat}

-- ============================================ the pieces, in closed form

/-- The piece of extent `j`. -/
def pieceAt (E offset len j : Nat) : Segment :=
  ⟨j, (offset + cut E offset len j) % E,
    cut E offset len (j + 1) - cut E offset len j⟩

/-- The loop from index `i` on, with the bytes before `i` behind it: the
pieces of the next `turns` extents. -/
theorem segmentsFrom_eq (turns : Nat) (hE : 0 < E) (hE' : E ≤ 2 ^ 32)
    (hlen : len < 2 ^ 64) (hi : offset / E ≤ i) :
    segmentsFrom E offset len turns i (cut E offset len i)
      = (List.range' i turns).map (pieceAt E offset len) := by
  induction turns generalizing i with
  | zero => rfl
  | succ turns ih =>
      have hi' : offset / E ≤ i + 1 := Nat.le_succ_of_le hi
      simp only [segmentsFrom, cut_add_segmentLen hE hE' hlen hi]
      rw [segmentLen_cut hE hE' hlen hi, ih hi', List.range'_succ,
        List.map_cons]
      rfl

/-- The whole loop starts with nothing behind it. -/
theorem segments_eq (hE : 0 < E) (hE' : E ≤ 2 ^ 32) (hlen : len < 2 ^ 64) :
    segments E offset len
      = (List.range' (startExt E offset) (extentTurns E offset len)).map
          (pieceAt E offset len) := by
  have h := segmentsFrom_eq (extentTurns E offset len) hE hE' hlen
    (Nat.le_refl (offset / E))
  rw [cut_first] at h
  exact h

-- ===================================================== the checked walk

/-- In range, the checked conversions change nothing ... -/
theorem int64_natCast {n : Nat} (h : n < 2 ^ 63) : int64 n = .ok (n : Int) :=
  if_pos (by omega)

theorem sizeT_natCast {n : Nat} (h : n < 2 ^ 64) : sizeT n = .ok (n : Int) :=
  if_pos (by omega)

/-- ... and the checked sums and differences are the plain ones. -/
theorem int64_add {a b : Nat} (h : a + b < 2 ^ 63) :
    int64 ((a : Int) + b) = .ok ((a + b : Nat) : Int) := by
  rw [← Int.natCast_add]
  exact int64_natCast h

theorem sizeT_add {a b : Nat} (h : a + b < 2 ^ 64) :
    sizeT ((a : Int) + b) = .ok ((a + b : Nat) : Int) := by
  rw [← Int.natCast_add]
  exact sizeT_natCast h

theorem sizeT_sub {a b : Nat} (hb : b ≤ a) (ha : a < 2 ^ 64) :
    sizeT ((a : Int) - b) = .ok ((a - b : Nat) : Int) := by
  rw [← Int.ofNat_sub hb]
  exact sizeT_natCast (by omega)

/-- Neither bound of the loop wraps, nor does the sum that rounds up. -/
theorem mixedBounds_eq (hE : 0 < E) (hE' : E < 2 ^ 32)
    (hend : offset + len + E - 1 < 2 ^ 63) :
    mixedBounds E offset len
      = .ok (startExt E offset,
          (startExt E offset + extentTurns E offset len : Nat)) := by
  have hstart : offset / E ≤ offset := Nat.div_le_self offset E
  have hlast : (offset + len + E - 1) / E ≤ offset + len + E - 1 :=
    Nat.div_le_self _ _
  have hfirst : int64 ((offset : Int).tdiv E)
      = .ok ((offset / E : Nat) : Int) := by
    rw [← Int.ofNat_tdiv]
    exact int64_natCast (by omega)
  have hround : int64 (((offset + len + E - 1 : Nat) : Int).tdiv E)
      = .ok (((offset + len + E - 1) / E : Nat) : Int) := by
    rw [← Int.ofNat_tdiv]
    exact int64_natCast (by omega)
  have hoff : sizeT offset = .ok (offset : Int) := sizeT_natCast (by omega)
  have hlen : sizeT ((offset : Int) + len) = .ok ((offset + len : Nat) : Int) :=
    sizeT_add (by omega)
  have hsize : sizeT (((offset + len : Nat) : Int) + E)
      = .ok ((offset + len + E : Nat) : Int) :=
    sizeT_add (by omega)
  have hone : sizeT (((offset + len + E : Nat) : Int) - 1)
      = .ok ((offset + len + E - 1 : Nat) : Int) :=
    sizeT_sub (b := 1) (by omega) (by omega)
  rw [startExt_add_turns hE (Nat.le_of_lt hE') (by omega)]
  rw [mixedBounds, hfirst, ok_bind, hoff, ok_bind, hlen, ok_bind, hsize,
    ok_bind, hone, ok_bind, hround, ok_bind, pure_eq_ok, startExt]

/-- A turn at the running offset of extent `i`. -/
theorem mixedTurn_eq (hE : 0 < E) (hE' : E < 2 ^ 32)
    (hend : offset + len + E - 1 < 2 ^ 63) (hi : offset / E ≤ i) :
    mixedTurn E offset len (cut E offset len i)
      = .ok ((pieceAt E offset len i).startOff,
          (pieceAt E offset len i).len, cut E offset len (i + 1)) := by
  have hle := cut_le_len E offset len i
  have hle' := cut_le_len E offset len (i + 1)
  have hmono := cut_mono E offset len i
  have hstep := @cut_step E offset len i hE hi
  have hmod := Nat.mod_lt (offset + cut E offset len i) hE
  rw [pieceAt, ← hstep]
  rw [show cut E offset len (i + 1) = cut E offset len i
      + (cut E offset len (i + 1) - cut E offset len i) by omega, ← hstep]
    at hle' ⊢
  generalize cut E offset len i = b at hle hle' hmod ⊢
  generalize hs : (offset + b) % E = start at hmod hle' ⊢
  have hpos : int64 ((offset : Int) + b) = .ok ((offset + b : Nat) : Int) :=
    int64_add (by omega)
  have hstart : int64 (((offset + b : Nat) : Int).tmod E)
      = .ok (start : Int) := by
    rw [← Int.ofNat_tmod, hs]
    exact int64_natCast (by omega)
  have hdone : sizeT b = .ok (b : Int) := sizeT_natCast (by omega)
  have hbefore : sizeT start = .ok (start : Int) := sizeT_natCast (by omega)
  have hleft : sizeT ((len : Int) - b) = .ok ((len - b : Nat) : Int) :=
    sizeT_sub hle (by omega)
  have hroom : sizeT ((E : Int) - start) = .ok ((E - start : Nat) : Int) :=
    sizeT_sub (Nat.le_of_lt hmod) (by omega)
  have hmin : min ((len - b : Nat) : Int) ((E - start : Nat) : Int)
      = (min (len - b) (E - start) : Nat) := by omega
  have hnext : sizeT ((b : Int) + (min (len - b) (E - start) : Nat))
      = .ok ((b + min (len - b) (E - start) : Nat) : Int) :=
    sizeT_add (by omega)
  have hnext' : int64 ((b + min (len - b) (E - start) : Nat) : Int)
      = .ok ((b + min (len - b) (E - start) : Nat) : Int) :=
    int64_natCast (by omega)
  rw [mixedTurn, hpos, ok_bind, hstart, ok_bind, hdone, ok_bind, hleft,
    ok_bind, hbefore, ok_bind, hroom, ok_bind, hmin]
  dsimp only
  rw [hnext, ok_bind, hnext', ok_bind, pure_eq_ok]

/-- The walk from extent `i` on. The induction is on the turns left; the
running offset is `cut i` throughout. -/
theorem mixedLoop_eq (turns : Nat) (hE : 0 < E) (hE' : E < 2 ^ 32)
    (hend : offset + len + E - 1 < 2 ^ 63) (hi : offset / E ≤ i)
    (hbound : i + turns < 2 ^ 63) :
    mixedLoop E offset len (i + turns : Nat) (turns + 1) i
        (cut E offset len i)
      = .ok (((List.range' i turns).map (pieceAt E offset len)).map
          Segment.ints) := by
  induction turns generalizing i with
  | zero =>
      rw [mixedLoop, if_neg (by omega)]
      rfl
  | succ turns ih =>
      have hindex : int64 ((i : Int) + 1) = .ok ((i + 1 : Nat) : Int) :=
        int64_add (b := 1) (by omega)
      have hrest := ih (i := i + 1) (Nat.le_succ_of_le hi) (by omega)
      rw [show i + 1 + turns = i + (turns + 1) by omega] at hrest
      rw [mixedLoop, if_pos (by omega), mixedTurn_eq hE hE' hend hi]
      simp only [hindex, hrest, ok_bind]
      rw [List.range'_succ]
      rfl

/-- The checked walk ends, with the pieces of the loops. -/
theorem mixedSegments_eq (hE : 0 < E) (hE' : E < 2 ^ 32)
    (hend : offset + len + E - 1 < 2 ^ 63) :
    mixedSegments E offset len
      = .ok ((segments E offset len).map Segment.ints) := by
  have hturns := @startExt_add_turns E offset len hE
    (Nat.le_of_lt hE') (by omega)
  have hlast : (offset + len + E - 1) / E ≤ offset + len + E - 1 :=
    Nat.div_le_self _ _
  have hloop := mixedLoop_eq (i := startExt E offset)
    (extentTurns E offset len) hE hE' hend (Nat.le_refl _) (by omega)
  rw [startExt, cut_first] at hloop
  rw [mixedSegments, mixedBounds_eq hE hE' hend,
    segments_eq hE (Nat.le_of_lt hE') (by omega)]
  show mixedLoop _ _ _ _ (((startExt E offset + extentTurns E offset len
    : Nat) - (startExt E offset : Int)).toNat + 1) _ _ = _
  rw [show (((startExt E offset + extentTurns E offset len : Nat) : Int)
    - (startExt E offset : Int)).toNat = extentTurns E offset len by omega]
  exact hloop

-- ======================================================== the partition

/-- `segs` splits the `len` bytes at `offset` over extents of size `E`. -/
structure Partitions (E offset len : Nat) (segs : List Segment) : Prop where
  consecutive : ∀ k g, segs[k]? = some g → g.index = startExt E offset + k
  positive : ∀ g ∈ segs, 0 < g.len
  inside : ∀ g ∈ segs, g.startOff + g.len ≤ E
  placed : ∀ k g, segs[k]? = some g →
    g.index * E + g.startOff
      = offset + ((segs.take k).map Segment.len).sum
  total : ∀ k, k ≤ segs.length →
    (((segs.take k).map Segment.len).sum = len ↔ k = segs.length)

section Pieces

variable (hE : 0 < E) (hE' : E < 2 ^ 32)
  (hend : offset + len + E - 1 < 2 ^ 63)

include hE hE' hend

/-- How far the loop is after `k` turns. -/
theorem sum_take_segments {k : Nat} (hk : k ≤ extentTurns E offset len) :
    (((segments E offset len).take k).map Segment.len).sum
      = cut E offset len (startExt E offset + k) := by
  rw [segments_eq hE (Nat.le_of_lt hE') (by omega), ← List.map_take,
    List.take_range'_of_length_ge hk, List.map_map]
  have hsum := sum_cut_steps E offset len (startExt E offset) k
  have hzero : cut E offset len (startExt E offset) = 0 :=
    cut_first E offset len
  rw [hzero, Nat.sub_zero] at hsum
  exact hsum

theorem length_segments :
    (segments E offset len).length = extentTurns E offset len := by
  rw [segments_eq hE (Nat.le_of_lt hE') (by omega), List.length_map,
    List.length_range']

/-- The `k`-th piece is the one of the `k`-th extent from `start_ext` on. -/
theorem getElem?_segments {k : Nat} {g : Segment}
    (hg : (segments E offset len)[k]? = some g) :
    k < extentTurns E offset len
      ∧ g = pieceAt E offset len (startExt E offset + k) := by
  have hk : k < (segments E offset len).length :=
    (List.getElem?_eq_some_iff.mp hg).1
  rw [length_segments hE hE' hend] at hk
  rw [segments_eq hE (Nat.le_of_lt hE') (by omega), List.getElem?_map,
    List.getElem?_range' hk, Nat.one_mul, Option.map_some,
    Option.some.injEq] at hg
  exact ⟨hk, hg.symm⟩

variable (hlen : 0 < len)

include hlen

/-- A turn of the loop moves on. -/
theorem cut_lt_of_turn {k : Nat} (hk : k < extentTurns E offset len) :
    cut E offset len (startExt E offset + k)
      < cut E offset len (startExt E offset + k + 1) := by
  have hlast := @startExt_add_turns E offset len hE
    (Nat.le_of_lt hE') (by omega)
  have hturn : startExt E offset + k + 1 ≤ (offset + len + E - 1) / E := by
    omega
  have hreach := (Nat.le_div_iff_mul_le hE).mp hturn
  rw [Nat.succ_mul] at hreach
  exact cut_lt_step hE hlen (Nat.le_add_right _ k) (by omega)

/-- The piece of a turn begins where the earlier ones end. -/
theorem pieceAt_placed {k : Nat} (hk : k < extentTurns E offset len) :
    (startExt E offset + k) * E
        + (offset + cut E offset len (startExt E offset + k)) % E
      = offset + cut E offset len (startExt E offset + k) := by
  have hpage := (cut_page_iff hE (Nat.le_add_right (startExt E offset) k)).mp
    ⟨Nat.le_refl _, cut_lt_of_turn hE hE' hend hlen hk⟩
  have hdm := Nat.div_add_mod
    (offset + cut E offset len (startExt E offset + k)) E
  rw [hpage.2, Nat.mul_comm] at hdm
  exact hdm

/-- The pieces follow each other from 0 to `len`, each inside its extent. -/
theorem partitions_segments :
    Partitions E offset len (segments E offset len) where
  consecutive := by
    intro k g hg
    obtain ⟨_, hg⟩ := getElem?_segments hE hE' hend hg
    rw [hg, pieceAt]
  positive := by
    intro g hg
    obtain ⟨k, hg⟩ := List.mem_iff_getElem?.mp hg
    obtain ⟨hk, hg⟩ := getElem?_segments hE hE' hend hg
    rw [hg]
    exact Nat.sub_pos_of_lt (cut_lt_of_turn hE hE' hend hlen hk)
  inside := by
    intro g hg
    obtain ⟨k, hg⟩ := List.mem_iff_getElem?.mp hg
    obtain ⟨_, hg⟩ := getElem?_segments hE hE' hend hg
    have hstep := @cut_step E offset len (startExt E offset + k) hE
      (Nat.le_add_right _ k)
    have hmod := Nat.mod_lt
      (offset + cut E offset len (startExt E offset + k)) hE
    rw [hg]
    show (offset + _) % E + (_ - _) ≤ E
    omega
  placed := by
    intro k g hg
    obtain ⟨hk, hg⟩ := getElem?_segments hE hE' hend hg
    rw [hg, sum_take_segments hE hE' hend (Nat.le_of_lt hk)]
    exact pieceAt_placed hE hE' hend hlen hk
  total := by
    intro k hk
    rw [length_segments hE hE' hend] at hk ⊢
    rw [sum_take_segments hE hE' hend hk]
    constructor
    · intro hsum
      refine Nat.le_antisymm hk (Nat.le_of_not_lt fun hmore => ?_)
      have hlt := cut_lt_of_turn hE hE' hend hlen hmore
      have hle := cut_le_len E offset len (startExt E offset + k + 1)
      omega
    · intro hall
      rw [hall]
      exact cut_last (range_le_turns hE (Nat.le_of_lt hE') (by omega))

end Pieces

-- ======================================================= the four loops

/-- The loops over `len` bytes at `offset` are loops over `segs`; the
reads are not clipped. -/
structure Followed (E offset len : Nat) (segs : List Segment) : Prop where
  write : ∀ iNo inBuf, inBuf.length = len →
    writeSegments iNo E offset inBuf (extentTurns E offset len)
        (startExt E offset) 0
      = runSegments (writeTurn iNo E inBuf) id segs 0 ()
  writev : ∀ iNo iov cur, iovLen iov = len →
    writevSegments iNo E offset iov (extentTurns E offset len)
        (startExt E offset) 0 cur
      = runSegments (writevTurn iNo E iov) (fun _ => ()) segs 0 cur
  read : ∀ iNo outBuf,
    readSegments iNo E offset len (extentTurns E offset len)
        (startExt E offset) 0 outBuf
      = runSegments (readTurn iNo) id segs 0 outBuf
  readv : ∀ iNo iov cur,
    readvSegments iNo E offset len (extentTurns E offset len)
        (startExt E offset) 0 iov cur
      = runSegments (readvTurn iNo) Prod.fst segs 0 (iov, cur)

/-- Each loop of the source, from any of its turns on, is `runSegments`
over the pieces of the turns left. The four differ in what a turn does
and in the cursor they carry. -/
theorem writeSegments_eq_run (iNo E offset : Nat) (inBuf : Bytes)
    (turns index b : Nat) :
    writeSegments iNo E offset inBuf turns index b
      = runSegments (writeTurn iNo E inBuf) id
          (segmentsFrom E offset inBuf.length turns index b) b () := by
  induction turns generalizing index b with
  | zero => rfl
  | succ turns ih =>
      simp only [writeSegments, segmentsFrom, runSegments, writeTurn,
        Prog.bind_bind, ih]

theorem writevSegments_eq_run (iNo E offset : Nat) (iov : List Bytes)
    (turns index b : Nat) (cur : IovCursor) :
    writevSegments iNo E offset iov turns index b cur
      = runSegments (writevTurn iNo E iov) (fun _ => ())
          (segmentsFrom E offset (iovLen iov) turns index b) b cur := by
  induction turns generalizing index b cur with
  | zero => rfl
  | succ turns ih =>
      simp only [writevSegments, segmentsFrom, runSegments, writevTurn]
      split
      case isTrue => rfl
      case isFalse =>
        simp only [Prog.bind_bind, Prog.pure_eq, Prog.ret_bind, ih]

theorem readSegments_eq_run (iNo E offset len turns index b : Nat)
    (outBuf : Bytes) :
    readSegments iNo E offset len turns index b outBuf
      = runSegments (readTurn iNo) id
          (segmentsFrom E offset len turns index b) b outBuf := by
  induction turns generalizing index b outBuf with
  | zero => rfl
  | succ turns ih =>
      simp only [readSegments, segmentsFrom, runSegments, readTurn,
        Prog.bind_bind, ih]

theorem readvSegments_eq_run (iNo E offset len turns index b : Nat)
    (iov : List Bytes) (cur : IovCursor) :
    readvSegments iNo E offset len turns index b iov cur
      = runSegments (readvTurn iNo) Prod.fst
          (segmentsFrom E offset len turns index b) b (iov, cur) := by
  induction turns generalizing index b iov cur with
  | zero => rfl
  | succ turns ih =>
      simp only [readvSegments, segmentsFrom, runSegments, readvTurn,
        Prog.bind_bind, ih]

/-- Started at `start_ext`, all four walk `segments`. -/
theorem followed_segments (E offset len : Nat) :
    Followed E offset len (segments E offset len) where
  write := by
    intro iNo inBuf hlen
    rw [writeSegments_eq_run, hlen, segments]
  writev := by
    intro iNo iov cur hlen
    rw [writevSegments_eq_run, hlen, segments]
  read := by
    intro iNo outBuf
    rw [readSegments_eq_run, segments]
  readv := by
    intro iNo iov cur
    rw [readvSegments_eq_run, segments]

/-- A loop over pieces makes no calls but those of its turns. -/
theorem calls_runSegments {σ β : Type} {Q : StoreCall → Prop}
    {body : Segment → Nat → σ → Fs σ} {finish : σ → β} {segs : List Segment}
    (h : ∀ g ∈ segs, ∀ b s, (body g b s).Calls Q) (b : Nat) (s : σ) :
    (runSegments body finish segs b s).Calls Q := by
  induction segs generalizing b s with
  | nil => exact trivial
  | cons g segs ih =>
      refine (h g List.mem_cons_self b s).bind fun s' => ?_
      exact ih (fun g' hg' => h g' (List.mem_cons_of_mem _ hg')) _ s'

-- ============================================================ the result

/-- The loop splits its range over the extents, wrapping nowhere. -/
theorem splits_exactly (hE : 0 < E) (hE' : E < 2 ^ 32) (hlen : 0 < len)
    (hend : offset + len + E - 1 < 2 ^ 63) :
    ∃ segs : List Segment,
      mixedSegments E offset len = .ok (segs.map Segment.ints)
        ∧ Partitions E offset len segs ∧ Followed E offset len segs :=
  ⟨segments E offset len, mixedSegments_eq hE hE' hend,
    partitions_segments hE hE' hend hlen, followed_segments E offset len⟩

/-- Five bytes at offset 3 over extents of four. -/
theorem splits_exactly_fiveBytes :
    ∃ segs : List Segment,
      mixedSegments (4 : Nat) (3 : Nat) (5 : Nat) = .ok (segs.map Segment.ints)
        ∧ Partitions 4 3 5 segs ∧ Followed 4 3 5 segs :=
  splits_exactly (by omega) (by omega) (by omega) (by omega)

end ViveNas
