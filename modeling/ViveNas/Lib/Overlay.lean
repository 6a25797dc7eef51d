/-
Buffers written by patches: overwriting a range, folding a list of
patches over a buffer, and joining adjacent patches into one.

# The algebra

A `Patch` is data at an offset. `applyAll` lays a list of patches over a
buffer, later ones on top, and `latest` is its pointwise meaning: the
last patch covering a position decides it (`applyAll_getElem?`).

`join z l r` is one patch spanning both, right over left, with the
filler `z` wherever neither has data. A join therefore claims positions
that no patch wrote: the *holes* of a tree of joins. Regrouping a patch
list is harmless at every other position, and at a hole it is harmless
exactly when the position held `z` already (`applyAll_join_iff`).
-/
import Mathlib

namespace Overlay

variable {α : Type}

-- ======================================================== overwriting

/-- `dst` with `src` written over it from `off` on. -/
def overwrite (dst : List α) (off : Nat) (src : List α) : List α :=
  dst.take off ++ src ++ dst.drop (off + src.length)

theorem overwrite_length {dst src : List α} {off : Nat}
    (h : off + src.length ≤ dst.length) :
    (overwrite dst off src).length = dst.length := by
  simp only [overwrite, List.length_append, List.length_take,
    List.length_drop]
  omega

/-- An in-bounds overwrite, read positionally. -/
theorem overwrite_getElem? {dst src : List α} {off : Nat}
    (h : off + src.length ≤ dst.length) (i : Nat) :
    (overwrite dst off src)[i]?
      = if off ≤ i ∧ i < off + src.length then src[i - off]?
        else dst[i]? := by
  have htake : (dst.take off).length = off := by
    rw [List.length_take]
    omega
  unfold overwrite
  rw [List.append_assoc]
  by_cases hlo : i < off
  · rw [List.getElem?_append_left (by omega), List.getElem?_take_of_lt hlo,
      if_neg (by omega)]
  · rw [List.getElem?_append_right (by omega), htake]
    by_cases hhi : i < off + src.length
    · rw [List.getElem?_append_left (by omega), if_pos ⟨by omega, hhi⟩]
    · rw [List.getElem?_append_right (by omega), List.getElem?_drop,
        if_neg (by omega)]
      congr 1
      omega

/-- Overwriting the whole buffer replaces it. -/
theorem overwrite_all {dst src : List α} (h : src.length = dst.length) :
    overwrite dst 0 src = src := by
  simp [overwrite, h]

/-- An overwrite past a prefix leaves the prefix alone. -/
theorem overwrite_append_right (hd tl src : List α) (k : Nat) :
    overwrite (hd ++ tl) (hd.length + k) src = hd ++ overwrite tl k src := by
  unfold overwrite
  rw [List.take_append, List.drop_append,
    List.take_of_length_le (Nat.le_add_right _ _),
    List.drop_of_length_le (by omega)]
  simp [Nat.add_assoc]

/-- An overwrite inside a prefix leaves the rest alone. -/
theorem overwrite_append_left {hd src : List α} {off : Nat}
    (h : off + src.length ≤ hd.length) (tl : List α) :
    overwrite (hd ++ tl) off src = overwrite hd off src ++ tl := by
  unfold overwrite
  rw [List.take_append_of_le_length (by omega),
    List.drop_append_of_le_length h]
  simp

/-- Two adjacent overwrites are one. -/
theorem overwrite_adjacent {dst a : List α} {off : Nat}
    (h : off + a.length ≤ dst.length) (b : List α) :
    overwrite (overwrite dst off a) (off + a.length) b
      = overwrite dst off (a ++ b) := by
  have hhead : (dst.take off ++ a).length = off + a.length := by
    rw [List.length_append, List.length_take]
    omega
  have hright := overwrite_append_right (dst.take off ++ a)
    (dst.drop (off + a.length)) b 0
  rw [hhead, Nat.add_zero] at hright
  show overwrite (dst.take off ++ a ++ dst.drop (off + a.length)) _ b = _
  rw [hright]
  simp [overwrite, Nat.add_assoc]

-- ============================================================ patches

/-- Data to be laid over a buffer at an offset. -/
structure Patch (α : Type) where
  off : Nat
  data : List α

namespace Patch

/-- One past the last position the patch writes. -/
def hi (p : Patch α) : Nat := p.off + p.data.length

/-- What the patch writes at a position, if anything. -/
def at? (p : Patch α) (i : Nat) : Option α :=
  if p.off ≤ i then p.data[i - p.off]? else none

theorem at?_eq_none_iff (p : Patch α) (i : Nat) :
    p.at? i = none ↔ ¬ (p.off ≤ i ∧ i < p.hi) := by
  unfold at? hi
  by_cases hlo : p.off ≤ i
  · rw [if_pos hlo, List.getElem?_eq_none_iff]
    omega
  · rw [if_neg hlo]
    exact ⟨fun _ hc => hlo hc.1, fun _ => rfl⟩

/-- The buffer with the patch laid over it. -/
def apply (p : Patch α) (buf : List α) : List α := overwrite buf p.off p.data

theorem apply_length {p : Patch α} {buf : List α} (h : p.hi ≤ buf.length) :
    (p.apply buf).length = buf.length :=
  overwrite_length h

theorem apply_getElem? {p : Patch α} {buf : List α} (h : p.hi ≤ buf.length)
    (i : Nat) : (p.apply buf)[i]? = (p.at? i).or buf[i]? := by
  unfold apply
  rw [overwrite_getElem? h]
  by_cases hin : p.off ≤ i ∧ i < p.off + p.data.length
  · have hlt : i - p.off < p.data.length := by omega
    rw [if_pos hin, at?, if_pos hin.1, List.getElem?_eq_getElem hlt]
    rfl
  · rw [if_neg hin, (p.at?_eq_none_iff i).mpr hin]
    rfl

end Patch

/-- The buffer with a list of patches laid over it, later ones on top. -/
def applyAll (buf : List α) (ps : List (Patch α)) : List α :=
  ps.foldl (fun b p => p.apply b) buf

/-- What the last patch covering a position writes there. -/
def latest : List (Patch α) → Nat → Option α
  | [], _ => none
  | p :: ps, i => (latest ps i).or (p.at? i)

theorem latest_append (ps qs : List (Patch α)) (i : Nat) :
    latest (ps ++ qs) i = (latest qs i).or (latest ps i) := by
  induction ps with
  | nil => simp [latest]
  | cons p ps ih => rw [List.cons_append, latest, latest, ih, Option.or_assoc]

theorem latest_eq_none_iff (ps : List (Patch α)) (i : Nat) :
    latest ps i = none ↔ ∀ p ∈ ps, p.at? i = none := by
  induction ps with
  | nil => simp [latest]
  | cons p ps ih =>
      rw [latest, Option.or_eq_none_iff, ih, List.forall_mem_cons]
      exact And.comm

theorem applyAll_length {ps : List (Patch α)} {buf : List α}
    (h : ∀ p ∈ ps, p.hi ≤ buf.length) :
    (applyAll buf ps).length = buf.length := by
  induction ps generalizing buf with
  | nil => rfl
  | cons p ps ih =>
      have hlen := Patch.apply_length (h p (List.mem_cons_self ..))
      show (applyAll (p.apply buf) ps).length = _
      rw [ih fun q hq => by rw [hlen]; exact h q (List.mem_cons_of_mem _ hq),
        hlen]

/-- The pointwise meaning of a patch list: the last patch covering a
position decides it, and elsewhere the buffer shows through. -/
theorem applyAll_getElem? {ps : List (Patch α)} {buf : List α}
    (h : ∀ p ∈ ps, p.hi ≤ buf.length) (i : Nat) :
    (applyAll buf ps)[i]? = (latest ps i).or buf[i]? := by
  induction ps generalizing buf with
  | nil => rfl
  | cons p ps ih =>
      have hp := h p (List.mem_cons_self ..)
      show (applyAll (p.apply buf) ps)[i]? = _
      rw [ih fun q hq => by
          rw [Patch.apply_length hp]
          exact h q (List.mem_cons_of_mem _ hq),
        Patch.apply_getElem? hp, latest, Option.or_assoc]

-- ============================================================== joins

/-- One patch spanning both, right over left, `z` where neither writes. -/
def join (z : α) (l r : Patch α) : Patch α where
  off := min l.off r.off
  data :=
    overwrite
      (overwrite
        (List.replicate (max l.hi r.hi - min l.off r.off) z)
        (l.off - min l.off r.off) l.data)
      (r.off - min l.off r.off) r.data

variable {z : α} {l r : Patch α}

theorem join_fits_left :
    l.off - min l.off r.off + l.data.length
      ≤ max l.hi r.hi - min l.off r.off := by
  simp only [Patch.hi]
  omega

theorem join_fits_right :
    r.off - min l.off r.off + r.data.length
      ≤ max l.hi r.hi - min l.off r.off := by
  simp only [Patch.hi]
  omega

theorem join_data_length :
    (join z l r).data.length = max l.hi r.hi - min l.off r.off := by
  unfold join
  have hrep : (List.replicate (max l.hi r.hi - min l.off r.off) z).length
      = max l.hi r.hi - min l.off r.off := List.length_replicate
  have hleft := overwrite_length
    (show l.off - min l.off r.off + l.data.length ≤ _ from
      hrep ▸ join_fits_left)
  rw [overwrite_length (by rw [hleft, hrep]; exact join_fits_right), hleft,
    hrep]

@[simp] theorem join_off : (join z l r).off = min l.off r.off := rfl

@[simp] theorem join_hi : (join z l r).hi = max l.hi r.hi := by
  rw [Patch.hi, join_data_length, join_off]
  simp only [Patch.hi]
  omega

/-- What a join writes: the right patch, else the left one, else the
filler anywhere between the two ends. -/
theorem join_at? (i : Nat) :
    (join z l r).at? i
      = (r.at? i).or ((l.at? i).or
          (if min l.off r.off ≤ i ∧ i < max l.hi r.hi then some z
            else none)) := by
  by_cases hspan : min l.off r.off ≤ i ∧ i < max l.hi r.hi
  case neg =>
    have hl : l.at? i = none := by
      rw [Patch.at?_eq_none_iff]
      omega
    have hr : r.at? i = none := by
      rw [Patch.at?_eq_none_iff]
      omega
    rw [if_neg hspan, hl, hr, (Patch.at?_eq_none_iff _ _).mpr]
    · rfl
    · simpa using hspan
  case pos =>
    obtain ⟨hlo, hhi⟩ := hspan
    have hrep : (List.replicate (max l.hi r.hi - min l.off r.off) z).length
        = max l.hi r.hi - min l.off r.off := List.length_replicate
    have hleft := overwrite_length
      (show l.off - min l.off r.off + l.data.length ≤ _ from
        hrep ▸ join_fits_left)
    have hwrite : ∀ q : Patch α, min l.off r.off ≤ q.off →
        ∀ rest : Option α,
        (if q.off - min l.off r.off ≤ i - min l.off r.off
            ∧ i - min l.off r.off < q.off - min l.off r.off + q.data.length
          then q.data[i - min l.off r.off - (q.off - min l.off r.off)]?
          else rest) = (q.at? i).or rest := by
      intro q hq rest
      by_cases hin : q.off ≤ i ∧ i < q.hi
      · have hlt : i - q.off < q.data.length := by
          have := hin.2
          simp only [Patch.hi] at this
          omega
        have hidx : i - min l.off r.off - (q.off - min l.off r.off)
            = i - q.off := by omega
        rw [if_pos (by simp only [Patch.hi] at hin; omega), hidx,
          Patch.at?, if_pos hin.1, List.getElem?_eq_getElem hlt]
        rfl
      · rw [(Patch.at?_eq_none_iff q i).mpr hin,
          if_neg (by simp only [Patch.hi] at hin; omega)]
        rfl
    rw [if_pos ⟨hlo, hhi⟩]
    show (if min l.off r.off ≤ i
        then (join z l r).data[i - min l.off r.off]? else none) = _
    rw [if_pos hlo]
    unfold join
    rw [overwrite_getElem? (by rw [hleft, hrep]; exact join_fits_right),
      hwrite r (Nat.min_le_right _ _),
      overwrite_getElem? (by rw [hrep]; exact join_fits_left),
      hwrite l (Nat.min_le_left _ _),
      List.getElem?_replicate_of_lt (by omega)]

-- ====================================================== trees of joins

/-- The ways adjacent patches may be joined, in any order and any number
of times. -/
inductive JoinTree (α : Type) where
  | leaf (p : Patch α)
  | node (l r : JoinTree α)

namespace JoinTree

/-- The single patch the joins produce. -/
def patch (z : α) : JoinTree α → Patch α
  | leaf p => p
  | node l r => join z (l.patch z) (r.patch z)

/-- The patches joined, oldest first. -/
def leaves : JoinTree α → List (Patch α)
  | leaf p => [p]
  | node l r => l.leaves ++ r.leaves

/-- The least offset of any leaf. -/
def lo : JoinTree α → Nat
  | leaf p => p.off
  | node l r => min l.lo r.lo

/-- The greatest end of any leaf. -/
def hi : JoinTree α → Nat
  | leaf p => p.hi
  | node l r => max l.hi r.hi

/-- The position lies between the tree's ends. -/
def spans (t : JoinTree α) (i : Nat) : Bool := decide (t.lo ≤ i ∧ i < t.hi)

/-- The position lies in the gap of the topmost join that spans it: the
join claims it although no patch under it on that side wrote it. -/
def hole : JoinTree α → Nat → Bool
  | leaf _, _ => false
  | node l r, i =>
      if r.spans i then r.hole i
      else if l.spans i then l.hole i
      else (node l r).spans i

theorem spans_iff (t : JoinTree α) (i : Nat) :
    t.spans i = true ↔ t.lo ≤ i ∧ i < t.hi := decide_eq_true_iff

theorem spans_eq_false_iff (t : JoinTree α) (i : Nat) :
    t.spans i = false ↔ ¬ (t.lo ≤ i ∧ i < t.hi) := decide_eq_false_iff_not

@[simp] theorem patch_off (t : JoinTree α) : (t.patch z).off = t.lo := by
  induction t with
  | leaf p => rfl
  | node l r ihl ihr => simp only [patch, join_off, lo, ihl, ihr]

@[simp] theorem patch_hi (t : JoinTree α) : (t.patch z).hi = t.hi := by
  induction t with
  | leaf p => rfl
  | node l r ihl ihr => simp only [patch, join_hi, hi, ihl, ihr]

/-- The end of a tree is the end of one of its leaves. -/
theorem hi_le_of_leaves {t : JoinTree α} {n : Nat}
    (h : ∀ p ∈ t.leaves, p.hi ≤ n) : t.hi ≤ n := by
  induction t with
  | leaf p => exact h p (List.mem_cons_self ..)
  | node l r ihl ihr =>
      have hl := ihl fun p hp => h p (List.mem_append_left _ hp)
      have hr := ihr fun p hp => h p (List.mem_append_right _ hp)
      exact Nat.max_le.mpr ⟨hl, hr⟩

theorem patch_at?_eq_none_iff (t : JoinTree α) (i : Nat) :
    (t.patch z).at? i = none ↔ t.spans i = false := by
  rw [Patch.at?_eq_none_iff, patch_off, patch_hi, spans_eq_false_iff]

/-- Outside its ends a tree has no leaf that writes. -/
theorem latest_leaves_eq_none {t : JoinTree α} {i : Nat}
    (h : t.spans i = false) : latest t.leaves i = none := by
  induction t with
  | leaf p =>
      simp only [leaves, latest, Option.none_or]
      exact (Patch.at?_eq_none_iff _ _).mpr ((spans_eq_false_iff _ _).mp h)
  | node l r ihl ihr =>
      rw [spans_eq_false_iff, lo, hi] at h
      rw [leaves, latest_append, ihl, ihr]
      · rfl
      · rw [spans_eq_false_iff]
        omega
      · rw [spans_eq_false_iff]
        omega

/-- What a tree of joins writes: the filler at its holes, and what its
leaves write everywhere else. -/
theorem patch_at? (t : JoinTree α) (i : Nat) :
    (t.patch z).at? i
      = if t.hole i then some z else latest t.leaves i := by
  induction t with
  | leaf p => simp [patch, hole, leaves, latest]
  | node l r ihl ihr =>
      rw [patch, join_at?, leaves, latest_append, hole]
      by_cases hr : r.spans i = true
      · -- the right side spans the position, so it decides it
        rw [if_pos hr]
        have hsome : ((r.patch z).at? i).isSome := by
          rw [Option.isSome_iff_ne_none, Ne, patch_at?_eq_none_iff, hr]
          decide
        obtain ⟨v, hv⟩ := Option.isSome_iff_exists.mp hsome
        rw [ihr] at hv
        rw [ihr, hv]
        by_cases hh : r.hole i = true
        · rw [if_pos hh] at hv ⊢
          rw [← hv]
          rfl
        · rw [if_neg hh] at hv ⊢
          rw [hv]
          rfl
      · have hr' : r.spans i = false := by simpa using hr
        rw [if_neg hr, (patch_at?_eq_none_iff r i).mpr hr',
          latest_leaves_eq_none hr', Option.none_or, Option.none_or]
        by_cases hl : l.spans i = true
        · rw [if_pos hl]
          have hsome : ((l.patch z).at? i).isSome := by
            rw [Option.isSome_iff_ne_none, Ne, patch_at?_eq_none_iff, hl]
            decide
          obtain ⟨v, hv⟩ := Option.isSome_iff_exists.mp hsome
          rw [hv]
          rw [ihl] at hv
          rw [hv]
          rfl
        · have hl' : l.spans i = false := by simpa using hl
          rw [if_neg hl, (patch_at?_eq_none_iff l i).mpr hl',
            latest_leaves_eq_none hl', Option.none_or]
          simp only [patch_off, patch_hi, spans_iff, lo, hi]

end JoinTree

-- ===================================================== forests of joins

/-- The patches of a list of trees, before any join. -/
def forestLeaves (ts : List (JoinTree α)) : List (Patch α) :=
  ts.flatMap JoinTree.leaves

/-- The last tree spanning the position has a hole there. -/
def forestHole : List (JoinTree α) → Nat → Bool
  | [], _ => false
  | t :: ts, i =>
      if ts.any fun u => u.spans i then forestHole ts i else t.hole i

/-- What a joined list of patches writes at a position, in terms of the
patches themselves. -/
theorem latest_forest (ts : List (JoinTree α)) (i : Nat) :
    latest (ts.map (JoinTree.patch z)) i
      = if forestHole ts i then some z else latest (forestLeaves ts) i := by
  induction ts with
  | nil => rfl
  | cons t ts ih =>
      have hcons : forestLeaves (t :: ts) = t.leaves ++ forestLeaves ts :=
        List.flatMap_cons
      rw [List.map_cons, latest, ih, forestHole, hcons, latest_append]
      by_cases hany : (ts.any fun u => u.spans i) = true
      · rw [if_pos hany]
        have hsome : (latest (ts.map (JoinTree.patch z)) i).isSome := by
          rw [Option.isSome_iff_ne_none, Ne, latest_eq_none_iff]
          intro hnone
          obtain ⟨u, hu, hspan⟩ := List.any_eq_true.mp hany
          have hno := hnone _ (List.mem_map_of_mem hu)
          rw [JoinTree.patch_at?_eq_none_iff, hspan] at hno
          cases hno
        obtain ⟨v, hv⟩ := Option.isSome_iff_exists.mp hsome
        rw [ih] at hv
        rw [hv]
        by_cases hh : forestHole ts i = true
        · rw [if_pos hh] at hv ⊢
          rw [← hv]
          rfl
        · rw [if_neg hh] at hv ⊢
          rw [hv]
          rfl
      · rw [if_neg hany]
        -- no later tree spans the position: none has a hole or a leaf there
        have hspans : ∀ u ∈ ts, u.spans i = false := by
          simpa using hany
        have hleaves : latest (forestLeaves ts) i = none := by
          rw [latest_eq_none_iff]
          intro p hp
          obtain ⟨u, hu, hpu⟩ := List.mem_flatMap.mp hp
          exact (latest_eq_none_iff _ _).mp
            (JoinTree.latest_leaves_eq_none (hspans u hu)) p hpu
        have hhole : forestHole ts i = false := by
          have hmap : latest (ts.map (JoinTree.patch z)) i = none := by
            rw [latest_eq_none_iff]
            intro p hp
            obtain ⟨u, hu, rfl⟩ := List.mem_map.mp hp
            exact (JoinTree.patch_at?_eq_none_iff u i).mpr (hspans u hu)
          by_contra hne
          rw [ih, if_pos (by simpa using hne)] at hmap
          cases hmap
        rw [hhole, hleaves, JoinTree.patch_at?]
        simp

/-- Regrouping is harmless exactly when every hole it leaves on top is a
position that held the filler already. -/
theorem applyAll_join_iff {ts : List (JoinTree α)} {buf : List α}
    (h : ∀ p ∈ forestLeaves ts, p.hi ≤ buf.length) :
    applyAll buf (ts.map (JoinTree.patch z)) = applyAll buf (forestLeaves ts)
      ↔ ∀ i < buf.length, forestHole ts i = true →
          (latest (forestLeaves ts) i).or buf[i]? = some z := by
  have hpatch : ∀ p ∈ ts.map (JoinTree.patch z), p.hi ≤ buf.length := by
    intro p hp
    obtain ⟨t, ht, rfl⟩ := List.mem_map.mp hp
    rw [JoinTree.patch_hi]
    exact JoinTree.hi_le_of_leaves fun q hq =>
      h q (List.mem_flatMap.mpr ⟨t, ht, hq⟩)
  constructor
  · intro heq i hi hhole
    have hat := congrArg (fun b => b[i]?) heq
    simp only [applyAll_getElem? hpatch, applyAll_getElem? h,
      latest_forest, hhole, if_true] at hat
    exact hat.symm
  · intro hcond
    apply List.ext_getElem?
    intro i
    rw [applyAll_getElem? hpatch, applyAll_getElem? h, latest_forest]
    by_cases hhole : forestHole ts i = true
    · rw [if_pos hhole]
      by_cases hi : i < buf.length
      · exact (hcond i hi hhole).symm
      · -- a hole lies inside the buffer because every leaf does
        exfalso
        have hsome : latest (ts.map (JoinTree.patch z)) i ≠ none := by
          rw [latest_forest, if_pos hhole]
          exact fun hc => by cases hc
        refine hsome ((latest_eq_none_iff _ _).mpr fun p hp => ?_)
        rw [Patch.at?_eq_none_iff]
        have := hpatch p hp
        omega
    · rw [if_neg hhole]

end Overlay
