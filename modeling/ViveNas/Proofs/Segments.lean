/-
The source's segment arithmetic, as the page walk of Lib/Paging.lean.

`vn_write`, `vn_writev` and `vn_read` carry a running `buf_offset` and
compute the piece of each extent from it. Before extent `i` that offset
is `cut i`, so the piece is the range from `cut i` to `cut (i + 1)`
(`segmentLen_cut`), and the loop's last turn leaves the whole range
behind (`range_le_turns`). No 64-bit operation on the way wraps.
-/
import ViveNas.File
import ViveNas.Lib.Paging

namespace ViveNas

open Paging

variable {E offset len i : Nat}

-- ======================================================== the loop range

theorem asInt64_of_lt {n : Nat} (h : n < 2 ^ 63) : asInt64 n = n := if_pos h

/-- Rounding up to whole extents does not exceed the byte count. -/
theorem roundUp_le (hE : 0 < E) (n : Nat) : (n + E - 1) / E ≤ n := by
  cases n with
  | zero => rw [Nat.div_eq_of_lt (by omega)]
  | succ n =>
      apply Nat.div_le_of_le_mul
      have hmul : E * (n + 1) = E * n + E := Nat.mul_succ E n
      have hle : n ≤ E * n := Nat.le_mul_of_pos_left n hE
      omega

theorem le_roundUp_mul (hE : 0 < E) (n : Nat) : n ≤ (n + E - 1) / E * E := by
  have hdm := Nat.div_add_mod (n + E - 1) E
  have hlt := Nat.mod_lt (n + E - 1) hE
  rw [Nat.mul_comm] at hdm
  omega

/-- The loop's bound, as long as the range ends within `off_t`. -/
theorem endExt_eq (hE : 0 < E) (hE' : E ≤ 2 ^ 32)
    (h : offset + len < 2 ^ 63) :
    endExt E offset len = ((offset + len + E - 1) / E : Nat) := by
  have hle := roundUp_le hE (offset + len)
  rw [endExt, u64_of_lt (by omega), asInt64_of_lt (by omega)]

/-- The index after the loop's last turn. -/
theorem startExt_add_turns (hE : 0 < E) (hE' : E ≤ 2 ^ 32)
    (h : offset + len < 2 ^ 63) :
    startExt E offset + extentTurns E offset len
      = (offset + len + E - 1) / E := by
  have hmono : offset / E ≤ (offset + len + E - 1) / E :=
    Nat.div_le_div_right (by omega)
  rw [extentTurns, endExt_eq hE hE' h, startExt]
  omega

/-- Where the loop runs, even if its bound wraps: no turn is past the
range. -/
theorem lt_roundUp_of_turn {j : Nat} (hj : startExt E offset ≤ j)
    (hj' : j < startExt E offset + extentTurns E offset len) :
    j < (offset + len + E - 1) / E := by
  have hwrap : u64 (offset + len + E - 1) ≤ offset + len + E - 1 := by
    rw [u64]
    exact Nat.mod_le _ _
  have hdiv := Nat.div_le_div_right (c := E) hwrap
  have hbound : endExt E offset len
      ≤ (u64 (offset + len + E - 1) / E : Nat) := by
    rw [endExt, asInt64]
    split <;> omega
  rw [extentTurns] at hj'
  omega

/-- The loop covers its range. -/
theorem range_le_turns (hE : 0 < E) (hE' : E ≤ 2 ^ 32)
    (h : offset + len < 2 ^ 63) :
    offset + len ≤ (startExt E offset + extentTurns E offset len) * E := by
  rw [startExt_add_turns hE hE' h]
  exact le_roundUp_mul hE (offset + len)

/-- The loop over a range that is not empty makes a turn. -/
theorem extentTurns_pos (hE : 0 < E) (hE' : E ≤ 2 ^ 32)
    (hend : offset + len < 2 ^ 63) (hlen : 0 < len) :
    ∃ turns, extentTurns E offset len = turns + 1 := by
  have hcover := range_le_turns hE hE' hend
  have hmod := Nat.mod_lt offset hE
  have hdm := Nat.div_add_mod offset E
  rw [startExt] at hcover
  refine Nat.exists_eq_succ_of_ne_zero fun hzero => ?_
  rw [hzero, Nat.add_zero, Nat.mul_comm] at hcover
  omega

/-- Part of the first extent is one turn of the loop. -/
theorem extentTurns_first (hE : E ≤ 2 ^ 32) (hpos : 0 < len)
    (hin : offset + len < E) : extentTurns E offset len = 1 := by
  have hturns := startExt_add_turns (by omega) hE (by omega : offset + len < _)
  have hstart : startExt E offset = 0 := Nat.div_eq_of_lt (by omega)
  have hend : (offset + len + E - 1) / E = 1 :=
    Nat.div_eq_of_lt_le (by omega) (by omega)
  omega

-- ============================================================ the pieces

/-- The piece of extent `i`, computed from the running offset. -/
theorem segmentLen_cut (hE : 0 < E) (hE' : E ≤ 2 ^ 32)
    (hlen : len < 2 ^ 64) (hi : offset / E ≤ i) :
    segmentLen E offset len (cut E offset len i)
      = cut E offset len (i + 1) - cut E offset len i := by
  have hmod := Nat.mod_lt (offset + cut E offset len i) hE
  rw [segmentLen, segmentStart, sub64_of_le (cut_le_len ..) hlen,
    sub64_of_le (by omega) (by omega), cut_step hE hi]

/-- The running offset after extent `i`. -/
theorem cut_add_segmentLen (hE : 0 < E) (hE' : E ≤ 2 ^ 32)
    (hlen : len < 2 ^ 64) (hi : offset / E ≤ i) :
    cut E offset len i + segmentLen E offset len (cut E offset len i)
      = cut E offset len (i + 1) := by
  have hmono := cut_mono E offset len i
  rw [segmentLen_cut hE hE' hlen hi]
  omega

-- ============================================== the extent size of a file

theorem extentSize_eq : vivefsExtentSize = 65536 := by
  rw [vivefsExtentSize]

theorem extentSize_pos : 0 < vivefsExtentSize := by
  rw [vivefsExtentSize]
  decide

theorem extentSize_le : vivefsExtentSize ≤ 2 ^ 32 := by
  rw [vivefsExtentSize]
  decide

end ViveNas
