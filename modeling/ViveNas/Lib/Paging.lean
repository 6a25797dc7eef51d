/-
Cutting a byte range into pages.

A range of `len` bytes from `offset` is walked page by page. Before page
`i` is visited, `cut E offset len i` bytes of the range lie behind: the
whole walk is described by this one closed form, with no reference to
the pages already visited. The piece of page `i` is then the range's
bytes from `cut i` to `cut (i + 1)`, and byte `k` of the range falls in
it exactly when `(offset + k) / E = i` (`cut_page_iff`).
-/
import Mathlib

namespace Paging

variable {E offset len i k : Nat}

/-- How many bytes of the range lie before page `i`. -/
def cut (E offset len i : Nat) : Nat := min len (i * E - offset)

theorem cut_le_len (E offset len i : Nat) : cut E offset len i ≤ len :=
  Nat.min_le_left _ _

theorem cut_mono (E offset len i : Nat) :
    cut E offset len i ≤ cut E offset len (i + 1) := by
  have hmul : (i + 1) * E = i * E + E := Nat.succ_mul i E
  simp only [cut, hmul]
  omega

theorem cut_le_cut (E offset len : Nat) {j : Nat} (h : i ≤ j) :
    cut E offset len i ≤ cut E offset len j := by
  have hmul := Nat.mul_le_mul_right E h
  rw [cut, cut]
  omega

/-- Nothing lies before the page the range starts in. -/
theorem cut_first (E offset len : Nat) : cut E offset len (offset / E) = 0 := by
  have h : offset / E * E ≤ offset := Nat.div_mul_le_self offset E
  rw [cut]
  omega

/-- The whole range lies before any page past its end. -/
theorem cut_last (h : offset + len ≤ i * E) : cut E offset len i = len := by
  rw [cut]
  omega

/-- The offset of the next byte inside its page: the range's own offset
on the first page, the page's start on every later one. -/
theorem cut_mod (hmore : cut E offset len i < len) :
    (offset + cut E offset len i) % E
      = if i * E ≤ offset then offset % E else 0 := by
  rw [cut] at hmore ⊢
  by_cases hfirst : i * E ≤ offset
  · rw [if_pos hfirst, Nat.sub_eq_zero_of_le hfirst, Nat.min_zero,
      Nat.add_zero]
  · have hcut : offset + min len (i * E - offset) = i * E := by omega
    rw [if_neg hfirst, hcut, Nat.mul_mod_left]

/-- The only page that starts at or before the range is its first. -/
theorem mod_of_first (hE : 0 < E) (hi : offset / E ≤ i)
    (hfirst : i * E ≤ offset) : i * E + offset % E = offset := by
  have hq : offset / E = i :=
    Nat.le_antisymm hi ((Nat.le_div_iff_mul_le hE).mpr hfirst)
  have hdm := Nat.div_add_mod offset E
  rwa [hq, Nat.mul_comm] at hdm

/-- The step of the walk: the smaller of what is left of the range and
of the page. -/
theorem cut_step (hE : 0 < E) (hi : offset / E ≤ i) :
    min (len - cut E offset len i) (E - (offset + cut E offset len i) % E)
      = cut E offset len (i + 1) - cut E offset len i := by
  have hmul : (i + 1) * E = i * E + E := Nat.succ_mul i E
  by_cases hmore : cut E offset len i < len
  case neg =>
    have hle := cut_le_len E offset len i
    have hle' := cut_le_len E offset len (i + 1)
    have hmono := cut_mono E offset len i
    omega
  case pos =>
    rw [cut_mod hmore]
    by_cases hfirst : i * E ≤ offset
    · have hmod := mod_of_first hE hi hfirst
      have hlt := Nat.mod_lt offset hE
      rw [if_pos hfirst]
      simp only [cut, hmul]
      omega
    · rw [if_neg hfirst]
      simp only [cut, hmul] at hmore ⊢
      omega

/-- A page the range reaches has a piece of it. -/
theorem cut_lt_step (hE : 0 < E) (hlen : 0 < len) (hi : offset / E ≤ i)
    (hreach : i * E < offset + len) :
    cut E offset len i < cut E offset len (i + 1) := by
  have hmul : (i + 1) * E = i * E + E := Nat.succ_mul i E
  have hfirst : offset < i * E + E := by
    have hdiv := Nat.lt_succ_iff.mpr hi
    rwa [Nat.div_lt_iff_lt_mul hE, Nat.succ_mul] at hdiv
  simp only [cut, hmul]
  omega

/-- The pieces of consecutive pages, added up. -/
theorem sum_cut_steps (E offset len i n : Nat) :
    ((List.range' i n).map fun j =>
        cut E offset len (j + 1) - cut E offset len j).sum
      = cut E offset len (i + n) - cut E offset len i := by
  induction n generalizing i with
  | zero => rw [Nat.add_zero, Nat.sub_self]; rfl
  | succ n ih =>
      have hstep := cut_mono E offset len i
      have hrest := cut_le_cut E offset len (Nat.le_add_right (i + 1) n)
      rw [List.range'_succ, List.map_cons, List.sum_cons, ih,
        show i + (n + 1) = i + 1 + n by omega]
      omega

/-- A byte of the range is in the piece of its own page. -/
theorem cut_page_iff (hE : 0 < E) (hi : offset / E ≤ i) :
    cut E offset len i ≤ k ∧ k < cut E offset len (i + 1)
      ↔ k < len ∧ (offset + k) / E = i := by
  have hmul : (i + 1) * E = i * E + E := Nat.succ_mul i E
  have hfirst : offset < i * E + E := by
    have hdiv := Nat.lt_succ_iff.mpr hi
    rwa [Nat.div_lt_iff_lt_mul hE, Nat.succ_mul] at hdiv
  rw [Nat.div_eq_iff hE, cut, cut, hmul]
  omega

/-- Where a byte of the range falls inside its page. -/
theorem cut_offset (hE : 0 < E) (hi : offset / E ≤ i)
    (hlo : cut E offset len i ≤ k) (hhi : k < cut E offset len (i + 1)) :
    (offset + cut E offset len i) % E + (k - cut E offset len i)
      = (offset + k) % E := by
  have hmore : cut E offset len i < len := by
    have := cut_le_len E offset len (i + 1)
    omega
  obtain ⟨hk, hpage⟩ := (cut_page_iff hE hi).mp ⟨hlo, hhi⟩
  have hdm := Nat.div_add_mod (offset + k) E
  rw [hpage, Nat.mul_comm] at hdm
  rw [cut_mod hmore]
  by_cases hfirst : i * E ≤ offset
  · have hmod := mod_of_first hE hi hfirst
    have hcut : cut E offset len i = 0 := by
      rw [cut]
      omega
    rw [if_pos hfirst]
    omega
  · rw [if_neg hfirst]
    simp only [cut] at hlo hmore ⊢
    omega

end Paging
