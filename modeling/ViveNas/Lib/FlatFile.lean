/-
A flat file: a byte array that grows by zeros, and its cut into pages.

This is what a paged store is for. A write past the end fills the gap
with the zero `z`; a read past the end reads it. `page` is the file's
content page by page, and a write, seen from one page, is the patch its
piece makes there (`page_write`): the fact a page-wise implementation of
`write` is proved against.
-/
import ViveNas.Lib.Overlay
import ViveNas.Lib.Paging

namespace FlatFile

open Overlay Paging

variable {α : Type} {z : α} {f data : List α} {E off i : Nat}

-- ============================================================= the file

/-- The element at a position; `z` past the end. -/
def byte (z : α) (f : List α) (x : Nat) : α := f.getD x z

/-- `data` written from `off` on, the file extended as needed. -/
def write (z : α) (f : List α) (off : Nat) (data : List α) : List α :=
  overwrite (f ++ List.replicate (off + data.length - f.length) z) off data

theorem write_length (z : α) (f : List α) (off : Nat) (data : List α) :
    (write z f off data).length = max f.length (off + data.length) := by
  have hin : off + data.length
      ≤ (f ++ List.replicate (off + data.length - f.length) z).length := by
    rw [List.length_append, List.length_replicate]
    omega
  rw [write, overwrite_length hin, List.length_append, List.length_replicate]
  omega

theorem byte_of_length_le {x : Nat} (h : f.length ≤ x) : byte z f x = z := by
  rw [byte, List.getD_eq_getElem?_getD, List.getElem?_eq_none h]
  rfl

/-- A write, read positionally. -/
theorem byte_write (x : Nat) :
    byte z (write z f off data) x
      = if off ≤ x ∧ x < off + data.length then byte z data (x - off)
        else byte z f x := by
  have hin : off + data.length
      ≤ (f ++ List.replicate (off + data.length - f.length) z).length := by
    rw [List.length_append, List.length_replicate]
    omega
  have hext : ((f ++ List.replicate (off + data.length - f.length) z)[x]?).getD
      z = byte z f x := by
    by_cases hx : x < f.length
    · rw [List.getElem?_append_left hx, byte, List.getD_eq_getElem?_getD]
    · rw [List.getElem?_append_right (by omega), List.getElem?_replicate,
        byte_of_length_le (by omega)]
      split <;> rfl
  rw [byte, List.getD_eq_getElem?_getD, write, overwrite_getElem? hin]
  by_cases hcov : off ≤ x ∧ x < off + data.length
  · rw [if_pos hcov, if_pos hcov, byte, List.getD_eq_getElem?_getD]
  · rw [if_neg hcov, if_neg hcov, hext]

-- ================================================================ pages

/-- Page `i` of the file. -/
def page (z : α) (E : Nat) (f : List α) (i : Nat) : List α :=
  (List.range E).map fun p => byte z f (i * E + p)

@[simp] theorem page_length : (page z E f i).length = E := by
  simp [page]

theorem page_getElem? {p : Nat} (hp : p < E) :
    (page z E f i)[p]? = some (byte z f (i * E + p)) := by
  rw [page, List.getElem?_map, List.getElem?_range hp]
  rfl

/-- A page of the empty file. -/
theorem page_nil : page z E [] i = List.replicate E z := by
  apply List.ext_getElem?
  intro p
  by_cases hp : p < E
  · rw [page_getElem? hp, List.getElem?_replicate_of_lt hp]
    rfl
  · rw [List.getElem?_eq_none (by rw [page_length]; omega),
      List.getElem?_eq_none (by rw [List.length_replicate]; omega)]

/-- The part of `data` that a write at `off` puts in page `i`, at its
place in the page. -/
def piece (E off : Nat) (data : List α) (i : Nat) : Patch α where
  off := (off + cut E off data.length i) % E
  data := (data.drop (cut E off data.length i)).take
    (cut E off data.length (i + 1) - cut E off data.length i)

theorem piece_data_length (E off : Nat) (data : List α) (i : Nat) :
    (piece E off data i).data.length
      = cut E off data.length (i + 1) - cut E off data.length i := by
  have h1 := cut_mono E off data.length i
  have h2 := cut_le_len E off data.length (i + 1)
  rw [piece, List.length_take, List.length_drop]
  omega

/-- A piece stays inside its page. -/
theorem piece_fits (hE : 0 < E) (hi : off / E ≤ i) (data : List α) :
    (piece E off data i).hi ≤ E := by
  have hmod := Nat.mod_lt (off + cut E off data.length i) hE
  rw [Patch.hi, piece_data_length, ← cut_step hE hi]
  simp only [piece]
  omega

/-- What a piece writes at a position of its page: the byte of the data
that belongs there, if any. -/
theorem piece_at? (hE : 0 < E) (hi : off / E ≤ i) {p : Nat} (hp : p < E) :
    (piece E off data i).at? p
      = if off ≤ i * E + p ∧ i * E + p < off + data.length
        then data[i * E + p - off]? else none := by
  have hmul : (i + 1) * E = i * E + E := Nat.succ_mul i E
  by_cases hmore : cut E off data.length i < data.length
  case neg =>
    -- the write ends before this page
    have hend : data.length ≤ i * E - off := by
      rw [cut] at hmore
      omega
    have hempty : (piece E off data i).data = [] := by
      apply List.eq_nil_of_length_eq_zero
      rw [piece_data_length]
      simp only [cut, hmul]
      omega
    rw [Patch.at?, hempty, if_neg (by omega :
      ¬ (off ≤ i * E + p ∧ i * E + p < off + data.length))]
    split <;> rfl
  case pos =>
    have hstart := cut_mod (E := E) hmore
    have hlen := piece_data_length E off data i
    have hplace : (piece E off data i).off
        + (i * E + p - off - cut E off data.length i) = p
        ∨ ¬ (off ≤ i * E + p ∧ (piece E off data i).off ≤ p) := by
      simp only [piece, hstart]
      by_cases hfirst : i * E ≤ off
      · have := mod_of_first hE hi hfirst
        rw [if_pos hfirst]
        simp only [cut]
        omega
      · rw [if_neg hfirst]
        simp only [cut] at hmore ⊢
        omega
    have hrange : (piece E off data i).off ≤ p
          ∧ p < (piece E off data i).off
              + (cut E off data.length (i + 1) - cut E off data.length i)
        ↔ off ≤ i * E + p ∧ i * E + p < off + data.length := by
      simp only [piece, hstart]
      by_cases hfirst : i * E ≤ off
      · have := mod_of_first hE hi hfirst
        rw [if_pos hfirst]
        simp only [cut, hmul] at hmore ⊢
        omega
      · rw [if_neg hfirst]
        simp only [cut, hmul] at hmore ⊢
        omega
    by_cases hcov : off ≤ i * E + p ∧ i * E + p < off + data.length
    · obtain ⟨hlo, hhi⟩ := hrange.mpr hcov
      have hidx : p - (piece E off data i).off
          = i * E + p - off - cut E off data.length i := by omega
      have hcut : cut E off data.length i ≤ i * E + p - off := by
        rw [cut]
        omega
      rw [Patch.at?, if_pos hlo, if_pos hcov, hidx]
      show ((data.drop _).take _)[_]? = _
      rw [List.getElem?_take_of_lt (by omega), List.getElem?_drop]
      congr 1
      omega
    · rw [if_neg hcov, Patch.at?_eq_none_iff, Patch.hi, hlen]
      exact fun h => hcov (hrange.mp h)

/-- A write seen from a page it reaches. -/
theorem page_write (hE : 0 < E) (hi : off / E ≤ i) :
    page z E (write z f off data) i
      = (piece E off data i).apply (page z E f i) := by
  have hfit : (piece E off data i).hi ≤ (page z E f i).length := by
    rw [page_length]
    exact piece_fits hE hi data
  apply List.ext_getElem?
  intro p
  rw [Patch.apply_getElem? hfit]
  by_cases hp : p < E
  · rw [page_getElem? hp, page_getElem? hp, piece_at? hE hi hp, byte_write]
    by_cases hcov : off ≤ i * E + p ∧ i * E + p < off + data.length
    · rw [if_pos hcov, if_pos hcov, byte, List.getD_eq_getElem?_getD,
        List.getElem?_eq_getElem (by omega)]
      rfl
    · rw [if_neg hcov, if_neg hcov]
      rfl
  · have hnone : (piece E off data i).at? p = none := by
      rw [Patch.at?_eq_none_iff]
      have := piece_fits hE hi data
      omega
    rw [List.getElem?_eq_none (by rw [page_length]; omega), hnone,
      List.getElem?_eq_none (by rw [page_length]; omega)]
    rfl

/-- A write seen from a page it does not reach. -/
theorem page_write_of_outside
    (hout : (i + 1) * E ≤ off ∨ off + data.length ≤ i * E) :
    page z E (write z f off data) i = page z E f i := by
  have hmul : (i + 1) * E = i * E + E := Nat.succ_mul i E
  apply List.map_congr_left
  intro p hp
  have hp' := List.mem_range.mp hp
  rw [byte_write, if_neg (by omega)]

end FlatFile
