/-
Writes of no bytes.

Both calls round the end of the range up, so at an offset inside an extent
an empty range still reaches that extent. `vn_write` then merges a delta
of no data into it, which changes no byte but makes the extent exist;
`vn_writev` asserts that the piece is not empty and stops. Both then
compare `offset + len` with the size and grow the file to an offset past
its end.
-/
import ViveNas.Proofs.Truncate

namespace ViveNas

open Overlay Paging FlatFile

variable {w : World} {file : ViveFile} {offset : Nat}

/-- The call returns 0 and leaves the file as it was: its size in memory
and in its record, its extents and its bytes. -/
def NoEffect (w : World) (file : ViveFile) (p : Fs (Int × ViveFile)) :
    Prop :=
  ∃ file' w', p.exec w = .ok ((0, file'), w')
    ∧ file'.inode.iSize = file.inode.iSize
    ∧ (∀ rec, w.db.HasRecord file.iNo.toNat rec →
      ∃ rec', w'.db.HasRecord file.iNo.toNat rec' ∧ rec'.iSize = rec.iSize)
    ∧ (∀ idx < 2 ^ 64, w'.db.dataCf[vnExtentKey idx file.iNo.toNat]? = none
      ↔ w.db.dataCf[vnExtentKey idx file.iNo.toNat]? = none)
    ∧ ∀ x < 2 ^ 64,
      content w'.db file.iNo.toNat x = content w.db file.iNo.toNat x

-- ========================================================= an empty range

/-- An empty range reaches the extent it lies inside, and no other. -/
theorem empty_reaches_iff {E : Nat} (hE : 0 < E) (offset j : Nat) :
    (offset / E ≤ j ∧ j < (offset + 0 + E - 1) / E)
      ↔ j = offset / E ∧ offset % E ≠ 0 := by
  have hdm := Nat.div_add_mod offset E
  have hmod := Nat.mod_lt offset hE
  by_cases halign : offset % E = 0
  · have hround : (offset + 0 + E - 1) / E = offset / E := by
      refine Nat.div_eq_of_lt_le ?_ ?_
      · rw [Nat.mul_comm]
        omega
      · rw [Nat.succ_mul, Nat.mul_comm]
        omega
    omega
  · have hround : (offset + 0 + E - 1) / E = offset / E + 1 := by
      refine Nat.div_eq_of_lt_le ?_ ?_
      · rw [Nat.succ_mul, Nat.mul_comm]
        omega
      · rw [Nat.succ_mul, Nat.succ_mul, Nat.mul_comm]
        omega
    omega

theorem empty_turns_iff {E : Nat} (hE : 0 < E) (hE' : E ≤ 2 ^ 32)
    (hoff : offset < 2 ^ 63) :
    extentTurns E offset 0 = 0 ↔ offset % E = 0 := by
  have hturns := startExt_add_turns hE hE' (show offset + 0 < 2 ^ 63 by omega)
  have hreach := empty_reaches_iff hE offset (offset / E)
  rw [startExt] at hturns
  omega

/-- The piece of no data. -/
theorem empty_piece_apply (E : Nat) (j : Nat) (held : Bytes) :
    (piece E offset ([] : Bytes) j).apply held = held := by
  have hempty : (piece E offset ([] : Bytes) j).data = [] := by
    rw [piece, List.drop_nil, List.take_nil]
  rw [Patch.apply, hempty, overwrite, List.append_nil, List.length_nil,
    Nat.add_zero, List.take_append_drop]

-- =============================================================== the calls

section Empty

variable (hcalm : Calm w)
  (hE : file.inode.iExtentSize.toNat = vivefsExtentSize)
  (hheld : ∀ idx, ∃ held, Holds w.db.dataCf[vnExtentKey idx
    file.iNo.toNat]? held)
  (hoff : offset < 2 ^ 63)
include hcalm hE hheld hoff

theorem noEffect_write_iff :
    NoEffect w file (vnWrite file [] offset)
      ↔ offset ≤ file.inode.iSize.toNat
        ∧ (offset % vivefsExtentSize = 0
          ∨ w.db.dataCf[vnExtentKey (offset / vivefsExtentSize)
            file.iNo.toNat]? ≠ none) := by
  have hpos := extentSize_pos
  have hexec := exec_vnWrite hcalm file (by omega)
    (show offset + ([] : Bytes).length < 2 ^ 63 from hoff)
  rw [hE, List.length_nil] at hexec
  -- the one extent the call may touch
  have hextent : ∀ idx < 2 ^ 64, (w.committed .dataOpt
      (writeOps file.iNo.toNat vivefsExtentSize offset []
        ++ growOps file w.clock (offset + 0))).db.dataCf[
          vnExtentKey idx file.iNo.toNat]?
      = if idx = offset / vivefsExtentSize ∧ offset % vivefsExtentSize ≠ 0
        then (segmentOp file.iNo.toNat vivefsExtentSize offset [] idx).onData
          (vnExtentKey idx file.iNo.toNat)
          w.db.dataCf[vnExtentKey idx file.iNo.toNat]?
        else w.db.dataCf[vnExtentKey idx file.iNo.toNat]? := by
    intro idx hidx
    rw [committed_db, ← if_congr (empty_reaches_iff hpos offset idx) rfl rfl]
    exact writeOps_extent w.db file.iNo.toNat_lt hpos extentSize_le hoff file
      w.clock hidx
  have hsize := wroteFile_iSize file w.clock
    (show offset + 0 < 2 ^ 64 by omega)
  constructor
  · rintro ⟨file', w', hx, hsame, -, hpresent, -⟩
    cases hexec.symm.trans hx
    rw [hsame] at hsize
    refine ⟨by omega, or_iff_not_imp_left.mpr fun halign hnone => ?_⟩
    have hidx : offset / vivefsExtentSize < 2 ^ 64 :=
      Nat.lt_of_le_of_lt (Nat.div_le_self _ _) (by omega)
    have hafter := (hpresent _ hidx).mpr hnone
    rw [hextent _ hidx, if_pos ⟨rfl, halign⟩] at hafter
    exact segmentOp_onData_self _ hafter
  · rintro ⟨hle, hpresent⟩
    refine ⟨_, _, hexec, ?_, ?_, ?_, ?_⟩
    · rw [← UInt64.toNat_inj, hsize]
      omega
    · rintro rec ⟨v, hv, hrec⟩
      refine ⟨rec, ⟨v, ?_, hrec⟩, rfl⟩
      rw [committed_db, writeOps_meta, if_neg (by omega)]
      exact hv
    · intro idx hidx
      rw [hextent idx hidx]
      split
      case isTrue hin =>
        obtain ⟨rfl, halign⟩ := hin
        exact iff_of_false (segmentOp_onData_self _)
          (hpresent.resolve_left halign)
      case isFalse => exact Iff.rfl
    · intro x hx
      have hidx : x / vivefsExtentSize < 2 ^ 64 :=
        Nat.lt_of_le_of_lt (Nat.div_le_self _ _) hx
      obtain ⟨held, hheld⟩ := hheld (x / vivefsExtentSize)
      have hafter : Holds (w.committed .dataOpt
          (writeOps file.iNo.toNat vivefsExtentSize offset []
            ++ growOps file w.clock (offset + 0))).db.dataCf[
              vnExtentKey (x / vivefsExtentSize) file.iNo.toNat]? held := by
        rw [hextent _ hidx]
        split
        case isTrue hin =>
          rw [← empty_piece_apply vivefsExtentSize _ held]
          exact segmentOp_apply hheld (Nat.le_of_eq hin.1.symm)
        case isFalse => exact hheld
      rw [content, content, hafter.extentByte, hheld.extentByte]

theorem noEffect_writev_iff {iov : List Bytes} (hiov : ∀ b ∈ iov, b = []) :
    NoEffect w file (vnWritev file iov offset)
      ↔ offset ≤ file.inode.iSize.toNat
        ∧ offset % vivefsExtentSize = 0 := by
  have hnil : iov.flatten = [] := List.flatten_eq_nil_iff.mpr hiov
  have hturns := empty_turns_iff extentSize_pos extentSize_le hoff
  by_cases halign : offset % vivefsExtentSize = 0
  · rw [vnWritev_eq_of_alive file (by rw [hnil]; decide) (by
      rw [hE, not_and_not_right]
      exact fun _ => hturns.mpr halign), hnil,
      noEffect_write_iff hcalm hE hheld hoff]
    exact and_congr_right fun _ => iff_of_true (Or.inl halign) halign
  · have hdies : (vnWritev file iov offset).exec w = .error .assertFailed :=
      vnWritev_dies hnil (by rw [hE]; exact fun h => halign (hturns.mp h))
    refine iff_of_false ?_ fun h => halign h.2
    rintro ⟨file', w', hexec, -⟩
    rw [hdies] at hexec
    cases hexec

end Empty

/-- A write of no bytes has no effect exactly when it starts inside the
file and either at the start of an extent or, through `vn_write`, inside
one that is there. -/
theorem zero_writes_iff (w : World) (hcalm : Calm w) (file : ViveFile)
    (hE : file.inode.iExtentSize.toNat = vivefsExtentSize)
    (hheld : ∀ idx, ∃ held, Holds w.db.dataCf[vnExtentKey idx
      file.iNo.toNat]? held)
    (offset : Nat) (hoff : offset < 2 ^ 63) (iov : List Bytes)
    (hiov : ∀ b ∈ iov, b = []) :
    (NoEffect w file (vnWrite file [] offset)
        ↔ offset ≤ file.inode.iSize.toNat
          ∧ (offset % vivefsExtentSize = 0
            ∨ w.db.dataCf[vnExtentKey (offset / vivefsExtentSize)
              file.iNo.toNat]? ≠ none))
      ∧ (NoEffect w file (vnWritev file iov offset)
        ↔ offset ≤ file.inode.iSize.toNat
          ∧ offset % vivefsExtentSize = 0) :=
  ⟨noEffect_write_iff hcalm hE hheld hoff,
    noEffect_writev_iff hcalm hE hheld hoff hiov⟩

/-- At the start of the short file neither call does anything. -/
theorem zero_writes_iff_start :
    NoEffect shortWorld shortFile (vnWrite shortFile [] 0)
      ∧ NoEffect shortWorld shortFile (vnWritev shortFile [[], []] 0) := by
  have hlaw := zero_writes_iff shortWorld rfl shortFile shortFile_extentSize
    (shortWorld_held _) 0 (by decide) [[], []] (by decide)
  exact ⟨hlaw.1.mpr ⟨Nat.zero_le _, Or.inl (Nat.zero_mod _)⟩,
    hlaw.2.mpr ⟨Nat.zero_le _, Nat.zero_mod _⟩⟩

/-- Past the end of the short file `vn_write` grows it; inside it
`vn_writev` stops the program. -/
theorem zero_writes_act :
    ¬ NoEffect shortWorld shortFile (vnWrite shortFile [] 3)
      ∧ ¬ NoEffect shortWorld shortFile (vnWritev shortFile [] 1) := by
  have hcalm : Calm shortWorld := rfl
  refine ⟨fun h => ?_, fun h => ?_⟩
  · have hle := (noEffect_write_iff hcalm shortFile_extentSize
      (shortWorld_held _) (by decide)).mp h
    exact absurd hle.1 (by decide)
  · have halign := (noEffect_writev_iff hcalm shortFile_extentSize
      (shortWorld_held _) (by decide) (fun b hb => by cases hb)).mp h
    rw [extentSize_eq] at halign
    exact absurd halign.2 (by decide)

end ViveNas
