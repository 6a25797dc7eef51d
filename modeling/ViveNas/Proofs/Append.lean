/-
What a writable file holds after its appends.

An `Append` that returns OK has put its data behind what was there
(`append_ok`), so a sequence of them leaves the bytes the file was opened
with, and the data behind these (`Appends.kept`). `NewWritableFile`
opens with O_CREAT and nothing else: of a name that exists it keeps the
content. A new writable file therefore starts empty exactly if there was
nothing to keep.
-/
import ViveNas.PfAof
import ViveNas.Proofs.SeqFile
import ViveNas.Proofs.AofNames

namespace ViveNas

open PfAofFileSystem

variable {pf pf' : PureFlash} {file : PfAofWriteableFile} {fname : FileName}
  {content : AofContent}

-- ============================================================== one call

/-- An `Append` that returns OK has appended. -/
theorem append_ok {data : Bytes} {out : PfOutcome}
    (happend : file.append pf data out = (.ok, pf'))
    (hcontent : pf file.aof.path = some content) :
    ∃ content', pf' file.aof.path = some content'
      ∧ content'.val = content.val ++ data := by
  rw [PfAofWriteableFile.append] at happend
  cases out with
  | failed code neg =>
      rw [aofAppend] at happend
      dsimp only at happend
      rw [if_pos (by omega)] at happend
      cases happend
  | done =>
      rw [aofAppend, hcontent] at happend
      dsimp only at happend
      split at happend
      case isTrue h =>
        simp only [ne_eq, not_true_eq_false, if_false, Prod.mk.injEq,
          true_and] at happend
        rw [← happend, Function.update_self]
        exact ⟨_, rfl, rfl⟩
      case isFalse =>
        have hneg : -eio ≠ (data.length : Int) := by
          rw [eio]
          omega
        rw [if_pos hneg] at happend
        cases happend

/-- The file `NewWritableFile` returns holds what the name held. -/
theorem newWritableFile_content {out : PfOutcome}
    (hnew : newWritableFile pf fname out = ((.ok, some file), pf')) :
    file.aof.path = fname
      ∧ pf' fname = some ((pf fname).getD AofContent.empty) := by
  cases out with
  | failed code neg => cases hnew
  | done =>
      have hcreat : hasFlag (oCreat ||| oRdwr) oCreat = true := by decide
      rw [newWritableFile, newFileObject, pfOpenAof] at hnew
      cases hf : pf fname with
      | some content =>
          rw [hf] at hnew
          cases hnew
          exact ⟨rfl, hf⟩
      | none =>
          rw [hf] at hnew
          dsimp only at hnew
          rw [if_pos hcreat] at hnew
          cases hnew
          exact ⟨rfl, Function.update_self ..⟩

theorem newWritableFile_done (pf : PureFlash) (fname : FileName) :
    ∃ pf', newWritableFile pf fname .done
      = ((.ok, some ⟨⟨fname⟩, fname⟩), pf') := by
  have hcreat : hasFlag (oCreat ||| oRdwr) oCreat = true := by decide
  rw [newWritableFile, newFileObject, pfOpenAof]
  cases pf fname with
  | some content => exact ⟨_, rfl⟩
  | none =>
      dsimp only
      rw [if_pos hcreat]
      exact ⟨_, rfl⟩

/-- A reader gets the whole file. -/
theorem readAll_eq (content : AofContent) (fname : FileName) :
    PfAofSeqFile.readAll content ⟨0, fname⟩ = some content.val := by
  have hlen := content.property
  have hn : (UInt64.ofNat content.val.length).toNat = content.val.length := by
    rw [UInt64.toNat_ofNat']
    exact Nat.mod_eq_of_lt (by omega)
  have hall : nextBytes content [] (UInt64.ofNat content.val.length)
      = content.val := by
    rw [nextBytes, hn]
    exact List.take_length
  have hinit : CursorInv content [] (PfAofSeqFile.mk 0 fname) :=
    cursorInv_init rfl
  rw [PfAofSeqFile.readAll, read_done hinit, hall]

theorem readBack_eq (hcontent : pf fname = some content) :
    readBack pf fname = some content.val := by
  rw [readBack, newSequentialFile, newFileObject, pfOpenAof, hcontent]
  dsimp only
  rw [hcontent, Option.bind_some]
  exact readAll_eq content fname

-- ======================================================= whole sequences

/-- Appends that return OK keep what is there, and put their data behind
it. -/
theorem Appends.kept {datas : List Bytes}
    (happends : Appends file pf datas pf')
    (hcontent : pf file.aof.path = some content) :
    ∃ content', pf' file.aof.path = some content'
      ∧ content'.val = content.val ++ datas.flatten := by
  induction happends generalizing content with
  | nil pf =>
      refine ⟨content, hcontent, ?_⟩
      rw [List.flatten_nil, List.append_nil]
  | cons happend hrest ih =>
      obtain ⟨mid, hmid, hval⟩ := append_ok happend hcontent
      obtain ⟨last, hlast, hval'⟩ := ih hmid
      refine ⟨last, hlast, ?_⟩
      rw [hval', hval, List.flatten_cons, List.append_assoc]

/-- A file just returned by `NewWritableFile` holds, after any appends
that return OK, their data and no more; both `GetFileSize` say how much
that is. -/
def StartsEmpty (pf : PureFlash) (fname : FileName) : Prop :=
  ∀ out file opened datas written,
    newWritableFile pf fname out = ((.ok, some file), opened) →
    Appends file opened datas written →
    readBack written fname = some datas.flatten
      ∧ file.getFileSize written = datas.flatten.length
      ∧ getFileSize written fname .done
        = ((.ok, some datas.flatten.length), written)

/-- What a sequence of appends leaves, through every way to look at it. -/
theorem written_eq {out : PfOutcome} {datas : List Bytes}
    {opened written : PureFlash}
    (hnew : newWritableFile pf fname out = ((.ok, some file), opened))
    (happends : Appends file opened datas written) :
    let bytes := ((pf fname).getD AofContent.empty).val ++ datas.flatten
    readBack written fname = some bytes
      ∧ file.getFileSize written = bytes.length
      ∧ getFileSize written fname .done
        = ((.ok, some bytes.length), written) := by
  obtain ⟨hpath, hopened⟩ := newWritableFile_content hnew
  rw [← hpath] at hopened
  obtain ⟨last, hlast, hval⟩ := happends.kept hopened
  have hlast' : written fname = some last := hpath ▸ hlast
  intro bytes
  have hbytes : last.val = bytes := by
    rw [hval, hpath]
  refine ⟨?_, ?_, ?_⟩
  · rw [readBack_eq hlast', hbytes]
  · rw [PfAofWriteableFile.getFileSize, aofFileLength, hlast, ← hbytes]
  · rw [getFileSize, pfOpenAof, hlast', ← hbytes]
    dsimp only
    rw [hlast']
    rfl

/-- A new writable file starts empty exactly if its name was free, or
held nothing. -/
theorem writable_starts_empty_iff (pf : PureFlash) (fname : FileName) :
    StartsEmpty pf fname
      ↔ ∀ content, pf fname = some content → content.val = [] := by
  constructor
  · intro h content hcontent
    obtain ⟨opened, hnew⟩ := newWritableFile_done pf fname
    obtain ⟨hread, -⟩ := h .done _ opened [] opened hnew (.nil opened)
    obtain ⟨hread', -⟩ := written_eq hnew (.nil opened)
    rw [hread', hcontent, List.flatten_nil, List.append_nil] at hread
    exact Option.some.inj hread
  · intro h out file opened datas written hnew happends
    have hstart : ((pf fname).getD AofContent.empty).val = [] := by
      cases hf : pf fname with
      | none => rfl
      | some content => exact h content hf
    have hwritten := written_eq hnew happends
    rw [hstart] at hwritten
    exact hwritten

-- ----------------------------------------------------- a file kept

/-- A file of one byte. -/
def leftover : PureFlash :=
  Function.update (fun _ => none) aofA (some ⟨[1], by decide⟩)

/-- `NewWritableFile` of a name that exists keeps its byte, and an
`Append` goes behind it. -/
theorem writable_keeps_content :
    ∃ file opened written,
      newWritableFile leftover aofA .done = ((.ok, some file), opened)
        ∧ Appends file opened [[2]] written
        ∧ readBack written aofA = some [1, 2]
        ∧ file.getFileSize written = 2
        ∧ ¬ StartsEmpty leftover aofA := by
  have hnew : newWritableFile leftover aofA .done
      = ((.ok, some ⟨⟨aofA⟩, aofA⟩), leftover) := rfl
  have happend : PfAofWriteableFile.append leftover ⟨⟨aofA⟩, aofA⟩ [2] .done
      = (.ok, Function.update leftover aofA (some ⟨[1, 2], by decide⟩)) := rfl
  have happends : Appends ⟨⟨aofA⟩, aofA⟩ leftover [[2]]
      (Function.update leftover aofA (some ⟨[1, 2], by decide⟩)) :=
    .cons happend (.nil _)
  obtain ⟨hread, hsize, -⟩ := written_eq hnew happends
  refine ⟨_, _, _, hnew, happends, hread, hsize, fun h => ?_⟩
  obtain ⟨hread', -⟩ := h _ _ _ _ _ hnew happends
  rw [hread] at hread'
  cases hread'

end ViveNas
