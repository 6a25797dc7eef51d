/-
The cursor of a sequential file, over whole runs of calls.

`cursor` is where the calls of a run should have left a reader: past the
bytes it was given, and no further than the end of the file after a
`Skip`.

# Where it goes wrong

`PfAofSeqFile` keeps to it exactly as long as no `Read` fails and no
`Skip` leads past the end (`cursor_step_iff`). A failed `Read` adds its
negative code to the cursor, so that the next one repeats bytes the
reader already has; a `Skip` too far is not stopped.
-/
import ViveNas.PfAof

namespace ViveNas

-- ======================================================== what is expected

/-- The bytes a call added to what its caller has read in order. -/
def SeqEvent.delivered (e : SeqEvent) : Bytes :=
  match e.call, e.status, e.result with
  | .read .., .ok, some bytes => bytes
  | _, _, _ => []

/-- All bytes of the successful `Read`s, from events newest first. -/
def delivered : List SeqEvent → Bytes
  | [] => []
  | e :: tr => delivered tr ++ e.delivered

/-- Where the events, newest first, should have left the cursor of a file
of `length` bytes. -/
def cursor (length : Nat) : List SeqEvent → Nat
  | [] => 0
  | e :: tr =>
    match e.call with
    | .read .. => cursor length tr + e.delivered.length
    | .positionedRead .. => cursor length tr
    | .skip n => min length (cursor length tr + n.toNat)

/-- No event of the run is a `Skip`. -/
def Unskipped (tr : List SeqEvent) : Prop :=
  ∀ e ∈ tr, ∀ n, e.call ≠ .skip n

theorem Unskipped.tail {e : SeqEvent} {tr : List SeqEvent}
    (h : Unskipped (e :: tr)) : Unskipped tr :=
  fun q hq => h q (List.mem_cons_of_mem _ hq)

-- ============================================================== one call

/-- The call is no `Read` that fails and no `Skip` past the end. -/
def InOrder (content : AofContent) (file : PfAofSeqFile) : SeqCall → Prop
  | .read _ .done => True
  | .read _ (.failed _ _) => False
  | .positionedRead _ _ _ => True
  | .skip n => file.offset + n.toNat ≤ content.val.length

/-- The cursor is where it should be, inside the file, and without a
`Skip` everything before it has been delivered. -/
structure CursorInv (content : AofContent) (tr : List SeqEvent)
    (file : PfAofSeqFile) : Prop where
  offset : file.offset = cursor content.val.length tr
  within : cursor content.val.length tr ≤ content.val.length
  reads : Unskipped tr →
    delivered tr = content.val.take (cursor content.val.length tr)

section Call

variable {content : AofContent} {tr : List SeqEvent}
  {file file' : PfAofSeqFile} {c : SeqCall} {status : IOStatus}
  {result : Option Bytes}

theorem addOff_ok {a b : Int} (hlow : -2 ^ 63 ≤ a + b) (hhigh : a + b < 2 ^ 63) :
    addOff a b = .ok (a + b) :=
  if_pos ⟨hlow, hhigh⟩

/-- A `Read` that fails moves the cursor by its code. -/
theorem read_failed {n : UInt64} {code : Int} {neg : code < 0}
    (hstep : file.step content (.read n (.failed code neg))
      = .ok ((status, result), file')) :
    status ≠ .ok ∧ file'.offset = file.offset + code := by
  rw [PfAofSeqFile.step] at hstep
  obtain ⟨offset, hoff, hret⟩ := ok_of_bind hstep
  rw [addOff] at hoff
  split at hoff
  case isFalse => cases hoff
  case isTrue =>
    obtain rfl := Except.ok.inj hoff
    change (if code < 0 then _ else _) = _ at hret
    rw [if_pos neg] at hret
    cases hret
    exact ⟨nofun, rfl⟩

/-- What a `Read` of `n` bytes at the expected place delivers. -/
def nextBytes (content : AofContent) (tr : List SeqEvent) (n : UInt64) :
    Bytes :=
  (content.val.drop (cursor content.val.length tr)).take n.toNat

theorem nextBytes_within (h : CursorInv content tr file) (n : UInt64) :
    cursor content.val.length tr + (nextBytes content tr n).length
      ≤ content.val.length := by
  have hwithin := h.within
  have hlen : (nextBytes content tr n).length
      ≤ content.val.length - cursor content.val.length tr := by
    rw [nextBytes, List.length_take, List.length_drop]
    exact Nat.min_le_right _ _
  omega

theorem take_append_nextBytes (n : UInt64) :
    content.val.take (cursor content.val.length tr) ++ nextBytes content tr n
      = content.val.take (cursor content.val.length tr
          + (nextBytes content tr n).length) := by
  rw [List.take_add, nextBytes, List.length_take, ← List.take_eq_take_min]

theorem read_done (h : CursorInv content tr file) (n : UInt64) :
    file.read content n .done
      = .ok ((.ok, some (nextBytes content tr n)), { file with
          offset := file.offset + (nextBytes content tr n).length }) := by
  have hfits := content.property
  have hwithin := nextBytes_within h n
  have hoff := h.offset
  have hbytes : content.available n.toNat file.offset
      = nextBytes content tr n := by
    rw [AofContent.available, hoff, if_neg (by omega), Int.toNat_natCast]
    rfl
  have hpread : aofPread content n.toNat file.offset .done
      = (((nextBytes content tr n).length : Int), nextBytes content tr n) := by
    rw [← hbytes]
    rfl
  rw [PfAofSeqFile.read, hpread]
  show (addOff file.offset (nextBytes content tr n).length >>= _) = _
  rw [addOff_ok (by omega) (by omega), ok_bind]
  exact if_neg (by omega)

theorem read_done_inv (h : CursorInv content tr file) {n : UInt64}
    (hstep : file.step content (.read n .done)
      = .ok ((status, result), file')) :
    status = .ok ∧ result = some (nextBytes content tr n)
      ∧ file'.offset = file.offset + (nextBytes content tr n).length := by
  obtain ⟨hret, rfl⟩ := Prod.mk.inj
    (Except.ok.inj ((read_done h n).symm.trans hstep))
  obtain ⟨rfl, rfl⟩ := Prod.mk.inj hret
  exact ⟨rfl, rfl, rfl⟩

/-- A `Skip` moves the cursor as it should exactly if that is inside the
file. -/
theorem skip_offset_iff (h : CursorInv content tr file) (n : UInt64) :
    (file.skip n).2.offset
        = min content.val.length (cursor content.val.length tr + n.toNat)
      ↔ file.offset + n.toNat ≤ content.val.length := by
  have hfits := content.property
  have hwithin := h.within
  have hoff := h.offset
  have hn := n.toNat_lt
  show asInt64 ((file.offset + n.toNat) % 2 ^ 64).toNat = _ ↔ _
  rw [asInt64]
  constructor
  · intro heq
    by_contra hpast
    split at heq <;> omega
  · intro hle
    rw [if_pos (by omega)]
    omega

/-- After a call the cursor is where it should be exactly if the call was
in order. -/
theorem cursor_step_iff (h : CursorInv content tr file)
    (hstep : file.step content c = .ok ((status, result), file')) :
    file'.offset = cursor content.val.length (⟨c, status, result⟩ :: tr)
      ↔ InOrder content file c := by
  have hoff := h.offset
  cases c with
  | read n out =>
      cases out with
      | done =>
          obtain ⟨rfl, rfl, hmoved⟩ := read_done_inv h hstep
          refine iff_of_true ?_ trivial
          rw [hmoved, hoff]
          exact (Nat.cast_add _ _).symm
      | failed code neg =>
          obtain ⟨hstatus, hmoved⟩ := read_failed hstep
          refine iff_of_false ?_ id
          have hnone : SeqEvent.delivered ⟨.read n (.failed code neg), status,
              result⟩ = [] := by
            cases status with
            | ok => exact absurd rfl hstatus
            | _ => rfl
          show file'.offset ≠ ((cursor _ tr + List.length _ : Nat) : Int)
          rw [hnone, hmoved, hoff]
          simp only [List.length_nil]
          omega
  | positionedRead pos n out =>
      obtain ⟨-, rfl⟩ := Prod.mk.inj (Except.ok.inj hstep)
      exact iff_of_true hoff trivial
  | skip n =>
      obtain ⟨-, rfl⟩ := Prod.mk.inj (Except.ok.inj hstep)
      exact skip_offset_iff h n

/-- A call that is in order returns. -/
theorem step_returns (h : CursorInv content tr file)
    (hok : InOrder content file c) :
    ∃ r, file.step content c = .ok r := by
  cases c with
  | read n out =>
      cases out with
      | done => exact ⟨_, read_done h n⟩
      | failed code neg => exact hok.elim
  | positionedRead pos n out => exact ⟨_, rfl⟩
  | skip n => exact ⟨_, rfl⟩

theorem CursorInv.step (h : CursorInv content tr file)
    (hok : InOrder content file c)
    (hstep : file.step content c = .ok ((status, result), file')) :
    CursorInv content (⟨c, status, result⟩ :: tr) file' := by
  have hoffset := (cursor_step_iff h hstep).mpr hok
  cases c with
  | read n out =>
      cases out with
      | done =>
          obtain ⟨rfl, rfl, -⟩ := read_done_inv h hstep
          refine ⟨hoffset, nextBytes_within h n, fun hskip => ?_⟩
          show delivered tr ++ nextBytes content tr n = _
          rw [h.reads hskip.tail]
          exact take_append_nextBytes n
      | failed code neg => exact hok.elim
  | positionedRead pos n out =>
      refine ⟨hoffset, h.within, fun hskip => ?_⟩
      show delivered tr ++ [] = _
      rw [List.append_nil]
      exact h.reads hskip.tail
  | skip n =>
      refine ⟨hoffset, Nat.min_le_left _ _, fun hskip => ?_⟩
      exact absurd rfl (hskip _ (List.mem_cons_self ..) n)

end Call

-- ============================================================= whole runs

theorem cursorInv_init {content : AofContent} {file : PfAofSeqFile}
    (h : file.offset = 0) : CursorInv content [] file where
  offset := h
  within := Nat.zero_le _
  reads _ := rfl

/-- The cursor is where the calls should have left it, and the `Read`s of
a run without a `Skip` deliver the file from its start. -/
structure CursorKept (content : AofContent) (tr : List SeqEvent)
    (file : PfAofSeqFile) : Prop where
  offset : file.offset = cursor content.val.length tr
  reads : Unskipped tr → delivered tr <+: content.val
  returns : ∀ c, InOrder content file c →
    ∃ r, file.step content c = .ok r

/-- In every run in which no `Read` fails and no `Skip` leads past the
end of the file. -/
theorem seq_cursor_kept (content : AofContent) (tr : List SeqEvent)
    (file : PfAofSeqFile) (hrun : SeqRun content (InOrder content) tr file) :
    CursorKept content tr file := by
  have h : CursorInv content tr file := by
    refine hrun.invariant (I := CursorInv content)
      (fun file hinit => cursorInv_init hinit) ?_
    rintro tr file e file' h ⟨hok, hstep⟩
    exact h.step hok hstep
  refine ⟨h.offset, fun hskip => ?_, fun c hok => step_returns h hok⟩
  rw [h.reads hskip]
  exact List.take_prefix _ _

/-- A file of three bytes, and a reader just opened on it. -/
def threeBytes : AofContent := ⟨[1, 2, 3], by decide⟩

def threeReader : PfAofSeqFile := ⟨0, ⟨[97], nul_not_mem_letter⟩⟩

/-- Two bytes read and the third skipped. -/
theorem seq_cursor_kept_threeBytes :
    CursorKept threeBytes
      [⟨.skip 1, .ok, none⟩, ⟨.read 2 .done, .ok, some [1, 2]⟩]
      { threeReader with offset := 3 } := by
  have hread : threeReader.step threeBytes (.read 2 .done)
      = .ok ((.ok, some [1, 2]), { threeReader with offset := 2 }) := rfl
  have hskip : PfAofSeqFile.step threeBytes
      { threeReader with offset := 2 } (.skip 1)
      = .ok ((.ok, none), { threeReader with offset := 3 }) := rfl
  refine seq_cursor_kept threeBytes _ _
    (.step (.step (.init rfl) (.call trivial hread)) (.call ?_ hskip))
  show (2 : Int) + (1 : UInt64).toNat ≤ 3
  decide

-- ------------------------------------------------------- out of order

/-- A `Read` that fails with -2 after two bytes, and the next one. -/
theorem run_failedRead :
    ∃ status, SeqRun threeBytes (fun _ _ => True)
      [⟨.read 2 .done, .ok, some [1, 2]⟩,
        ⟨.read 1 (.failed (-2) (by decide)), status, none⟩,
        ⟨.read 2 .done, .ok, some [1, 2]⟩]
      { threeReader with offset := 2 } := by
  have hread : threeReader.step threeBytes (.read 2 .done)
      = .ok ((.ok, some [1, 2]), { threeReader with offset := 2 }) := rfl
  have hfail : PfAofSeqFile.step threeBytes { threeReader with offset := 2 }
      (.read 1 (.failed (-2) (by decide)))
      = .ok ((.ioError (wantMessage 1 0 threeReader.fileName), none),
          threeReader) := rfl
  exact ⟨_, .step (.step (.step (.init rfl) (.call trivial hread))
    (.call trivial hfail)) (.call trivial hread)⟩

/-- A retry after a failed `Read` delivers bytes twice, and a `Skip` does
not stop at the end of the file. -/
theorem seq_cursor_lost :
    (∃ tr file, SeqRun threeBytes (fun _ _ => True) tr file ∧ Unskipped tr
      ∧ delivered tr = [1, 2, 1, 2] ∧ ¬ delivered tr <+: threeBytes.val
      ∧ file.offset = 2 ∧ cursor threeBytes.val.length tr = 4)
    ∧ ∃ tr file, SeqRun threeBytes (fun _ _ => True) tr file
      ∧ file.offset = 5 ∧ cursor threeBytes.val.length tr = 3 := by
  constructor
  · obtain ⟨status, hrun⟩ := run_failedRead
    have hnone : SeqEvent.delivered
        ⟨.read 1 (.failed (-2) (by decide)), status, none⟩ = [] := by
      cases status <;> rfl
    refine ⟨_, _, hrun, ?_, ?_, ?_, rfl, ?_⟩
    · intro e he n
      simp only [List.mem_cons, List.not_mem_nil, or_false] at he
      rcases he with rfl | rfl | rfl <;> nofun
    · simp only [delivered, hnone]
      rfl
    · simp only [delivered, hnone]
      decide
    · simp only [cursor, hnone]
      rfl
  · have hskip : threeReader.step threeBytes (.skip 5)
        = .ok ((.ok, none), { threeReader with offset := 5 }) := rfl
    exact ⟨_, _, .step (.init rfl) (.call trivial hskip), rfl, rfl⟩

end ViveNas
