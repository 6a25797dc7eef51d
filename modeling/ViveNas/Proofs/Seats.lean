/-
Where a call of the API is and what it has read: the thread-local half
of Fsck.lean.

A caller's seat remembers the records it has read or created (`seen`)
and what its transaction is for (`stage`). A create goes through stages
of its own, from the number it draws to the counter it copies; every
other function is at `work`, and may only write what its records vouch
for: their own updates, their own extents, and the deletion of an entry.

# From the text to the seats

`Seat.Moves` is what a reply tells a caller, `Seat.Needs` what a call
has to meet. Each function of the API is shown to keep to them whatever
the replies, one lemma a function, and `safe_prog` puts them together.
-/
import ViveNas.Proofs.Operands
import ViveNas.Service

namespace ViveNas

open LittleEndian ViveDataMergeOperator

variable {A : Type} {F : Lasting A} {α : Type}

-- ================================================================ seats

theorem FileNo.lt {m : Nat} (h : FileNo m) : m < 2 ^ 63 :=
  Nat.lt_trans h.2 (by decide)

theorem FileNo.load {m : Nat} (h : FileNo m) :
    loadInt64 (inodeKey m) = .ok m :=
  loadInt64_leBytes (Nat.lt_trans h.lt (by decide))

/-- A file's record, as creates write them and nothing changes them. -/
structure Genuine (m : Nat) (rec : ViveInode) : Prop where
  number : rec.iNo.toNat = m
  extentSize : rec.iExtentSize.toNat = vivefsExtentSize
  links : rec.iLinksCount = 1

/-- What a transaction is for. A create's has drawn `m`; once it copied
the counter, `k` is the copy. -/
inductive Stage where
  | work (opt : WriteOpt)
  | drawn (m : Nat)
  | creating (m : Nat) (batch : List WriteOp)
  | sealed (m : Nat) (batch : List WriteOp) (k : Nat)

/-- What a caller has learnt. All it has seen are files' records, so they
have the one extent size. -/
structure Seat where
  seen : Set ViveInode
  whole : ∀ rec ∈ seen, rec.iExtentSize.toNat = vivefsExtentSize
  stage : Stage

/-- A caller starts with the inode it was passed. -/
def Seat.start (task : Task) : Seat where
  seen := { n | task.inode = some n
    ∧ n.iExtentSize.toNat = vivefsExtentSize }
  whole _ h := h.2
  stage := .work .dataOpt

namespace Stage

/-- A create that has drawn its number opens the transaction that is to
hold it; every other transaction is for work. -/
def begin (opt : WriteOpt) : Stage → Stage
  | drawn m => creating m []
  | _ => work opt

/-- Only a create's writes are followed one by one. -/
def push (op : WriteOp) : Stage → Stage
  | creating m b => creating m (b ++ [op])
  | st => st

/-- The counter's copy closes a create's batch. -/
def copy (k : Nat) : Stage → Stage
  | creating m b => sealed m b k
  | st => st

end Stage

-- ========================================================= what is vouched

/-- A write that a transaction at work may hold, with the inodes it has
vouched for. -/
def WriteOp.Fair (vouched : ViveInode → Prop) (opt : WriteOpt) :
    WriteOp → Prop
  | .put .metaCf key val => ∃ n : ViveInode, vouched n
      ∧ key = inodeKey n.iNo.toNat ∧ val = n.toBytes
  | .put .dataCf key val => ∃ (idx : Nat) (n : ViveInode) (b : FullExtent),
      vouched n ∧ n.iExtentSize.toNat = vivefsExtentSize
      ∧ key = vnExtentKey idx n.iNo.toNat ∧ val = b.bytes
  | .merge key val => ∃ (idx : Nat) (n : ViveInode) (d : Delta),
      vouched n ∧ n.iExtentSize.toNat = vivefsExtentSize
      ∧ key = vnExtentKey idx n.iNo.toNat ∧ val = d.bytes
  | .delete .metaCf key => opt = .metaOpt ∧ ∃ p a, key = fileKey p a
  | .put .defaultCf _ _ | .delete .defaultCf _ | .delete .dataCf _ => True

theorem WriteOp.Fair.mono {V V' : ViveInode → Prop} {opt : WriteOpt}
    {op : WriteOp} (h : op.Fair V opt) (hV : ∀ n, V n → V' n) :
    op.Fair V' opt := by
  rcases op with ⟨_ | _ | _, key, val⟩ | ⟨key, val⟩ | ⟨_ | _ | _, key⟩
  · trivial
  · obtain ⟨n, hn, hrest⟩ := h
    exact ⟨n, hV n hn, hrest⟩
  · obtain ⟨idx, n, b, hn, hrest⟩ := h
    exact ⟨idx, n, b, hV n hn, hrest⟩
  · obtain ⟨idx, n, d, hn, hrest⟩ := h
    exact ⟨idx, n, d, hV n hn, hrest⟩
  · trivial
  · exact h
  · trivial

/-- The two writes that give a file its name and its record. -/
def namingOps (p : Int) (a : FileName) (m : Nat) (rec : ViveInode) :
    List WriteOp :=
  [.put .metaCf (fileKey p a) (inodeKey m),
    .put .metaCf (inodeKey m) rec.toBytes]

/-- What a stage lets its transaction take up. A create's writes are
looked at together, when it copies the counter. -/
def Stage.Admits (vouched : ViveInode → Prop) : Stage → WriteOp → Prop
  | .work opt, op => op.Fair vouched opt
  | .creating _ _, .put _ _ _ => True
  | _, _ => False

namespace Seat

/-- The inode is the root's or one of a record the caller has seen. -/
def Vouches (F : Lasting A) (l : Seat) (n : ViveInode) : Prop :=
  IsRoot n ∨ ∃ rec ∈ l.seen, F.of n = F.of rec

/-- A handle on such an inode. -/
def Backs (F : Lasting A) (l : Seat) (f : ViveFile) : Prop :=
  l.Vouches F f.inode ∧ f.iNo = f.inode.iNo

/-- What a read of meta_cf tells. -/
structure Reads (l : Seat) (key : Bytes) (r : GetStatus) (l' : Seat) :
    Prop where
  stage : l'.stage = l.stage
  seen : l.seen ⊆ l'.seen
  entry : ∀ v p a, r = .ok v → key = fileKey p a →
    ∃ m, FileNo m ∧ v = inodeKey m
  record : ∀ v m, r = .ok v → FileNo m → key = inodeKey m →
    ∃ rec ∈ l'.seen, Genuine m rec ∧ v = rec.toBytes

/-- A successful commit: the transaction is gone, and a create has its
record. -/
structure Commits (l l' : Seat) : Prop where
  stage : l'.stage = .work .dataOpt
  seen : l.seen ⊆ l'.seen
  created : ∀ p a m rec k, l.stage = .sealed m (namingOps p a m rec) k →
    rec ∈ l'.seen

/-- What a walk over meta_cf finds in a directory: numbers of files. -/
def Listed (kvs : List (Bytes × Bytes)) : Prop :=
  ∀ kv ∈ kvs, ∀ d, dirPrefix d <+: kv.1 →
    ∃ m, FileNo m ∧ loadInt64 kv.2 = .ok m

/-- How a call and its reply move a caller on. -/
def Moves : (c : StoreCall) → Seat → c.Resp → Seat → Prop
  | .get .metaCf key, l, r, l' => l.Reads key r l'
  | .seekMeta _, l, r, l' => l' = l ∧ Listed r
  | .generateInodeNo, l, m, l' =>
      FileNo m ∧ l' = { l with stage := .drawn m }
  | .beginTransaction opt, l, _, l' =>
      l' = { l with stage := l.stage.begin opt }
  | .put cf key val, l, .ok, l' =>
      l' = { l with stage := l.stage.push (.put cf key val) }
  | .putSeed, l, .ok, l' => ∃ k, l' = { l with stage := l.stage.copy k }
  | .commit, l, .ok, l' => l.Commits l'
  | .rollback, l, _, l' => l' = { l with stage := .work .dataOpt }
  | _, l, _, l' => l' = l

/-- What a caller has behind it when it makes a call. -/
def Needs (F : Lasting A) : StoreCall → Seat → Prop
  | .put cf key val, l => l.stage.Admits (l.Vouches F) (.put cf key val)
  | .merge key val, l => l.stage.Admits (l.Vouches F) (.merge key val)
  | .delete cf key, l => l.stage.Admits (l.Vouches F) (.delete cf key)
  | .putSeed, l => ∃ p a m rec, Genuine m rec
      ∧ l.stage = .creating m (namingOps p a m rec)
  | .commit, l =>
      (∃ opt, l.stage = .work opt) ∨ ∃ m b k, l.stage = .sealed m b k
  | .beginTransaction opt, l => ∀ m, l.stage = .drawn m → opt = .metaOpt
  | _, _ => True

/-- What a call hands out, its caller has vouched for. -/
structure Returns (F : Lasting A) (a : Answer) (l : Seat) : Prop where
  inodes : ∀ n ∈ a.inodes, l.Vouches F n
  files : ∀ f ∈ a.files, f.iNo = f.inode.iNo

end Seat

/-- The program keeps to its seat, whatever the replies. -/
abbrev SeatSafe (F : Lasting A) (p : Fs α) (P : α → Seat → Prop)
    (l : Seat) : Prop :=
  p.Safe Seat.Moves (Seat.Needs F) P l

-- ============================================================== vouching

namespace Seat

variable {l l' l'' : Seat} {n : ViveInode} {f : ViveFile}

/-- Who has seen more vouches for more. -/
theorem Vouches.mono (h : l.Vouches F n) (hseen : l.seen ⊆ l'.seen) :
    l'.Vouches F n := by
  rcases h with hroot | ⟨rec, hrec, hof⟩
  · exact Or.inl hroot
  · exact Or.inr ⟨rec, hseen hrec, hof⟩

/-- What calls change of an inode does not matter. -/
theorem Vouches.steady (h : l.Vouches F n) (size atime mtime : UInt64)
    (refs : UInt32) :
    l.Vouches F { n with iSize := size, iAtime := atime, iMtime := mtime,
                         refCnt := refs } := by
  rcases h with hroot | ⟨rec, hrec, hof⟩
  · exact Or.inl hroot
  · exact Or.inr ⟨rec, hrec, (F.steady n size atime mtime refs).trans hof⟩

/-- A record vouches for itself. -/
theorem vouches_seen {rec : ViveInode} (h : rec ∈ l.seen) :
    l.Vouches F rec :=
  Or.inr ⟨rec, h, rfl⟩

/-- An inode with an extent size is a file's, and has the one extent
size. -/
theorem Vouches.extentSize (h : l.Vouches F n)
    (hE : n.iExtentSize.toNat ≠ 0) :
    n.iExtentSize.toNat = vivefsExtentSize := by
  rcases h with hroot | ⟨rec, hrec, hof⟩
  · rw [hroot.2] at hE
    exact absurd rfl hE
  · rw [F.extentSize hof]
    exact l.whole rec hrec

theorem Backs.mono (h : l.Backs F f) (hseen : l.seen ⊆ l'.seen) :
    l'.Backs F f :=
  ⟨h.1.mono hseen, h.2⟩

-- ============================================================== at work

/-- A caller that is not creating. -/
def AtWork (l : Seat) : Prop := ∃ opt, l.stage = .work opt

/-- A caller, and the same caller at work later. -/
structure Before (l l' : Seat) : Prop where
  seen : l.seen ⊆ l'.seen
  work : l'.AtWork

theorem AtWork.refl (h : l.AtWork) : l.Before l :=
  ⟨fun _ hrec => hrec, h⟩

theorem Before.trans (h : l.Before l') (h' : l'.Before l'') :
    l.Before l'' :=
  ⟨fun _ hrec => h'.seen (h.seen hrec), h'.work⟩

/-- Every call but the draw of a number, which starts a create. -/
def Plain : StoreCall → Prop
  | .generateInodeNo => False
  | _ => True

/-- At work a caller stays at work, unless it draws a number. -/
theorem Moves.before {c : StoreCall} {r : c.Resp} (hw : l.AtWork)
    (hc : Plain c) (hneeds : Needs F c l)
    (h : Moves c l r l') : l.Before l' := by
  obtain ⟨opt, hopt⟩ := hw
  obtain ⟨seen, whole, stage⟩ := l
  obtain rfl : stage = .work opt := hopt
  cases c with
  | generateInodeNo => exact hc.elim
  | get cf key =>
      cases cf with
      | metaCf => exact ⟨h.seen, opt, h.stage⟩
      | defaultCf | dataCf =>
          cases h
          exact ⟨fun _ hrec => hrec, opt, rfl⟩
  | putSeed =>
      obtain ⟨p, a, m, rec, -, hstage⟩ := hneeds
      cases hstage
  | put cf key val =>
      cases r with
      | ok | failed =>
          cases h
          exact ⟨fun _ hrec => hrec, opt, rfl⟩
  | commit =>
      cases r with
      | ok => exact ⟨h.seen, .dataOpt, h.stage⟩
      | failed =>
          cases h
          exact ⟨fun _ hrec => hrec, opt, rfl⟩
  | beginTransaction opt' =>
      cases h
      exact ⟨fun _ hrec => hrec, opt', rfl⟩
  | rollback =>
      cases h
      exact ⟨fun _ hrec => hrec, .dataOpt, rfl⟩
  | seekMeta target =>
      obtain ⟨rfl, -⟩ := h
      exact ⟨fun _ hrec => hrec, opt, rfl⟩
  | getForUpdate cf key | merge key val | delete cf key | flushWAL | time =>
      cases h
      exact ⟨fun _ hrec => hrec, opt, rfl⟩

end Seat

section Work

variable {l : Seat} {P : α → Seat → Prop}

/-- One call of a caller at work. -/
theorem safe_work {c : StoreCall} {f : c.Resp → Fs α} (hw : l.AtWork)
    (hc : Seat.Plain c) (hneeds : Seat.Needs F c l)
    (hf : ∀ r l', l.Before l' → SeatSafe F (f r) P l') :
    SeatSafe F (Prog.perform c >>= f) P l :=
  Prog.safe_perform hneeds fun r l' h => hf r l' (h.before hw hc hneeds)

/-- A transaction can be opened at any time, and the work goes on. -/
theorem safe_begin {f : Unit → Fs α} (hw : l.AtWork) (opt : WriteOpt)
    (hf : ∀ l', l.Before l' → SeatSafe F (f ()) P l') :
    SeatSafe F (Fs.beginTransaction opt >>= f) P l := by
  refine safe_work hw trivial ?_ fun _ l' h => hf l' h
  intro m hm
  obtain ⟨opt', hopt⟩ := hw
  cases hopt.symm.trans hm

/-- A write at work. -/
theorem Seat.AtWork.admits (hw : l.AtWork) {op : WriteOp}
    (h : ∀ opt, op.Fair (l.Vouches F) opt) :
    l.stage.Admits (l.Vouches F) op := by
  obtain ⟨opt, hopt⟩ := hw
  rw [hopt]
  exact h opt

/-- `_vn_persist_inode` of an inode that is vouched for. -/
theorem safe_persistTx {n : ViveInode} {f : Status → Fs α} (hw : l.AtWork)
    (hn : l.Vouches F n)
    (hf : ∀ r l', l.Before l' → SeatSafe F (f r) P l') :
    SeatSafe F (vnPersistInodeTx n >>= f) P l :=
  safe_work hw trivial
    (hw.admits fun _ => ⟨n, hn, rfl, rfl⟩) hf

/-- A rollback and an exit. -/
theorem safe_exit {a : α} (hw : l.AtWork)
    (ha : ∀ l', l.Before l' → P a l') :
    SeatSafe F (Fs.rollback >>= fun _ => pure a) P l :=
  safe_work hw trivial trivial fun _ l' h => ha l' h

/-- A commit at work. -/
theorem safe_commit {f : Status → Fs α} (hw : l.AtWork)
    (hfailed : ∀ l', l.Before l' → SeatSafe F (f .failed) P l')
    (hok : ∀ l', l.Before l' → SeatSafe F (f .ok) P l') :
    SeatSafe F (Fs.commit >>= f) P l := by
  refine safe_work hw trivial (Or.inl hw) fun r l' h => ?_
  cases r with
  | failed => exact hfailed l' h
  | ok => exact hok l' h

end Work

-- =============================================================== writing

section Writing

variable {l : Seat} {file : ViveFile}

/-- A piece inside its extent may be written to a file one has seen. -/
theorem safe_writeSegment {n : ViveInode} {idx o : Nat} {data : Bytes}
    {P : Unit → Seat → Prop} (hw : l.AtWork) (hn : l.Vouches F n)
    (hE : n.iExtentSize.toNat = vivefsExtentSize)
    (hdata : o + data.length ≤ vivefsExtentSize)
    (ho : o < vivefsExtentSize) (hP : ∀ l', l.Before l' → P () l') :
    SeatSafe F (writeSegment n.iNo.toNat vivefsExtentSize idx o data) P
      l := by
  rw [extentSize_eq] at ho
  rw [writeSegment]
  split
  case isTrue =>
    obtain ⟨d, hd⟩ := FitsExtent.delta ⟨o, data, ho, hdata, rfl⟩
    exact safe_work hw trivial
      (hw.admits fun _ => ⟨idx, n, d, hn, hE, rfl, hd.symm⟩) fun _ => hP
  case isFalse hwhole =>
    have hlen : (vnExtentHead o ++ data).length
        = pfsExtentHeadSize + vivefsExtentSize := by
      rw [List.length_append, vnExtentHead_length, not_ne_iff.mp hwhole]
    exact safe_work hw trivial
      (hw.admits fun _ => ⟨idx, n, ⟨_, hlen⟩, hn, hE, rfl, rfl⟩) fun _ => hP

/-- The extent loop of `vn_write` stays on the extents of its file. -/
theorem safe_writeSegments {n : ViveInode} {offset : Nat} (buf : Bytes)
    (hn : l.Vouches F n) (hE : n.iExtentSize.toNat = vivefsExtentSize)
    (hw : l.AtWork) (turns idx b : Nat) :
    SeatSafe F (writeSegments n.iNo.toNat vivefsExtentSize offset buf turns
      idx b) (fun _ l' => l.Before l') l := by
  induction turns generalizing l idx b with
  | zero => exact hw.refl
  | succ turns ih =>
      rw [writeSegments]
      refine Prog.safe_ofExcept fun data hread => Prog.Safe.bind ?_
      refine safe_writeSegment hw hn hE ?_ (Nat.mod_lt _ extentSize_pos)
        fun l' h => ?_
      · rw [readBuf_length hread]
        exact segment_fits offset buf.length b
      · exact (ih (hn.mono h.seen) h.work _ _).mono fun _ _ => h.trans

/-- The extent loop of `vn_writev` does, too. -/
theorem safe_writevSegments {n : ViveInode} {offset : Nat}
    (iov : List Bytes) (hn : l.Vouches F n)
    (hE : n.iExtentSize.toNat = vivefsExtentSize) (hw : l.AtWork)
    (turns idx b : Nat) (cur : IovCursor) :
    SeatSafe F (writevSegments n.iNo.toNat vivefsExtentSize offset iov turns
      idx b cur) (fun _ l' => l.Before l') l := by
  induction turns generalizing l idx b cur with
  | zero => exact hw.refl
  | succ turns ih =>
      rw [writevSegments]
      dsimp only
      split
      · exact trivial
      · refine Prog.safe_ofExcept fun gathered hgather => Prog.Safe.bind ?_
        refine safe_writeSegment hw hn hE ?_ (Nat.mod_lt _ extentSize_pos)
          fun l' h => ?_
        · rw [gatherIov_length hgather]
          exact segment_fits offset (iovLen iov) b
        · exact (ih (hn.mono h.seen) h.work _ _ _).mono fun _ _ => h.trans

/-- After the loop a write persists its own inode. -/
theorem safe_finishWrite (hw : l.AtWork) (hf : l.Backs F file)
    (offset len : Nat) :
    SeatSafe F (finishWrite file offset len) (fun a l' => l'.Backs F a.2)
      l := by
  refine safe_work hw trivial trivial fun now l₁ h₁ => ?_
  have hfile := hf.mono h₁.seen
  dsimp only
  split
  · have hgrown : l₁.Backs F { file with
        inode := { file.inode with
          iMtime := now
          iSize := UInt64.ofNat (offset + len) }
        dirty := true } :=
      ⟨hfile.1.steady _ _ _ _, hfile.2⟩
    refine safe_persistTx h₁.work hgrown.1 fun r l₂ h₂ => ?_
    have hkept := hgrown.mono h₂.seen
    cases r with
    | failed => exact safe_exit h₂.work fun l₃ h₃ => hkept.mono h₃.seen
    | ok =>
        refine safe_commit h₂.work (fun l₃ h₃ => ?_) fun l₃ h₃ => ?_
        · exact safe_exit h₃.work fun l₄ h₄ =>
            ⟨hkept.1.mono (h₃.trans h₄).seen, hkept.2⟩
        · exact ⟨hkept.1.mono h₃.seen, hkept.2⟩
  · have htouched : l₁.Backs F { file with
        inode := { file.inode with iMtime := now }, dirty := true } :=
      ⟨hfile.1.steady _ _ _ _, hfile.2⟩
    refine safe_commit h₁.work (fun l₂ h₂ => ?_)
      fun l₂ h₂ => htouched.mono h₂.seen
    exact safe_exit h₂.work fun l₃ h₃ => htouched.mono (h₂.trans h₃).seen

/-- What a write returns, its file with a new size and time, is still
backed by what was seen. -/
theorem safe_vnWrite (hw : l.AtWork) (hf : l.Backs F file) (buf : Bytes)
    (offset : Nat) :
    SeatSafe F (vnWrite file buf offset) (fun a l' => l'.Backs F a.2) l := by
  unfold vnWrite
  dsimp only
  split
  case isTrue => exact trivial
  case isFalse hE =>
    have hwhole := hf.1.extentSize hE
    rw [hwhole, hf.2]
    refine safe_begin hw .dataOpt fun l₁ h₁ => Prog.Safe.bind ?_
    refine (safe_writeSegments buf (hf.1.mono h₁.seen) hwhole h₁.work _ _
      _).mono fun _ l₂ h₂ => ?_
    exact safe_finishWrite h₂.work (hf.mono (h₁.trans h₂).seen) _ _

theorem safe_vnWritev (hw : l.AtWork) (hf : l.Backs F file)
    (iov : List Bytes) (offset : Nat) :
    SeatSafe F (vnWritev file iov offset) (fun a l' => l'.Backs F a.2)
      l := by
  unfold vnWritev
  dsimp only
  split
  case isTrue => exact trivial
  case isFalse hE =>
    have hwhole := hf.1.extentSize hE
    rw [hwhole, hf.2]
    refine safe_begin hw .dataOpt fun l₁ h₁ => Prog.Safe.bind ?_
    refine (safe_writevSegments iov (hf.1.mono h₁.seen) hwhole h₁.work _ _ _
      _).mono fun _ l₂ h₂ => ?_
    exact safe_finishWrite h₂.work (hf.mono (h₁.trans h₂).seen) _ _

end Writing

-- ============================================================== reading

section Reading

variable {l : Seat} {file : ViveFile}

/-- Reads write nothing, so their loops only have to keep the seat. -/
theorem safe_readSegments {ino extentSize offset len : Nat} (hw : l.AtWork)
    (turns idx b : Nat) (out : Bytes) :
    SeatSafe F (readSegments ino extentSize offset len turns idx b out)
      (fun _ l' => l.Before l') l := by
  induction turns generalizing l idx b out with
  | zero => exact hw.refl
  | succ turns ih =>
      rw [readSegments]
      refine safe_work hw trivial trivial fun status l' h => ?_
      refine Prog.safe_ofExcept fun out' _ => ?_
      exact (ih h.work _ _ _).mono fun _ _ => h.trans

theorem safe_readvSegments {ino extentSize offset len : Nat}
    (hw : l.AtWork) (turns idx b : Nat) (iov : List Bytes)
    (cur : IovCursor) :
    SeatSafe F (readvSegments ino extentSize offset len turns idx b iov cur)
      (fun _ l' => l.Before l') l := by
  induction turns generalizing l idx b iov cur with
  | zero => exact hw.refl
  | succ turns ih =>
      rw [readvSegments]
      refine safe_work hw trivial trivial fun status l' h => ?_
      refine Prog.safe_ofExcept fun filled _ => ?_
      exact (ih h.work _ _ _ _).mono fun _ _ => h.trans

theorem safe_touchAtime (hw : l.AtWork) (hf : l.Backs F file) :
    SeatSafe F (touchAtime file) (fun f l' => l'.Backs F f) l := by
  unfold touchAtime
  split
  · exact hf
  · refine safe_work hw trivial trivial fun now l' h => ?_
    exact ⟨(hf.1.mono h.seen).steady _ _ _ _, hf.2⟩

theorem safe_vnRead (hw : l.AtWork) (hf : l.Backs F file) (out : Bytes)
    (offset : Nat) :
    SeatSafe F (vnRead file out offset) (fun a l' => l'.Backs F a.2.2)
      l := by
  unfold vnRead
  dsimp only
  split
  · exact trivial
  · refine Prog.Safe.bind ((safe_readSegments hw _ _ _ _).mono
      fun out' l₁ h₁ => Prog.Safe.bind ?_)
    exact (safe_touchAtime h₁.work (hf.mono h₁.seen)).mono fun _ _ h => h

theorem safe_vnReadv (hw : l.AtWork) (hf : l.Backs F file)
    (iov : List Bytes) (offset : Nat) :
    SeatSafe F (vnReadv file iov offset) (fun a l' => l'.Backs F a.2.2)
      l := by
  unfold vnReadv
  dsimp only
  split
  · exact trivial
  · refine Prog.Safe.bind ((safe_readvSegments hw _ _ _ _ _).mono
      fun out' l₁ h₁ => Prog.Safe.bind ?_)
    exact (safe_touchAtime h₁.work (hf.mono h₁.seen)).mono fun _ _ h => h

end Reading

-- =============================================================== syncing

section Syncing

variable {l : Seat} {file : ViveFile}

theorem safe_syncCommit (hw : l.AtWork) (hf : l.Backs F file) :
    SeatSafe F (vnFsync.syncCommit file) (fun a l' => l'.Backs F a.2) l := by
  refine safe_commit hw (fun l₁ h₁ => ?_) fun l₁ h₁ => ?_
  · exact safe_exit h₁.work fun l₂ h₂ => hf.mono (h₁.trans h₂).seen
  · refine safe_work h₁.work trivial trivial fun _ l₂ h₂ => ?_
    exact safe_exit h₂.work
      fun l₃ h₃ => hf.mono ((h₁.trans h₂).trans h₃).seen

/-- A sync writes the record of a file that was backed. -/
theorem safe_vnFsync (hw : l.AtWork) (hf : l.Backs F file) :
    SeatSafe F (vnFsync file) (fun a l' => l'.Backs F a.2) l := by
  refine safe_begin hw .dataOpt fun l₁ h₁ => ?_
  have hfile := hf.mono h₁.seen
  by_cases hdirty : file.dirty = true
  · rw [if_pos hdirty]
    refine safe_persistTx h₁.work hfile.1 fun r l₂ h₂ => ?_
    cases r with
    | failed =>
        exact safe_exit h₂.work
          fun l₃ h₃ => hfile.mono (h₂.trans h₃).seen
    | ok => exact safe_syncCommit h₂.work (hfile.mono h₂.seen)
  · rw [if_neg hdirty]
    exact safe_syncCommit h₁.work hfile

/-- The record the caller passes may be put, as it is vouched for. -/
theorem safe_vnPersistInode {n : ViveInode} (hw : l.AtWork)
    (hn : l.Vouches F n) :
    SeatSafe F (vnPersistInode n) (fun _ _ => True) l := by
  refine safe_begin hw .dataOpt fun l₁ h₁ => ?_
  refine safe_persistTx h₁.work (hn.mono h₁.seen) fun r l₂ h₂ => ?_
  cases r with
  | failed => exact safe_exit h₂.work fun _ _ => trivial
  | ok =>
      exact safe_commit h₂.work
        (fun l₃ h₃ => safe_exit h₃.work fun _ _ => trivial)
        fun l₃ h₃ => safe_exit h₃.work fun _ _ => trivial

end Syncing

-- ============================================================ looking up

section Lookup

variable {l : Seat}

/-- What a caller at work reads of meta_cf. -/
theorem safe_getMeta {key : Bytes} {f : GetStatus → Fs α}
    {P : α → Seat → Prop} (hw : l.AtWork)
    (hf : ∀ r l', l.Before l' → l.Reads key r l' → SeatSafe F (f r) P l') :
    SeatSafe F (Fs.get .metaCf key >>= f) P l := by
  obtain ⟨opt, hopt⟩ := hw
  refine Prog.safe_perform trivial fun r l' h => hf r l' ?_ h
  exact ⟨h.seen, opt, h.stage.trans hopt⟩

/-- The inode made of a record that was read. -/
structure Seat.Found (l : Seat) (m : Nat) (n : ViveInode) : Prop where
  number : FileNo m
  inode : ∃ rec ∈ l.seen, Genuine m rec ∧ n = { rec with refCnt := 1 }

/-- What a lookup decoded is what it has seen. -/
theorem Seat.Found.vouches {m : Nat} {n : ViveInode} (h : l.Found m n) :
    l.Vouches F n := by
  obtain ⟨rec, hrec, -, rfl⟩ := h.inode
  exact (Seat.vouches_seen hrec).steady _ _ _ _

theorem Seat.Found.mono {l' : Seat} {m : Nat} {n : ViveInode}
    (h : l.Found m n) (hseen : l.seen ⊆ l'.seen) : l'.Found m n := by
  obtain ⟨rec, hrec, hrest⟩ := h.inode
  exact ⟨h.number, rec, hseen hrec, hrest⟩

/-- A file's record read, if it is there. A read that fails leaves the
slice empty. -/
theorem safe_getRecord {m : Nat} {f : GetStatus → Fs α}
    {P : α → Seat → Prop} (hw : l.AtWork) (hm : FileNo m)
    (hnone : ∀ l', l.Before l' → SeatSafe F (f .notFound) P l')
    (hfailed : ∀ l', l.Before l' → SeatSafe F (f .failed) P l')
    (hok : ∀ (rec : ViveInode) l', l.Before l' →
      l'.Found m { rec with refCnt := 1 } →
      SeatSafe F (f (.ok rec.toBytes)) P l') :
    SeatSafe F (Fs.get .metaCf (inodeKey m) >>= f) P l := by
  refine safe_getMeta hw fun r l' h hread => ?_
  cases r with
  | notFound => exact hnone l' h
  | failed => exact hfailed l' h
  | ok v =>
      obtain ⟨rec, hrec, hgen, rfl⟩ := hread.record v m rfl hm rfl
      exact hok rec l' h ⟨hm, rec, hrec, hgen, rfl⟩

/-- `vn_lookup_inode_no` answers with a file's number and the inode of its
record, or with -1. -/
theorem safe_vnLookupInodeNo (hw : l.AtWork) (parent : Int)
    (name : FileName) (want : Bool) :
    SeatSafe F (vnLookupInodeNo parent name want) (fun a l' => l.Before l'
      ∧ (a = (-1, none) ∨ ∃ m : Nat, FileNo m ∧ a.1 = m
        ∧ (want = true → ∃ n, a.2 = some n)
        ∧ ∀ n, a.2 = some n → l'.Found m n)) l := by
  refine safe_getMeta hw fun r l₁ h₁ hread => ?_
  cases r with
  | notFound => exact ⟨h₁, Or.inl rfl⟩
  | failed =>
      -- the slice is left empty, and the load of a number from it dies
      show SeatSafe F (if want = true then _ else _) _ _
      split
      · refine safe_getMeta h₁.work fun r l₂ h₂ _ => ?_
        cases r with
        | notFound => exact ⟨h₁.trans h₂, Or.inl rfl⟩
        | failed => exact trivial
        | ok v => exact Prog.safe_ofExcept fun n _ => trivial
      · exact trivial
  | ok v =>
      obtain ⟨m, hm, rfl⟩ := hread.entry v parent name rfl rfl
      have hload := hm.load
      show SeatSafe F (if want = true then _ else _) _ _
      split
      · refine safe_getRecord h₁.work hm
          (fun l₂ h₂ => ⟨h₁.trans h₂, Or.inl rfl⟩) (fun _ _ => trivial)
          fun rec l₂ h₂ hfound => ?_
        show SeatSafe F (do
          let inode ← Fs.lift (deserializeInode rec.toBytes)
          let ino ← Fs.lift (loadInt64 (inodeKey m))
          return (asInt64 ino, some inode)) _ _
        rw [deserializeInode_toBytes, hload]
        refine ⟨h₁.trans h₂, Or.inr ⟨m, hm, asInt64_of_lt hm.lt,
          fun _ => ⟨_, rfl⟩, fun n hn => ?_⟩⟩
        exact Option.some.inj hn ▸ hfound
      · next hwant =>
        rw [GetStatus.slice, hload]
        refine ⟨h₁, Or.inr ⟨m, hm, asInt64_of_lt hm.lt,
          fun h => absurd h hwant, fun n hn => ?_⟩⟩
        cases hn

end Lookup

-- ============================================================= unlinking

section Unlink

variable {l : Seat}

/-- Deletes of extents tell nothing. -/
theorem safe_deleteExtents {opt : WriteOpt} (hl : l.stage = .work opt)
    {cf : Cf} (hcf : cf ≠ .metaCf) (ino n i : Nat) :
    SeatSafe F (deleteExtents cf ino n i) (fun _ l' => l' = l) l := by
  induction n generalizing i with
  | zero => exact rfl
  | succ n ih =>
      refine Prog.safe_perform ?_ fun _ l' h => ?_
      · show l.stage.Admits (l.Vouches F) _
        rw [hl]
        cases cf with
        | metaCf => exact absurd rfl hcf
        | defaultCf | dataCf => exact trivial
      · obtain rfl : l' = l := h
        exact ih (i + 1)

/-- `vn_unlink` deletes the entry: every file has its one link. -/
theorem safe_vnUnlink (hw : l.AtWork) (parent : Int) (name : FileName) :
    SeatSafe F (vnUnlink parent name) (fun _ _ => True) l := by
  refine Prog.Safe.bind ((safe_vnLookupInodeNo hw parent name true).mono ?_)
  intro a l₁ hlookup
  obtain ⟨h₁, rfl | ⟨m, hm, ha, hsome, hall⟩⟩ := hlookup
  · exact trivial
  obtain ⟨n, hn⟩ := hsome rfl
  obtain ⟨rec, hrec, hgen, hnrec⟩ := (hall n hn).inode
  obtain ⟨r, found⟩ := a
  obtain rfl : r = m := ha
  obtain rfl : found = some n := hn
  subst hnrec
  show SeatSafe F (if (m : Int) < 0 then _ else _) _ _
  rw [if_neg (by omega)]
  obtain ⟨opt, hopt⟩ := h₁.work
  obtain ⟨seen, whole, stage⟩ := l₁
  obtain rfl : stage = .work opt := hopt
  refine Prog.safe_perform ?_ fun _ l₂ h₂ => ?_
  · intro m' hm'
    cases hm'
  cases h₂
  dsimp only
  rw [if_pos (by rw [hgen.links]; rfl)]
  refine Prog.safe_ofExcept fun extents _ => Prog.Safe.bind ?_
  refine (safe_deleteExtents rfl (fun h => by cases h) _ extents 0).mono
    fun _ l₃ h₃ => ?_
  cases h₃
  refine Prog.safe_perform ⟨rfl, parent, name, rfl⟩ fun _ l₄ h₄ => ?_
  cases h₄
  refine safe_commit ⟨.metaOpt, rfl⟩ (fun l₅ h₅ => ?_) fun _ _ => trivial
  exact safe_exit h₅.work fun _ _ => trivial

end Unlink

-- ============================================================== creating

section Create

variable {l : Seat}

/-- A new inode is a file's. -/
theorem newInode_genuine {m : Nat} (hm : FileNo m) (mode uid gid : UInt16)
    (now : UInt64) : Genuine m (newInode m mode uid gid now) where
  number := newInode_iNo (Nat.lt_trans hm.lt (by decide)) mode uid gid now
  extentSize := by rw [newInode_iExtentSize, extentSize_eq]
  links := rfl

/-- An error exit of a create. -/
theorem safe_createFailed {P : Int × Option ViveInode → Seat → Prop}
    {code : Int}
    (h : ∀ l', l.Before l' → P (-code, none) l') :
    SeatSafe F (createFailed code) P l := by
  refine Prog.safe_perform trivial fun _ l' hl => ?_
  cases hl
  exact h _ ⟨fun _ hrec => hrec, .dataOpt, rfl⟩

/-- `vn_create_file` fails or returns a number and its record. -/
theorem safe_vnCreateFile (hw : l.AtWork) (parent : Int) (name : FileName)
    (mode uid gid : UInt16) :
    SeatSafe F (vnCreateFile parent name mode uid gid) (fun a l' =>
      l.Before l' ∧ (a.1 < 0 ∨ ∃ m : Nat, FileNo m ∧ a.1 = m)
        ∧ ∀ n, a.2 = some n → n ∈ l'.seen) l := by
  obtain ⟨seen, whole, stage⟩ := l
  have hexit (code : Int) (hcode : 0 < code) (st : Stage) :
      SeatSafe F (createFailed code) (fun a l' =>
        Seat.Before ⟨seen, whole, stage⟩ l'
          ∧ (a.1 < 0 ∨ ∃ m : Nat, FileNo m ∧ a.1 = m)
          ∧ ∀ n, a.2 = some n → n ∈ l'.seen) ⟨seen, whole, st⟩ := by
    refine safe_createFailed fun l' h => ⟨⟨h.seen, h.work⟩,
      Or.inl (Int.neg_neg_of_pos hcode), fun n hn => ?_⟩
    cases hn
  have heio := hexit eio (by decide)
  refine Prog.safe_perform trivial fun ino l₁ h₁ => ?_
  obtain ⟨hino, rfl⟩ := h₁
  refine Prog.safe_perform trivial fun now l₂ h₂ => ?_
  cases h₂
  refine Prog.safe_perform (fun _ _ => rfl) fun _ l₃ h₃ => ?_
  cases h₃
  have hgen := newInode_genuine hino mode uid gid now
  refine Prog.safe_perform trivial fun status l₄ h₄ => ?_
  cases h₄
  cases status with
  | ok v => exact hexit eexist (by decide) _
  | notFound | failed =>
      refine Prog.safe_perform trivial fun status l₅ h₅ => ?_
      cases status with
      | failed => cases h₅; exact heio _
      | ok =>
      cases h₅
      refine Prog.safe_perform trivial fun status l₆ h₆ => ?_
      cases status with
      | failed => cases h₆; exact heio _
      | ok =>
      cases h₆
      refine Prog.safe_perform ⟨parent, name, ino, _, hgen, ?_⟩
        fun status l₇ h₇ => ?_
      · show Stage.creating ino [_, _] = _
        rw [hgen.number]
        rfl
      cases status with
      | failed => cases h₇; exact heio _
      | ok =>
      obtain ⟨k, rfl⟩ := h₇
      refine Prog.safe_perform (Or.inr ⟨_, _, _, rfl⟩) fun status l₈ h₈ => ?_
      cases status with
      | failed => cases h₈; exact heio _
      | ok =>
      refine ⟨⟨h₈.seen, .dataOpt, h₈.stage⟩,
        Or.inr ⟨ino, hino, asInt64_of_lt hino.lt⟩, fun n hn => ?_⟩
      cases hn
      refine h₈.created parent name ino _ k ?_
      show Stage.sealed ino [_, _] k = _
      rw [hgen.number]
      rfl

end Create

-- =============================================================== opening

section Open

variable {l : Seat}

/-- What `vn_open_file_by_inode` returns: its inode, and a handle on it if
there is one. -/
structure Seat.Opens (F : Lasting A) (l : Seat)
    (a : Option ViveFile × ViveInode) (l' : Seat) : Prop where
  before : l.Before l'
  vouches : l'.Vouches F a.2
  handle : ∀ f, a.1 = some f → f.inode = a.2 ∧ f.iNo = a.2.iNo

/-- An opening hands out the inode it was given, emptied or not. -/
theorem safe_vnOpenFileByInode {n : ViveInode} (hw : l.AtWork)
    (hn : l.Vouches F n) (flags : UInt32) :
    SeatSafe F (vnOpenFileByInode n flags) (l.Opens F) l := by
  have hexit (l' : Seat) (h : l.Before l') (size : UInt64) :
      SeatSafe F (Fs.rollback >>= fun _ =>
        (pure (none, { n with iSize := size }) : Fs (Option ViveFile × _)))
        (l.Opens F) l' := by
    refine safe_exit h.work fun l'' h' => ⟨h.trans h',
      (hn.mono (h.trans h').seen).steady _ _ _ _, fun f hf => ?_⟩
    cases hf
  have hopen (l' : Seat) (h : l.Before l') (size : UInt64) :
      l.Opens F (some (newFile { n with iSize := size } flags),
        (newFile { n with iSize := size } flags).inode) l' := by
    refine ⟨h, (hn.mono h.seen).steady _ _ _ _, fun f hf => ?_⟩
    cases hf
    exact ⟨rfl, rfl⟩
  unfold vnOpenFileByInode
  split
  · refine safe_begin hw .metaOpt fun l₁ h₁ => ?_
    refine safe_work h₁.work trivial trivial fun status l₂ h₂ => ?_
    have h₁₂ := h₁.trans h₂
    cases status with
    | notFound | failed => exact hexit l₂ h₁₂ n.iSize
    | ok v =>
        obtain ⟨opt, hopt⟩ := h₂.work
        refine Prog.safe_ofExcept fun extents _ => Prog.Safe.bind ?_
        refine (safe_deleteExtents hopt (fun h => by cases h) _ extents
          0).mono fun _ l₃ h₃ => ?_
        cases h₃
        refine safe_persistTx h₂.work
          ((hn.mono h₁₂.seen).steady 0 n.iAtime n.iMtime n.refCnt)
          fun r l₃ h₃ => ?_
        have h₁₃ := h₁₂.trans h₃
        cases r with
        | failed => exact hexit l₃ h₁₃ 0
        | ok =>
            exact safe_commit h₃.work
              (fun l₄ h₄ => hexit l₄ (h₁₃.trans h₄) 0)
              fun l₄ h₄ => hopen l₄ (h₁₃.trans h₄) 0
  · exact hopen l hw.refl n.iSize

/-- The rest of `vn_open_file`, once a number is known. -/
theorem safe_openByNumber {m : Nat} (hw : l.AtWork) (hm : FileNo m)
    (flags : UInt32) :
    SeatSafe F (openByNumber m flags)
      (fun a l' => ∀ f, a = some f → l'.Backs F f) l := by
  refine safe_getRecord hw hm (fun l₁ h₁ f hf => ?_) (fun _ _ => trivial)
    fun rec l₁ h₁ hfound => ?_
  · cases hf
  show SeatSafe F (Fs.lift (deserializeInode rec.toBytes) >>= _) _ _
  rw [deserializeInode_toBytes]
  show SeatSafe F (vnOpenFileByInode _ flags >>= _) _ _
  refine Prog.Safe.bind
    ((safe_vnOpenFileByInode h₁.work hfound.vouches flags).mono ?_)
  intro a l₂ hopen f hf
  obtain ⟨f', hf', rfl⟩ := Option.map_eq_some_iff.mp hf
  exact ⟨hopen.vouches.steady _ _ _ _, (hopen.handle f' hf').2⟩

/-- An opening by name has seen the record it opens: it read it, or it
made it. -/
theorem safe_vnOpenFile (hw : l.AtWork) (parent : Int) (name : FileName)
    (flags : UInt32) (mode : UInt16) :
    SeatSafe F (vnOpenFile parent name flags mode)
      (fun a l' => ∀ f, a = some f → l'.Backs F f) l := by
  refine safe_getMeta hw fun r l₁ h₁ hread => ?_
  cases r with
  | failed => exact trivial
  | ok v =>
      obtain ⟨m, hm, rfl⟩ := hread.entry v parent name rfl rfl
      show SeatSafe F (Fs.lift (loadInt64 (inodeKey m)) >>= _) _ _
      rw [hm.load]
      exact safe_openByNumber h₁.work hm flags
  | notFound =>
      show SeatSafe F (if hasFlag flags oCreat = true then _ else _) _ _
      split
      · refine Prog.Safe.bind
          ((safe_vnCreateFile h₁.work parent name mode 0 0).mono ?_)
        intro a l₂ hcreate
        obtain ⟨h₂, hneg | ⟨m, hm, ha⟩, -⟩ := hcreate
        · show SeatSafe F (if a.1 < 0 then _ else _) _ _
          rw [if_pos hneg]
          intro f hf
          cases hf
        · show SeatSafe F (if a.1 < 0 then _ else _) _ _
          rw [ha, if_neg (by omega), Int.toNat_natCast]
          exact safe_openByNumber h₂.work hm flags
      · intro f hf
        cases hf

end Open

-- =============================================================== listing

section Listing

variable {l : Seat}

/-- A walk serves the record it has just read, and its iterator stays
under the directory. -/
theorem safe_vnNextInode {it : VnInodeIterator} {parent : Int}
    (hw : l.AtWork) (hdir : it.dir = dirPrefix parent)
    (hlist : Seat.Listed it.itor) (bufLen : Nat) :
    SeatSafe F (vnNextInode it bufLen) (fun a l' => l.Before l'
      ∧ (∀ n name, a.1 = some (n, name) → l'.Vouches F n)
      ∧ a.2.dir = dirPrefix parent ∧ Seat.Listed a.2.itor) l := by
  have hstop (l' : Seat) (h : l.Before l') : l.Before l'
      ∧ (∀ n name, (none : Option (ViveInode × Bytes)) = some (n, name) →
        l'.Vouches F n)
      ∧ it.dir = dirPrefix parent ∧ Seat.Listed it.itor := by
    refine ⟨h, fun n name hn => ?_, hdir, hlist⟩
    cases hn
  unfold vnNextInode
  cases hitor : it.itor with
  | nil => exact hstop l hw.refl
  | cons kv rest =>
      dsimp only
      split
      · next hpre =>
        rw [hitor] at hlist
        rw [hdir] at hpre
        obtain ⟨m, hm, hload⟩ := hlist kv List.mem_cons_self parent
          (List.isPrefixOf_iff_prefix.mp hpre)
        rw [hload]
        refine safe_getRecord hw hm hstop (fun _ _ => trivial)
          fun rec l₁ h₁ hfound => ?_
        show SeatSafe F (Fs.lift (deserializeInode rec.toBytes) >>= _) _ _
        rw [deserializeInode_toBytes]
        show SeatSafe F (if _ then _ else _) _ _
        split
        · exact trivial
        · split
          · exact trivial
          · refine ⟨h₁, fun n name hn => ?_, hdir,
              fun kv' hkv' => hlist kv' (List.mem_cons_of_mem _ hkv')⟩
            cases hn
            exact hfound.vouches
      · exact hstop l hw.refl

/-- The caller's loop lists inodes that are vouched for. -/
theorem safe_iterateDir {it : VnInodeIterator} {parent : Int}
    (hw : l.AtWork) (hdir : it.dir = dirPrefix parent)
    (hlist : Seat.Listed it.itor) (bufLen fuel : Nat) :
    SeatSafe F (iterateDir bufLen fuel it) (fun es l' => l.Before l'
      ∧ ∀ e ∈ es, l'.Vouches F e.2) l := by
  induction fuel generalizing l it with
  | zero => exact trivial
  | succ fuel ih =>
      rw [iterateDir]
      split
      · refine Prog.Safe.bind
          ((safe_vnNextInode hw hdir hlist bufLen).mono ?_)
        intro a l₁ hnext
        obtain ⟨h₁, hentry, hdir₁, hlist₁⟩ := hnext
        refine Prog.Safe.bind ((ih h₁.work hdir₁ hlist₁).mono ?_)
        intro es l₂ hrest
        obtain ⟨h₂, hes⟩ := hrest
        obtain ⟨_ | ⟨n, name⟩, it'⟩ := a
        · exact ⟨h₁.trans h₂, hes⟩
        · refine ⟨h₁.trans h₂, fun e he => ?_⟩
          rcases List.mem_cons.mp he with rfl | he
          · exact (hentry n name rfl).mono h₂.seen
          · exact hes e he
      · refine ⟨hw.refl, fun e he => ?_⟩
        cases he

end Listing

-- ======================================================= every function

section Prog

variable {l : Seat} {db : Store} {task : Task}

theorem Seat.start_atWork (task : Task) : (Seat.start task).AtWork :=
  ⟨.dataOpt, rfl⟩

/-- An inode that was handed out is vouched for. -/
theorem Task.Given.vouches (h : task.Given F db) {n : ViveInode}
    (hn : task.inode = some n) : (Seat.start task).Vouches F n := by
  rcases h.inode n hn with hroot | hmatch
  · exact Or.inl hroot
  · exact Or.inr ⟨n, ⟨hn, hmatch.extentSize⟩, rfl⟩

theorem Task.inode_of_file {f : ViveFile} (h : task.file = some f) :
    task.inode = some f.inode := by
  cases task with
  | write | writev | read | readv | fsync | close =>
      exact congrArg (Option.map ViveFile.inode) h
  | create | lookup | unlink | rename | listDir | openFile | openByInode
  | persist => cases h

/-- A caller that passes a handle it was handed is backed by its inode. -/
theorem Task.Given.backs (h : task.Given F db) {f : ViveFile}
    (hf : task.file = some f) : (Seat.start task).Backs F f :=
  ⟨h.vouches (inode_of_file hf), h.file f hf⟩

/-- An answer that hands out handles. -/
theorem Seat.returns_files {a : Answer}
    (ha : a.inodes = a.files.map ViveFile.inode)
    (h : ∀ f ∈ a.files, l.Backs F f) : l.Returns F a where
  inodes n hn := by
    rw [ha] at hn
    obtain ⟨f, hf, rfl⟩ := List.mem_map.mp hn
    exact (h f hf).1
  files f hf := (h f hf).2

theorem Seat.returns_file {f : ViveFile} {a : Answer} (h : l.Backs F f)
    (hfiles : a.files = [f]) (ha : a.inodes = [f.inode]) :
    l.Returns F a := by
  refine returns_files (by rw [ha, hfiles]; rfl) fun f' hf' => ?_
  rw [hfiles] at hf'
  exact List.mem_singleton.mp hf' ▸ h

theorem Seat.returns_code (l : Seat) (F : Lasting A) (r : Int) :
    l.Returns F (.code r) :=
  returns_files rfl fun f hf => by cases hf

/-- An answer that hands out inodes. -/
theorem Seat.returns_inodes {a : Answer} (ha : a.files = [])
    (h : ∀ n ∈ a.inodes, l.Vouches F n) : l.Returns F a where
  inodes := h
  files f hf := by
    rw [ha] at hf
    cases hf

/-- Every function of the API keeps to its seat, given what was handed
out, and hands out what its caller vouches for. -/
theorem safe_prog (h : task.Given F db) :
    SeatSafe F task.prog (fun a l => l.Returns F a) (Seat.start task) := by
  have hw := Seat.start_atWork task
  cases task with
  | create parent name mode uid gid =>
      refine Prog.Safe.bind
        ((safe_vnCreateFile hw parent name mode uid gid).mono ?_)
      intro a l hcreate
      refine Seat.returns_inodes rfl fun n hn => ?_
      exact Seat.vouches_seen (hcreate.2.2 n (Option.mem_toList.mp hn))
  | lookup parent name want =>
      refine Prog.Safe.bind
        ((safe_vnLookupInodeNo hw parent name want).mono ?_)
      intro a l hlookup
      refine Seat.returns_inodes rfl fun n hn => ?_
      have hn : a.2 = some n := Option.mem_toList.mp hn
      obtain ⟨-, rfl | ⟨m, -, -, -, hall⟩⟩ := hlookup
      · cases hn
      · exact (hall n hn).vouches
  | unlink parent name =>
      exact Prog.Safe.bind ((safe_vnUnlink hw parent name).mono
        fun r l _ => l.returns_code F r)
  | rename oldDir oldName newDir newName => exact Seat.returns_code _ F 0
  | listDir parent bufLen fuel =>
      refine Prog.safe_perform trivial fun itor l hseek => ?_
      obtain ⟨rfl, hlist⟩ := hseek
      have hdir : (⟨itor, dirPrefix parent⟩ : VnInodeIterator).dir
          = dirPrefix parent := rfl
      refine Prog.Safe.bind
        ((safe_iterateDir hw hdir hlist bufLen fuel).mono ?_)
      intro es l hes
      refine Seat.returns_inodes rfl fun n hn => ?_
      obtain ⟨e, he, rfl⟩ := List.mem_map.mp hn
      exact hes.2 e he
  | openFile parent name flags mode =>
      refine Prog.Safe.bind
        ((safe_vnOpenFile hw parent name flags mode).mono ?_)
      intro a l hopen
      exact Seat.returns_files rfl
        fun f hf => hopen f (Option.mem_toList.mp hf)
  | openByInode inode flags =>
      refine Prog.Safe.bind
        ((safe_vnOpenFileByInode hw (h.vouches rfl) flags).mono ?_)
      intro a l hopen
      refine Seat.returns_files rfl fun f hf => ?_
      obtain ⟨hinode, hno⟩ := hopen.handle f (Option.mem_toList.mp hf)
      exact ⟨hinode ▸ hopen.vouches, hinode ▸ hno⟩
  | write file inBuf offset =>
      exact Prog.Safe.bind ((safe_vnWrite hw (h.backs rfl) inBuf
        offset).mono fun a l hf => Seat.returns_file hf rfl rfl)
  | writev file iov offset =>
      exact Prog.Safe.bind ((safe_vnWritev hw (h.backs rfl) iov
        offset).mono fun a l hf => Seat.returns_file hf rfl rfl)
  | read file outBuf offset =>
      exact Prog.Safe.bind ((safe_vnRead hw (h.backs rfl) outBuf
        offset).mono fun a l hf => Seat.returns_file hf rfl rfl)
  | readv file iov offset =>
      exact Prog.Safe.bind ((safe_vnReadv hw (h.backs rfl) iov
        offset).mono fun a l hf => Seat.returns_file hf rfl rfl)
  | fsync file =>
      exact Prog.Safe.bind ((safe_vnFsync hw (h.backs rfl)).mono
        fun a l hf => Seat.returns_file hf rfl rfl)
  | close file =>
      refine Prog.Safe.bind (Prog.Safe.bind ?_)
      exact (safe_vnFsync hw (h.backs rfl)).mono
        fun _ l _ => l.returns_code F 0
  | persist inode =>
      exact Prog.Safe.bind ((safe_vnPersistInode hw (h.vouches rfl)).mono
        fun r l _ => l.returns_code F r)

end Prog

end ViveNas
