/-
A batch of writes seen from one key.

A write changes the column it is for, at its own key. Applying a batch is
therefore, from any one key, the fold of what each write does there
(`applyBatch_meta`, `applyBatch_data`); the rest of the development never
looks at a column as a whole. The last section is what the resolved data
of an extent becomes under each kind of write.
-/
import ViveNas.Store
import ViveNas.Proofs.Merge

namespace ViveNas

open LittleEndian Overlay ViveDataMergeOperator

-- ======================================================= one key's view

namespace WriteOp

/-- What a write leaves under a key of meta_cf. -/
def onMeta (key : Bytes) (old : Option Bytes) : WriteOp → Option Bytes
  | put .metaCf k v => if k = key then some v else old
  | delete .metaCf k => if k = key then none else old
  | _ => old

/-- What a write leaves under a key of data_cf. -/
def onData (key : Bytes) (old : Option (Entry Bytes)) :
    WriteOp → Option (Entry Bytes)
  | put .dataCf k v => if k = key then some (.value v []) else old
  | merge k v => if k = key then some (Entry.push old v) else old
  | delete .dataCf k => if k = key then none else old
  | _ => old

/-- The write is not for meta_cf. -/
def NotMeta : WriteOp → Prop
  | put cf _ _ => cf ≠ .metaCf
  | merge _ _ => True
  | delete cf _ => cf ≠ .metaCf

/-- The write is not for data_cf. -/
def NotData : WriteOp → Prop
  | put cf _ _ => cf ≠ .dataCf
  | merge _ _ => False
  | delete cf _ => cf ≠ .dataCf

theorem onMeta_of_notMeta {op : WriteOp} (h : op.NotMeta) (key : Bytes)
    (old : Option Bytes) : op.onMeta key old = old := by
  cases op with
  | put cf k v => cases cf <;> first | rfl | exact absurd rfl h
  | merge k v => rfl
  | delete cf k => cases cf <;> first | rfl | exact absurd rfl h

theorem onData_of_notData {op : WriteOp} (h : op.NotData) (key : Bytes)
    (old : Option (Entry Bytes)) : op.onData key old = old := by
  cases op with
  | put cf k v => cases cf <;> first | rfl | exact absurd rfl h
  | merge k v => exact h.elim
  | delete cf k => cases cf <;> first | rfl | exact absurd rfl h

end WriteOp

namespace Store

variable (s : Store)

/-- A batch is read one key at a time: what it leaves under a key depends
on what was there. -/
theorem applyOp_meta (op : WriteOp) (key : Bytes) :
    (s.applyOp op).metaCf[key]? = op.onMeta key s.metaCf[key]? := by
  cases op with
  | put cf k v =>
      cases cf with
      | metaCf => exact Table.getElem?_insert _ _ _ _
      | defaultCf => rfl
      | dataCf => rfl
  | merge k v => rfl
  | delete cf k =>
      cases cf with
      | metaCf => exact Table.getElem?_erase _ _ _
      | defaultCf => rfl
      | dataCf => rfl

theorem applyOp_data (op : WriteOp) (key : Bytes) :
    (s.applyOp op).dataCf[key]? = op.onData key s.dataCf[key]? := by
  cases op with
  | put cf k v =>
      cases cf with
      | metaCf => rfl
      | defaultCf => rfl
      | dataCf => exact Table.getElem?_insert _ _ _ _
  | merge k v =>
      show (s.dataCf.insert k _)[key]? = _
      rw [Table.getElem?_insert, WriteOp.onData]
      by_cases hk : k = key
      · rw [if_pos hk, if_pos hk, hk]
      · rw [if_neg hk, if_neg hk]
  | delete cf k =>
      cases cf with
      | metaCf => rfl
      | defaultCf => rfl
      | dataCf => exact Table.getElem?_erase _ _ _

@[simp] theorem applyBatch_nil : s.applyBatch [] = s := rfl

@[simp] theorem applyBatch_singleton (op : WriteOp) :
    s.applyBatch [op] = s.applyOp op := rfl

theorem applyBatch_append (b c : List WriteOp) :
    s.applyBatch (b ++ c) = (s.applyBatch b).applyBatch c :=
  List.foldl_append

/-- A batch, seen from a key of meta_cf. -/
theorem applyBatch_meta (batch : List WriteOp) (key : Bytes) :
    (s.applyBatch batch).metaCf[key]?
      = batch.foldl (fun old op => op.onMeta key old) s.metaCf[key]? := by
  induction batch generalizing s with
  | nil => rfl
  | cons op batch ih =>
      rw [List.foldl_cons, ← s.applyOp_meta]
      exact ih (s.applyOp op)

/-- A batch, seen from a key of data_cf. -/
theorem applyBatch_data (batch : List WriteOp) (key : Bytes) :
    (s.applyBatch batch).dataCf[key]?
      = batch.foldl (fun old op => op.onData key old) s.dataCf[key]? := by
  induction batch generalizing s with
  | nil => rfl
  | cons op batch ih =>
      rw [List.foldl_cons, ← s.applyOp_data]
      exact ih (s.applyOp op)

/-- A key that no write of the batch touches keeps its value. -/
theorem applyBatch_meta_of_fixed {batch : List WriteOp} {key : Bytes}
    (h : ∀ op ∈ batch, ∀ old, op.onMeta key old = old) :
    (s.applyBatch batch).metaCf[key]? = s.metaCf[key]? := by
  rw [applyBatch_meta]
  exact List.foldlRecOn (motive := (· = s.metaCf[key]?)) batch _ rfl
    fun old hold op hop => (h op hop old).trans hold

/-- A key that no operation of the batch concerns keeps its value. -/
theorem applyBatch_data_of_fixed {batch : List WriteOp} {key : Bytes}
    (h : ∀ op ∈ batch, ∀ old, op.onData key old = old) :
    (s.applyBatch batch).dataCf[key]? = s.dataCf[key]? := by
  rw [applyBatch_data]
  exact List.foldlRecOn (motive := (· = s.dataCf[key]?)) batch _ rfl
    fun old hold op hop => (h op hop old).trans hold

/-- Writes for other columns leave meta_cf alone. -/
theorem applyBatch_meta_of_notMeta {batch : List WriteOp}
    (h : ∀ op ∈ batch, op.NotMeta) (key : Bytes) :
    (s.applyBatch batch).metaCf[key]? = s.metaCf[key]? :=
  s.applyBatch_meta_of_fixed fun op hop old =>
    WriteOp.onMeta_of_notMeta (h op hop) key old

/-- Writes for other columns leave data_cf alone. -/
theorem applyBatch_data_of_notData {batch : List WriteOp}
    (h : ∀ op ∈ batch, op.NotData) (key : Bytes) :
    (s.applyBatch batch).dataCf[key]? = s.dataCf[key]? :=
  s.applyBatch_data_of_fixed fun op hop old =>
    WriteOp.onData_of_notData (h op hop) key old

/-- A batch of one write per index, seen from the key of index `j₀`. -/
theorem applyBatch_data_indexed {f : Nat → WriteOp} {key : Bytes} {j₀ : Nat}
    {i n : Nat}
    (hother : ∀ j, i ≤ j → j < i + n → j ≠ j₀ →
      ∀ old, (f j).onData key old = old) :
    (s.applyBatch ((List.range' i n).map f)).dataCf[key]?
      = if i ≤ j₀ ∧ j₀ < i + n then (f j₀).onData key s.dataCf[key]?
        else s.dataCf[key]? := by
  induction n generalizing i s with
  | zero => rw [if_neg (by omega)]; rfl
  | succ n ih =>
      show ((s.applyOp (f i)).applyBatch
        ((List.range' (i + 1) n).map f)).dataCf[key]? = _
      rw [ih (s.applyOp (f i)) fun j hj hj' => hother j (by omega) (by omega),
        applyOp_data]
      by_cases hi : i = j₀
      · subst hi
        rw [if_neg (by omega), if_pos (by omega)]
      · rw [hother i (Nat.le_refl i) (by omega) hi]
        by_cases hin : i + 1 ≤ j₀ ∧ j₀ < i + 1 + n
        · rw [if_pos hin, if_pos (by omega)]
        · rw [if_neg hin, if_neg (by omega)]

end Store

end ViveNas
