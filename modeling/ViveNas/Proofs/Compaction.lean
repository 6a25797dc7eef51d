/-
Reads do not depend on when the store compacts.

A key of data_cf collects a base and pending operands; at moments of its
own choosing the store replaces them by the base that `FullMergeV2`
makes of them. `ExtentEvent.run` is such a history with its collapses.

# The invariant

`Reflects` says that what is held and what the plain history left are
alike under every operand still to come: a collapsed base holds the same
data, and its zero header is the one a full merge writes anyway.
-/
import ViveNas.Proofs.Store

namespace ViveNas

open Overlay ViveDataMergeOperator

-- =============================================================== histories

/-- An operation on an extent's key. -/
inductive ExtentOp where
  | put (v : FullExtent)
  | merge (d : Delta)
  | delete

/-- An operation, or the store collapsing what it holds. -/
inductive ExtentEvent where
  | op (o : ExtentOp)
  | collapse

/-- What the key holds after an operation. -/
def ExtentOp.apply : ExtentOp → Option (Entry Bytes) → Option (Entry Bytes)
  | put v, _ => some (.value v.bytes [])
  | merge d, e => some (Entry.push e d.bytes)
  | delete, _ => none

/-- The operation as a transaction writes it. -/
def ExtentOp.write (key : Bytes) : ExtentOp → WriteOp
  | put v => .put .dataCf key v.bytes
  | merge d => .merge key d.bytes
  | delete => .delete .dataCf key

/-- An operation on the key is that operation on the store. -/
theorem ExtentOp.applyOp_write (db : Store) (key : Bytes) (o : ExtentOp) :
    (db.applyOp (o.write key)).dataCf[key]? = o.apply db.dataCf[key]? := by
  rw [Store.applyOp_data]
  cases o <;> exact if_pos rfl

/-- Pending operands merged into a base; with none pending nothing is
done. -/
def compact : Option (Entry Bytes) → Except Fault (Option (Entry Bytes))
  | none => .ok none
  | some e =>
      if e.operands = [] then .ok (some e)
      else (fullMergeV2 e.base e.operands []).map fun v => some (.value v [])

/-- What `Get` resolves from what the key holds. -/
def resolved : Option (Entry Bytes) → Except Fault (Option Bytes)
  | none => .ok none
  | some e => (e.resolve fun b ops => fullMergeV2 b ops []).map some

theorem getData_eq_resolved (db : Store) (key : Bytes) :
    db.getData key = resolved db.dataCf[key]? := by
  rw [Store.getData]
  cases db.dataCf[key]? <;> rfl

namespace ExtentEvent

/-- The events in order. -/
def run : List ExtentEvent → Option (Entry Bytes) →
    Except Fault (Option (Entry Bytes))
  | [], e => .ok e
  | .op o :: es, e => run es (o.apply e)
  | .collapse :: es, e => compact e >>= run es

/-- Not a collapse. -/
def isOp : ExtentEvent → Bool
  | op _ => true
  | collapse => false

/-- The base and the operands the operations leave, collapses aside. -/
def history : List ExtentEvent → Option FullExtent × List Delta →
    Option FullExtent × List Delta
  | [], h => h
  | .op (.put v) :: es, _ => history es (some v, [])
  | .op (.merge d) :: es, (b, ops) => history es (b, ops ++ [d])
  | .op .delete :: es, _ => history es (none, [])
  | .collapse :: es, h => history es h

theorem history_filter (es : List ExtentEvent)
    (h : Option FullExtent × List Delta) :
    history (es.filter isOp) h = history es h := by
  induction es generalizing h with
  | nil => rfl
  | cons e es ih =>
      cases e with
      | op o =>
          rw [List.filter_cons_of_pos rfl]
          cases o with
          | put v => exact ih _
          | merge d => exact ih _
          | delete => exact ih _
      | collapse =>
          rw [List.filter_cons_of_neg (by decide)]
          exact ih h

end ExtentEvent

-- ============================================================ what is held

/-- The key carries this base and these operands. -/
inductive Carries :
    Option (Entry Bytes) → Option FullExtent → List Delta → Prop where
  | absent : Carries none none []
  | entry {e : Entry Bytes} {b : Option FullExtent} {ops : List Delta}
      (hbase : e.base = b.map FullExtent.bytes)
      (hops : e.operands = ops.map Delta.bytes) : Carries (some e) b ops

/-- A full merge's result, as a base. -/
def mergedExtent (b : Option FullExtent) (ops : List Delta) :
    FullExtent where
  bytes := List.replicate pfsExtentHeadSize 0 ++ mergedData b ops
  size_eq := by
    rw [List.length_append, List.length_replicate, mergedData_length]

theorem fullMergeV2_eq (b : Option FullExtent) (ops : List Delta) :
    fullMergeV2 (b.map FullExtent.bytes) (ops.map Delta.bytes) []
      = .ok (mergedExtent b ops).bytes :=
  fullMergeV2_spec b ops

/-- A merged base under more operands is all of them at once. -/
theorem mergedData_mergedExtent (b : Option FullExtent)
    (ops more : List Delta) :
    mergedData (some (mergedExtent b ops)) more
      = mergedData b (ops ++ more) := by
  have hdata : baseData (some (mergedExtent b ops)) = mergedData b ops :=
    List.drop_left' List.length_replicate
  rw [mergedData, hdata, mergedData, mergedData, List.map_append, applyAll,
    applyAll, applyAll, List.foldl_append]

theorem mergedExtent_bytes_congr {b c : Option FullExtent}
    {ops more : List Delta} (h : mergedData b ops = mergedData c more) :
    (mergedExtent b ops).bytes = (mergedExtent c more).bytes := by
  show _ ++ mergedData b ops = _ ++ mergedData c more
  rw [h]

/-- The value of a base with operands pending; a lone base is itself. -/
def settled (b : Option FullExtent) (ops : List Delta) : Option Bytes :=
  if ops = [] then b.map FullExtent.bytes
  else some (mergedExtent b ops).bytes

namespace Carries

variable {e : Option (Entry Bytes)} {b : Option FullExtent}
  {ops : List Delta}

theorem push (h : Carries e b ops) (d : Delta) :
    Carries (some (Entry.push e d.bytes)) b (ops ++ [d]) := by
  refine .entry ?_ ?_
  · rw [Entry.base_push]
    cases h with
    | absent => rfl
    | entry hbase _ => exact hbase
  · rw [Entry.operands_push, List.map_append]
    cases h with
    | absent => rfl
    | entry _ hops => rw [Option.map_some, Option.getD_some, hops]; rfl

/-- What is held resolves to its settled value. -/
theorem resolved_eq (h : Carries e b ops) :
    resolved e = .ok (settled b ops) := by
  cases h with
  | absent => rfl
  | @entry e b ops hbase hops =>
      by_cases hnil : ops = []
      · subst hnil
        rw [settled, if_pos rfl]
        cases e with
        | value v operands =>
            obtain rfl : operands = [] := hops
            show Except.ok (some v) = _
            rw [← hbase]
            rfl
        | deltas first rest => cases hops
      · have hne : e.operands ≠ [] := by
          rw [hops]
          simpa using hnil
        rw [settled, if_neg hnil, resolved, Entry.resolve_of_operands hne,
          hbase, hops, fullMergeV2_eq]
        rfl

/-- A collapse leaves a lone base alone and merges anything else. -/
theorem compact_eq (h : Carries e b ops) :
    (ops = [] ∧ compact e = .ok e)
      ∨ (ops ≠ [] ∧ compact e
        = .ok (some (.value (mergedExtent b ops).bytes []))) := by
  cases h with
  | absent => exact Or.inl ⟨rfl, rfl⟩
  | @entry e b ops hbase hops =>
      by_cases hnil : ops = []
      · refine Or.inl ⟨hnil, ?_⟩
        rw [compact, if_pos (by rw [hops, hnil]; rfl)]
      · refine Or.inr ⟨hnil, ?_⟩
        have hne : e.operands ≠ [] := by
          rw [hops]
          simpa using hnil
        rw [compact, if_neg hne, hbase, hops, fullMergeV2_eq]
        rfl

end Carries

-- ============================================================ the invariant

/-- What is held gives, now and under any operands to come, what the plain
history gives. -/
def Reflects (e : Option (Entry Bytes))
    (h : Option FullExtent × List Delta) : Prop :=
  ∃ b ops, Carries e b ops ∧ settled b ops = settled h.1 h.2
    ∧ ∀ more, mergedData b (ops ++ more) = mergedData h.1 (h.2 ++ more)

theorem Carries.reflects {e : Option (Entry Bytes)} {b : Option FullExtent}
    {ops : List Delta} (h : Carries e b ops) : Reflects e (b, ops) :=
  ⟨b, ops, h, rfl, fun _ => rfl⟩

/-- One more operand on both sides. -/
theorem Reflects.merge {e : Option (Entry Bytes)} {b : Option FullExtent}
    {ops : List Delta} (h : Reflects e (b, ops)) (d : Delta) :
    Reflects (some (Entry.push e d.bytes)) (b, ops ++ [d]) := by
  obtain ⟨b', ops', hcarries, -, hmore⟩ := h
  refine ⟨b', ops' ++ [d], hcarries.push d, ?_, ?_⟩
  · rw [settled, settled, if_neg (by simp), if_neg (by simp),
      mergedExtent_bytes_congr (hmore [d])]
  · intro more
    rw [List.append_assoc, List.append_assoc]
    exact hmore ([d] ++ more)

/-- A collapse changes nothing that can be seen. -/
theorem Reflects.compact {e : Option (Entry Bytes)}
    {h : Option FullExtent × List Delta} (hr : Reflects e h) :
    ∃ e', compact e = .ok e' ∧ Reflects e' h := by
  obtain ⟨b, ops, hcarries, hsettled, hmore⟩ := hr
  rcases hcarries.compact_eq with ⟨-, hsame⟩ | ⟨hne, hmerged⟩
  · exact ⟨e, hsame, b, ops, hcarries, hsettled, hmore⟩
  · refine ⟨_, hmerged, some (mergedExtent b ops), [], .entry rfl rfl, ?_, ?_⟩
    · rw [← hsettled, settled, settled, if_pos rfl, if_neg hne]
      rfl
    · intro more
      rw [List.nil_append, mergedData_mergedExtent]
      exact hmore more

/-- A whole history, collapses and all. -/
theorem Reflects.run {e : Option (Entry Bytes)}
    {h : Option FullExtent × List Delta} (hr : Reflects e h)
    (es : List ExtentEvent) :
    ∃ e', ExtentEvent.run es e = .ok e'
      ∧ Reflects e' (ExtentEvent.history es h) := by
  induction es generalizing e h with
  | nil => exact ⟨e, rfl, hr⟩
  | cons event es ih =>
      cases event with
      | op o =>
          cases o with
          | put v => exact ih (Carries.entry rfl rfl).reflects
          | merge d => exact ih (hr.merge d)
          | delete => exact ih Carries.absent.reflects
      | collapse =>
          obtain ⟨e', hcompact, hr'⟩ := hr.compact
          rw [ExtentEvent.run, hcompact, ok_bind]
          exact ih hr'

/-- What `Get` resolves after a history is settled by its operations. -/
theorem run_resolved (es : List ExtentEvent) :
    (ExtentEvent.run es none >>= resolved)
      = .ok (settled (ExtentEvent.history es (none, [])).1
          (ExtentEvent.history es (none, [])).2) := by
  obtain ⟨e, hrun, b, ops, hcarries, hsettled, -⟩ :=
    Carries.absent.reflects.run es
  rw [hrun, ok_bind, hcarries.resolved_eq, hsettled]

-- ================================================================ the bytes

/-- A data byte of a base; zero without one. -/
def baseByte (b : Option FullExtent) (i : Nat) : UInt8 :=
  match b with
  | none => 0
  | some v => v.bytes.getD (pfsExtentHeadSize + i) 0

/-- A data byte of a base with operands over it: the last operand covering
it decides, then the base. -/
def settledByte (b : Option FullExtent) (ops : List Delta) (i : Nat) :
    UInt8 :=
  (latest (ops.map Delta.patch) i).getD (baseByte b i)

theorem mergedExtent_byte (b : Option FullExtent) (ops : List Delta)
    {i : Nat} (hi : i < vivefsExtentSize) :
    (mergedExtent b ops).bytes[pfsExtentHeadSize + i]?
      = some (settledByte b ops i) := by
  have hbase : (baseData b)[i]? = some (baseByte b i) := by
    cases b with
    | none => rw [baseData, List.getElem?_replicate_of_lt hi, baseByte]
    | some v =>
        have hlen := v.size_eq
        show (v.bytes.drop pfsExtentHeadSize)[i]?
          = some (v.bytes.getD (pfsExtentHeadSize + i) 0)
        rw [List.getElem?_drop, List.getD_eq_getElem?_getD,
          List.getElem?_eq_getElem (by omega)]
        rfl
  have hhead : (List.replicate pfsExtentHeadSize (0 : UInt8)).length
      = pfsExtentHeadSize := List.length_replicate
  rw [mergedExtent, List.getElem?_append_right (by omega), hhead,
    Nat.add_sub_cancel_left, mergedData_getElem?, hbase, settledByte]
  cases latest (ops.map Delta.patch) i <;> rfl

/-- Compaction points do not matter: a history reads the same with its
collapses and without, and two full merges in a row are one. The value is
a whole extent, every byte of it the last operand's covering it, else the
base's, else zero. -/
theorem compaction_independent (es : List ExtentEvent)
    (b : Option FullExtent) (ops₁ ops₂ : List Delta) :
    (ExtentEvent.run es none >>= resolved)
        = (ExtentEvent.run (es.filter ExtentEvent.isOp) none >>= resolved)
      ∧ (fullMergeV2 (b.map FullExtent.bytes) (ops₁.map Delta.bytes) []
          >>= fun v => fullMergeV2 (some v) (ops₂.map Delta.bytes) [])
        = fullMergeV2 (b.map FullExtent.bytes)
            ((ops₁ ++ ops₂).map Delta.bytes) []
      ∧ ∃ v, fullMergeV2 (b.map FullExtent.bytes)
            ((ops₁ ++ ops₂).map Delta.bytes) [] = .ok v
          ∧ v.length = pfsExtentHeadSize + vivefsExtentSize
          ∧ ∀ i < vivefsExtentSize, v[pfsExtentHeadSize + i]?
            = some (settledByte b (ops₁ ++ ops₂) i) := by
  refine ⟨?_, ?_, ?_⟩
  · rw [run_resolved, run_resolved, ExtentEvent.history_filter]
  · rw [fullMergeV2_eq, ok_bind, fullMergeV2_eq]
    show fullMergeV2 ((some (mergedExtent b ops₁)).map FullExtent.bytes) _ []
      = _
    rw [fullMergeV2_eq, mergedExtent_bytes_congr
      (mergedData_mergedExtent b ops₁ ops₂)]
  · exact ⟨_, fullMergeV2_eq b (ops₁ ++ ops₂),
      (mergedExtent b (ops₁ ++ ops₂)).size_eq,
      fun i hi => mergedExtent_byte b (ops₁ ++ ops₂) hi⟩

end ViveNas
