/-
Ordered tables, partial functions, and the entries a merging store keeps
in a table.

`Table` is the standard library's extensional ordered map; what is added
here is the reading of an update by plain equality of keys, and the
ordered scan an iterator makes: `seek` is the sorted contents from a
target key on.

`Entry` is what a store with a merge operator holds under a key: a value
with operands still to be merged into it, or operands alone. A key that
holds nothing has no entry, so an entry always has something to resolve.
-/
import Mathlib

-- ============================================================== tables

/-- An ordered map. -/
abbrev Table (K V : Type) [Ord K] := Std.ExtTreeMap K V

namespace Table

variable {K V : Type} [Ord K] [Std.TransOrd K] [Std.LawfulEqOrd K]

/-- A table has finitely many keys. -/
theorem finite_keys (t : Table K V) :
    {k : K | ∃ v, t[k]? = some v}.Finite := by
  refine t.keys.finite_toSet.subset ?_
  rintro k ⟨v, hv⟩
  refine Std.ExtTreeMap.mem_keys.mpr ?_
  rw [Std.ExtTreeMap.mem_iff_isSome_getElem?, hv]
  rfl

variable [DecidableEq K]

theorem getElem?_insert (t : Table K V) (k a : K) (v : V) :
    (t.insert k v)[a]? = if k = a then some v else t[a]? := by
  rw [Std.ExtTreeMap.getElem?_insert]
  simp only [Std.LawfulEqOrd.compare_eq_iff_eq]

theorem getElem?_erase (t : Table K V) (k a : K) :
    (t.erase k)[a]? = if k = a then none else t[a]? := by
  rw [Std.ExtTreeMap.getElem?_erase]
  simp only [Std.LawfulEqOrd.compare_eq_iff_eq]

/-- The contents from `target` on, in key order. -/
def seek (t : Table K V) (target : K) : List (K × V) :=
  t.toList.dropWhile fun e => compare e.1 target == .lt

end Table

-- =================================================== partial functions

/-- What holds of every value of a partial function, after one place is
set anew. -/
theorem Partial.forall_update {A B : Type} [DecidableEq A] {g : A → Option B}
    {i : A} {x : Option B} {P : A → B → Prop}
    (hset : ∀ y, x = some y → P i y)
    (hrest : ∀ j, j ≠ i → ∀ y, g j = some y → P j y) :
    ∀ j y, Function.update g i x j = some y → P j y := by
  intro j y hy
  by_cases hj : j = i
  · subst hj
    rw [Function.update_self] at hy
    exact hset y hy
  · rw [Function.update_of_ne hj] at hy
    exact hrest j hj y hy

-- ============================================================= entries

/-- What a merging store holds under a key. -/
inductive Entry (V : Type) where
  | value (base : V) (operands : List V)
  | deltas (first : V) (rest : List V)

namespace Entry

variable {V ε : Type}

/-- The value under the operands, if there is one. -/
def base : Entry V → Option V
  | value b _ => some b
  | deltas _ _ => none

/-- The operands still to be merged, oldest first. -/
def operands : Entry V → List V
  | value _ ops => ops
  | deltas f r => f :: r

/-- One more operand on what a key holds. -/
def push : Option (Entry V) → V → Entry V
  | none, d => deltas d []
  | some (value b ops), d => value b (ops ++ [d])
  | some (deltas f r), d => deltas f (r ++ [d])

/-- The value a read resolves: the stored one when nothing is pending,
else the full merge of what is. -/
def resolve (full : Option V → List V → Except ε V) : Entry V → Except ε V
  | value b [] => .ok b
  | value b (o :: os) => full (some b) (o :: os)
  | deltas f r => full none (f :: r)

theorem base_push (e : Option (Entry V)) (d : V) :
    (push e d).base = e.bind base := by
  rcases e with _ | _ | _ <;> rfl

theorem operands_push (e : Option (Entry V)) (d : V) :
    (push e d).operands = ((e.map operands).getD []) ++ [d] := by
  rcases e with _ | _ | _ <;> rfl

/-- With something pending, a read is the full merge of all of it. -/
theorem resolve_of_operands {full : Option V → List V → Except ε V}
    {e : Entry V} (h : e.operands ≠ []) :
    e.resolve full = full e.base e.operands := by
  rcases e with ⟨b, _ | ⟨o, os⟩⟩ | ⟨f, r⟩
  · exact absurd rfl h
  · rfl
  · rfl

end Entry
