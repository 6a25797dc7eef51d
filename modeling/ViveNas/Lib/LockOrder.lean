/-
Locks taken in an order.

Callers hold locks and ask for more of them, one at a time. A caller that
asks for what another holds waits for it. If all ask only for locks that
rank above those they hold, a chain of callers who wait for each other
climbs, so that it ends, where the ranks are bounded, at one who does not
wait.
-/
import Mathlib.Logic.Relation

namespace LockOrder

variable {ι κ : Type}

/-- Who holds which lock, and who is about to ask for which. -/
structure Table (ι κ : Type) where
  holder : κ → Option ι
  asks : ι → κ → Prop

namespace Table

variable (t : Table ι κ)

/-- `i` asks for a lock that `j` holds. -/
def Waits (i j : ι) : Prop :=
  i ≠ j ∧ ∃ key, t.asks i key ∧ t.holder key = some j

/-- What the caller asks for, if another holds it, ranks above all that it
holds itself. -/
def Climbs (rank : κ → Nat) (i : ι) : Prop :=
  ∀ key key' j, t.holder key = some i → t.asks i key' →
    t.holder key' = some j → j ≠ i → rank key < rank key'

variable {t} {rank : κ → Nat} {bound : Nat} {i j : ι}

/-- Those who wait for each other come to one who does not climb or does
not wait. -/
theorem waiting_ends (hrank : ∀ key, rank key < bound) (h : t.Waits i j) :
    ∃ k, (∃ key, t.holder key = some k) ∧ Relation.TransGen t.Waits i k
      ∧ (¬ t.Climbs rank k ∨ ∀ l, ¬ t.Waits k l) := by
  obtain ⟨hne, key, hasks, hholds⟩ := h
  -- the chain has no more links than there are ranks above `key`
  induction hm : bound - rank key using Nat.strongRecOn generalizing i j key
    with
  | ind m ih =>
      have hstep : t.Waits i j := ⟨hne, key, hasks, hholds⟩
      by_cases hclimb : t.Climbs rank j
      · by_cases hwait : ∃ l, t.Waits j l
        · obtain ⟨l, hne', key', hasks', hholds'⟩ := hwait
          have hlt := hclimb key key' l hholds hasks' hholds' hne'.symm
          have hbound := hrank key'
          obtain ⟨k, hk, hchain, hend⟩ := ih (bound - rank key') (by omega)
            hne' key' hasks' hholds' rfl
          exact ⟨k, hk, .head hstep hchain, hend⟩
        · exact ⟨j, ⟨key, hholds⟩, .single hstep,
            Or.inr fun l hl => hwait ⟨l, hl⟩⟩
      · exact ⟨j, ⟨key, hholds⟩, .single hstep, Or.inl hclimb⟩

end Table

end LockOrder
