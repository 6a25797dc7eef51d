/-
What meta_cf is for: a finite map from names to numbers.

This is a specification, not a model of code. `Namespace` is the map and
a bound that every number given out lies below, so a fresh number is one
that was never used, not one that is free at the moment. `Namespace.Step`
says what each call may return and how it changes the map; that the file
system's calls are such steps is Proofs/Namespace.lean.
-/
import ViveNas.System

namespace ViveNas

/-- The names there are, each with its number, and the number to be given
out next. -/
structure Namespace where
  map : Finmap fun _ : Int × FileName => Nat
  next : Nat

namespace Namespace

/-- Nothing is named yet. -/
def empty : Namespace := ⟨∅, vnFirstUserIno⟩

/-- The number of a name. -/
def find (N : Namespace) (parent : Int) (name : FileName) : Option Nat :=
  N.map.lookup (parent, name)

/-- The name given the number `n`. -/
def bind (N : Namespace) (parent : Int) (name : FileName) (n : Nat) :
    Namespace :=
  ⟨N.map.insert (parent, name) n, n + 1⟩

/-- The name taken away. -/
def unbind (N : Namespace) (parent : Int) (name : FileName) : Namespace :=
  ⟨N.map.erase (parent, name), N.next⟩

variable {N N' : Namespace} {p q : Int} {a b : FileName} {n : Nat}

theorem find_bind :
    (N.bind p a n).find q b
      = if (p, a) = (q, b) then some n else N.find q b := by
  by_cases h : (p, a) = (q, b)
  · rw [if_pos h, find, bind, ← h, Finmap.lookup_insert]
  · rw [if_neg h, find, bind, Finmap.lookup_insert_of_ne _ (Ne.symm h), find]

theorem find_unbind :
    (N.unbind p a).find q b
      = if (p, a) = (q, b) then none else N.find q b := by
  by_cases h : (p, a) = (q, b)
  · rw [if_pos h, find, unbind, ← h, Finmap.lookup_erase]
  · rw [if_neg h, find, unbind, Finmap.lookup_erase_ne (Ne.symm h), find]

-- =============================================================== the calls

/-- The call neither changes nor tells what is named. -/
def Nameless : Call → Prop
  | .create .. | .lookup .. | .openFile .. | .unlink .. => False
  | _ => True

/-- What a call may return, and the map after it. -/
inductive Step : Namespace → Event → Namespace → Prop where
  | tick {N : Namespace} : Step N .tick N
  | createTaken {N : Namespace} {addr : Option Nat} {p : Int} {a : FileName}
      {mode uid gid : UInt16} {n : Nat} (h : N.find p a = some n) :
      Step N (.call (.create addr p a mode uid gid) (-eexist) true) N
  | createFresh {N : Namespace} {addr : Option Nat} {p : Int} {a : FileName}
      {mode uid gid : UInt16} {n : Nat} (h : N.find p a = none)
      (hn : N.next ≤ n) :
      Step N (.call (.create addr p a mode uid gid) n true) (N.bind p a n)
  | lookupNone {N : Namespace} {addr : Nat} {p : Int} {a : FileName}
      (h : N.find p a = none) :
      Step N (.call (.lookup addr p a) (-1) false) N
  | lookupFound {N : Namespace} {addr : Nat} {p : Int} {a : FileName}
      {n : Nat} (h : N.find p a = some n) :
      Step N (.call (.lookup addr p a) n false) N
  | openNone {N : Namespace} {fd addr : Nat} {p : Int} {a : FileName}
      {flags : UInt32} {mode : UInt16} (h : N.find p a = none)
      (hflag : hasFlag flags oCreat = false) :
      Step N (.call (.openFile fd addr p a flags mode) (-1) false) N
  | openFound {N : Namespace} {fd addr : Nat} {p : Int} {a : FileName}
      {flags : UInt32} {mode : UInt16} {n : Nat} (h : N.find p a = some n) :
      Step N (.call (.openFile fd addr p a flags mode) n false) N
  | openCreate {N : Namespace} {fd addr : Nat} {p : Int} {a : FileName}
      {flags : UInt32} {mode : UInt16} {n : Nat} (h : N.find p a = none)
      (hflag : hasFlag flags oCreat = true) (hn : N.next ≤ n) :
      Step N (.call (.openFile fd addr p a flags mode) n true) (N.bind p a n)
  | unlinkNone {N : Namespace} {p : Int} {a : FileName}
      (h : N.find p a = none) :
      Step N (.call (.unlink p a) (-enoent) false) N
  | unlinkFound {N : Namespace} {p : Int} {a : FileName} {n : Nat}
      (h : N.find p a = some n) :
      Step N (.call (.unlink p a) 0 false) (N.unbind p a)
  | other {N : Namespace} {c : Call} {r : Int} (h : Nameless c) :
      Step N (.call c r false) N

-- ======================================================== what always holds

/-- Numbers come from the range for files, and no two names share one. -/
structure WellFormed (N : Namespace) : Prop where
  low : ∀ p a n, N.find p a = some n → vnFirstUserIno ≤ n
  used : ∀ p a n, N.find p a = some n → n < N.next
  next : vnFirstUserIno ≤ N.next
  injective : ∀ p a q b n, N.find p a = some n → N.find q b = some n →
    (p, a) = (q, b)

theorem wellFormed_empty : WellFormed empty where
  low p a n h := by cases h
  used p a n h := by cases h
  next := Nat.le_refl _
  injective p a q b n h := by cases h

/-- A fresh number keeps the map well formed. -/
theorem WellFormed.bind (h : WellFormed N) (hn : N.next ≤ n) :
    WellFormed (N.bind p a n) where
  low q b m hm := by
    rw [find_bind] at hm
    split at hm
    · cases hm
      exact Nat.le_trans h.next hn
    · exact h.low q b m hm
  used q b m hm := by
    show m < n + 1
    rw [find_bind] at hm
    split at hm
    · cases hm
      exact Nat.lt_succ_self n
    · have := h.used q b m hm
      omega
  next := Nat.le_succ_of_le (Nat.le_trans h.next hn)
  injective q b q' b' m hm hm' := by
    rw [find_bind] at hm hm'
    split at hm
    · next heq =>
      cases hm
      split at hm'
      · next heq' => rw [← heq, heq']
      · -- the other name's number was in use already
        have := h.used q' b' n hm'
        omega
    · split at hm'
      · cases hm'
        have := h.used q b n hm
        omega
      · exact h.injective q b q' b' m hm hm'

theorem WellFormed.unbind (h : WellFormed N) : WellFormed (N.unbind p a) := by
  have hfind : ∀ q b m, (N.unbind p a).find q b = some m →
      N.find q b = some m := by
    intro q b m hm
    rw [find_unbind] at hm
    split at hm
    · cases hm
    · exact hm
  exact {
    low := fun q b m hm => h.low q b m (hfind q b m hm)
    used := fun q b m hm => h.used q b m (hfind q b m hm)
    next := h.next
    injective := fun q b q' b' m hm hm' =>
      h.injective q b q' b' m (hfind q b m hm) (hfind q' b' m hm') }

/-- Whatever is done with names, no two of them get one number. -/
theorem Step.wellFormed {e : Event} (hstep : Step N e N')
    (h : WellFormed N) : WellFormed N' := by
  cases hstep with
  | createFresh _ hn => exact h.bind hn
  | openCreate _ _ hn => exact h.bind hn
  | unlinkFound _ => exact h.unbind
  | _ => exact h

end Namespace

end ViveNas
