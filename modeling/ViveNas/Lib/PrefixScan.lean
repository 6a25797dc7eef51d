/-
Keys in lexicographic order, and the scan of one prefix.

Keys that share a prefix stand together: between the first key that is
not below the prefix and any key that has it, every key has it
(`prefix_of_between`). A cursor that seeks the prefix and walks on while
it lasts therefore meets every key with the prefix and no other
(`scan_eq_filter`).
-/
import ViveNas.Lib.Table

namespace PrefixScan

variable {α V : Type} [Ord α]

-- =============================================================== the order

theorem compare_cons (x y : α) (a b : List α) :
    compare (x :: a) (y :: b) = (compare x y).then (compare a b) :=
  List.compareLex_cons_cons

theorem compare_nil_cons (x : α) (a : List α) :
    compare ([] : List α) (x :: a) = .lt := rfl

/-- Blocks of equal length are compared one after the other. -/
theorem compare_append {a b : List α} (hlen : a.length = b.length)
    (c d : List α) :
    compare (a ++ c) (b ++ d) = (compare a b).then (compare c d) := by
  induction a generalizing b with
  | nil =>
      obtain rfl := List.eq_nil_of_length_eq_zero hlen.symm
      rfl
  | cons x a ih =>
      cases b with
      | nil => cases hlen
      | cons y b =>
          rw [List.cons_append, List.cons_append, compare_cons, compare_cons,
            ih (Nat.succ.inj hlen), Ordering.then_assoc]

variable [Std.LawfulEqOrd α]

/-- A key is not below its prefix. -/
theorem not_lt_of_prefix {p k : List α} (h : p <+: k) :
    compare k p ≠ .lt := by
  obtain ⟨rest, rfl⟩ := h
  induction p with
  | nil => cases rest <;> exact Ordering.noConfusion
  | cons x p ih =>
      rw [List.cons_append, compare_cons, Std.ReflOrd.compare_self]
      exact ih

/-- Between the prefix and a key that has it, every key has it. -/
theorem prefix_of_between {p k l : List α} (hp : compare k p ≠ .lt)
    (hkl : compare k l = .lt) (hl : p <+: l) : p <+: k := by
  induction p generalizing k l with
  | nil => exact List.nil_prefix
  | cons x p ih =>
      obtain ⟨rest, rfl⟩ := hl
      cases k with
      | nil => exact absurd (compare_nil_cons x p) hp
      | cons y k =>
          rw [List.cons_append, compare_cons] at hkl
          rw [compare_cons] at hp
          cases hxy : compare y x with
          | lt => exact absurd (by rw [hxy]; rfl) hp
          | gt => rw [hxy] at hkl; cases hkl
          | eq =>
              rw [hxy] at hkl hp
              obtain rfl := Std.LawfulEqOrd.eq_of_compare hxy
              obtain ⟨tail, rfl⟩ := ih hp hkl ⟨rest, rfl⟩
              exact ⟨tail, rfl⟩

-- ================================================================ the scan

variable [DecidableEq α]

/-- From keys that are not below the prefix, the walk takes all that have
it. -/
theorem takeWhile_eq_filter {l : List (List α × V)} {p : List α}
    (hsorted : l.Pairwise fun a b => compare a.1 b.1 = .lt)
    (hge : ∀ e ∈ l, compare e.1 p ≠ .lt) :
    l.takeWhile (fun e => p.isPrefixOf e.1)
      = l.filter fun e => p.isPrefixOf e.1 := by
  induction l with
  | nil => rfl
  | cons e l ih =>
      obtain ⟨hfirst, hrest⟩ := List.pairwise_cons.mp hsorted
      by_cases hpre : p.isPrefixOf e.1 = true
      · rw [List.takeWhile_cons, List.filter_cons, if_pos hpre, if_pos hpre,
          ih hrest fun a ha => hge a (List.mem_cons_of_mem e ha)]
      · -- no later key can have the prefix either
        have hnone : l.filter (fun e => p.isPrefixOf e.1) = [] := by
          rw [List.filter_eq_nil_iff]
          intro a ha hpa
          rw [List.isPrefixOf_iff_prefix] at hpa hpre
          exact hpre (prefix_of_between (hge e List.mem_cons_self)
            (hfirst a ha) hpa)
        rw [List.takeWhile_cons, List.filter_cons, if_neg hpre, if_neg hpre,
          hnone]

/-- A seek and a walk over a sorted list: the keys with the prefix. -/
theorem scan_eq_filter [Std.TransOrd α] {l : List (List α × V)}
    (hsorted : l.Pairwise fun a b => compare a.1 b.1 = .lt) (p : List α) :
    (l.dropWhile fun e => compare e.1 p == .lt).takeWhile
        (fun e => p.isPrefixOf e.1)
      = l.filter fun e => p.isPrefixOf e.1 := by
  induction l with
  | nil => rfl
  | cons e l ih =>
      obtain ⟨hfirst, hrest⟩ := List.pairwise_cons.mp hsorted
      by_cases hlt : compare e.1 p = .lt
      · have hno : ¬ p.isPrefixOf e.1 = true := by
          rw [List.isPrefixOf_iff_prefix]
          exact fun h => not_lt_of_prefix h hlt
        rw [List.dropWhile_cons, List.filter_cons, if_pos (by rw [hlt]; rfl),
          if_neg hno, ih hrest]
      · rw [List.dropWhile_cons, if_neg (by simpa using hlt)]
        refine takeWhile_eq_filter hsorted fun a ha => ?_
        rcases List.mem_cons.mp ha with rfl | ha
        · exact hlt
        · intro hap
          exact hlt (Std.TransCmp.lt_trans (hfirst a ha) hap)

/-- The scan of an ordered table. -/
theorem seek_takeWhile [Std.TransOrd α] (t : Table (List α) V) (p : List α) :
    (t.seek p).takeWhile (fun e => p.isPrefixOf e.1)
      = t.toList.filter fun e => p.isPrefixOf e.1 :=
  scan_eq_filter Std.ExtTreeMap.ordered_keys_toList p

end PrefixScan
