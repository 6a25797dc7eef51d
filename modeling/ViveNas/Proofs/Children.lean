/-
The names `GetChildren` returns, with and without a trailing slash.

`GetChildren` and `CreateDirIfMissing` each drop one trailing slash on
their own, and come to the same tenant (`tenants_eq`). PureFlash lists the
children under the tenant's name, while what is cut off their paths is as
long as the name the caller gave. A child keeps its name exactly if both
are of one length (`substr_child_iff`): a slash behind the name costs
every child its first byte.
-/
import ViveNas.PfAof

namespace ViveNas

open PfAofFileSystem

variable {d dir : Bytes} {cs : List Bytes}

-- ============================================================ the tenant

theorem back_of_getLast? {s : Bytes} {c : UInt8} (h : s.getLast? = some c) :
    back s = .ok c := by
  rw [back, h]

theorem back_slashed (d : Bytes) : back (d ++ [slash]) = .ok slash :=
  back_of_getLast? List.getLast?_concat

/-- The name without the slash behind it. -/
theorem substr_slashed (d : Bytes) :
    substr (d ++ [slash]) 0 (some ((d ++ [slash]).length - 1)) = .ok d := by
  rw [substr, if_neg (Nat.not_lt_zero _), List.length_append,
    List.length_singleton, Nat.add_sub_cancel, List.drop_zero,
    List.take_left]

/-- Both functions come to the same tenant, with a slash and without. -/
theorem tenants_eq (hd : d ≠ []) (hslash : d.getLast? ≠ some slash)
    (hdir : dir = d ∨ dir = d ++ [slash]) :
    childrenTenant dir = .ok (cStr d) ∧ createDirTenant dir = .ok (cStr d) := by
  rcases hdir with hdir | hdir
  · have hlast := List.getLast?_eq_some_getLast hd
    have hne : d.getLast hd ≠ slash := by
      intro heq
      rw [hlast, heq] at hslash
      exact hslash rfl
    constructor
    · rw [hdir, childrenTenant, back_of_getLast? hlast, ok_bind, if_neg hne]
      rfl
    · rw [hdir, createDirTenant, back_of_getLast? hlast, ok_bind, if_neg hne]
      rfl
  · constructor
    · rw [hdir, childrenTenant, back_slashed, ok_bind, if_pos rfl,
        substr_slashed]
      rfl
    · rw [hdir, createDirTenant, back_slashed, ok_bind, if_pos rfl,
        if_pos (Or.inr nofun), substr_slashed, ok_bind, pure_eq_ok]

/-- A C string ends at the first NUL. -/
theorem length_cStr_le (d : Bytes) : (cStr d).val.length ≤ d.length :=
  (List.takeWhile_prefix _).length_le

theorem length_cStr_iff (d : Bytes) :
    d.length = (cStr d).val.length ↔ (0 : UInt8) ∉ d := by
  have hpre : (cStr d).val <+: d := List.takeWhile_prefix _
  constructor
  · intro hlen hzero
    have hall : (cStr d).val = d := hpre.eq_of_length hlen.symm
    rw [← hall] at hzero
    exact (cStr d).property hzero
  · intro hzero
    have hall : (cStr d).val = d :=
      List.takeWhile_eq_self_iff.mpr fun c hc => by
        have hne : c ≠ 0 := fun heq => hzero (heq ▸ hc)
        simpa using hne
    rw [hall]

-- ========================================================== the children

/-- What is left of a child's path when `n + 1` bytes are cut off, if the
tenant's name is not longer than `n`. -/
theorem substr_child_iff {t c : Bytes} {n : Nat} (hc : c ≠ [])
    (hn : t.length ≤ n) :
    substr (t ++ slash :: c) (n + 1) none = .ok c ↔ n = t.length := by
  have hpos : 0 < c.length := List.length_pos_iff.mpr hc
  have hlen : (t ++ slash :: c).length = t.length + (c.length + 1) :=
    List.length_append
  rw [substr]
  split
  case isTrue hpast =>
    refine iff_of_false nofun ?_
    omega
  case isFalse =>
    have hdrop : (t ++ slash :: c).drop (n + 1) = c.drop (n - t.length) := by
      rw [List.drop_append, List.drop_of_length_le (by omega),
        show n + 1 - t.length = n - t.length + 1 by omega]
      rfl
    show Except.ok _ = Except.ok c ↔ _
    rw [hdrop, Except.ok.injEq]
    constructor
    · intro hsame
      have hshort := congrArg List.length hsame
      rw [List.length_drop] at hshort
      omega
    · intro heq
      rw [heq, Nat.sub_self, List.drop_zero]

/-- The paths of children of `t`. -/
def childPaths (t : FileName) (cs : List Bytes) : List Bytes :=
  cs.map fun c => t.val ++ slash :: c

theorem stripChildren_iff {t : FileName} {n : Nat} (hcs : ∀ c ∈ cs, c ≠ [])
    (hn : t.val.length ≤ n) :
    stripChildren n (childPaths t cs) = .ok cs
      ↔ n = t.val.length ∨ cs = [] := by
  constructor
  · intro hstrip
    cases cs with
    | nil => exact Or.inr rfl
    | cons c rest =>
        obtain ⟨child, hchild, hstrip⟩ := ok_of_bind hstrip
        obtain ⟨rest', -, hret⟩ := ok_of_bind hstrip
        rw [pure_eq_ok] at hret
        cases hret
        have hc : c ≠ [] := hcs c List.mem_cons_self
        exact Or.inl ((substr_child_iff hc hn).mp hchild)
  · intro h
    rcases h with hlen | hnil
    · induction cs with
      | nil => rfl
      | cons c rest ih =>
          have hc : c ≠ [] := hcs c List.mem_cons_self
          have hrest := ih fun q hq => hcs q (List.mem_cons_of_mem c hq)
          show (substr (t.val ++ slash :: c) (n + 1) none >>= fun child =>
            stripChildren n (childPaths t rest) >>= fun rest =>
              pure (child :: rest)) = _
          rw [(substr_child_iff hc hn).mpr hlen, ok_bind, hrest, ok_bind,
            pure_eq_ok]
    · rw [hnil]
      rfl

-- ====================================================== the whole call

/-- `ls` finds the children `cs` of `t`. -/
def Finds (ls : FileName → Int × List Bytes) (t : FileName)
    (cs : List Bytes) : Prop :=
  ls t = (0, childPaths t cs)

/-- Given `dir` for the directory `d`, `GetChildren` returns the children
of its tenant under their names, and that tenant is the one
`CreateDirIfMissing` makes. -/
structure Relative (dir d : Bytes) (cs : List Bytes) : Prop where
  children : ∀ ls, Finds ls (cStr d) cs → getChildren ls dir = .ok (.ok, cs)
  asked : childrenTenant dir = .ok (cStr d)
  made : createDirTenant dir = .ok (cStr d)
  reported : ∀ create : FileName → Int,
    createDirIfMissing create dir = .ok .ok ↔ create (cStr d) = 0

theorem getChildren_found {ls : FileName → Int × List Bytes} {t : FileName}
    (htenant : childrenTenant dir = .ok t) (hls : Finds ls t cs) :
    getChildren ls dir
      = stripChildren dir.length (childPaths t cs) >>= fun result =>
          .ok (.ok, result) := by
  rw [getChildren, htenant, ok_bind, show ls t = _ from hls]
  rfl

/-- `CreateDirIfMissing` returns OK exactly if its tenant is made. -/
theorem createDirIfMissing_ok_iff {t : FileName}
    (htenant : createDirTenant dir = .ok t) (create : FileName → Int) :
    createDirIfMissing create dir = .ok .ok ↔ create t = 0 := by
  rw [createDirIfMissing, htenant, ok_bind]
  dsimp only
  split
  case isTrue hrc => exact iff_of_true rfl hrc
  case isFalse hrc =>
    refine iff_of_false (fun h => ?_) hrc
    cases h

theorem relative_iff (hd : d ≠ []) (hslash : d.getLast? ≠ some slash)
    (hcs : ∀ c ∈ cs, c ≠ []) (hdir : dir = d ∨ dir = d ++ [slash]) :
    Relative dir d cs ↔ dir.length = (cStr d).val.length ∨ cs = [] := by
  obtain ⟨hasked, hmade⟩ := tenants_eq hd hslash hdir
  have hle : (cStr d).val.length ≤ dir.length := by
    have hcstr := length_cStr_le d
    rcases hdir with hdir | hdir
    · rw [hdir]
      exact hcstr
    · rw [hdir, List.length_append]
      omega
  rw [← stripChildren_iff hcs hle]
  constructor
  · intro h
    have hfinds : Finds (fun _ => (0, childPaths (cStr d) cs)) (cStr d) cs :=
      rfl
    have hrun := h.children _ hfinds
    rw [getChildren_found hasked hfinds] at hrun
    obtain ⟨result, hstrip, hret⟩ := ok_of_bind hrun
    cases hret
    exact hstrip
  · intro hstrip
    refine ⟨fun ls hls => ?_, hasked, hmade, createDirIfMissing_ok_iff hmade⟩
    rw [getChildren_found hasked hls, hstrip, ok_bind]

/-- The children have their names, with a trailing slash and without. -/
def ChildrenKept (d : Bytes) (cs : List Bytes) : Prop :=
  Relative d d cs ∧ Relative (d ++ [slash]) d cs

/-- The children have their names both ways exactly if there are none:
behind a slash no child keeps its name. Without the slash every child
does, of a directory whose name is a C string. -/
theorem children_kept_iff (d : Bytes) (cs : List Bytes) (hd : d ≠ [])
    (hslash : d.getLast? ≠ some slash) (hcs : ∀ c ∈ cs, c ≠ []) :
    (ChildrenKept d cs ↔ cs = [])
      ∧ (Relative d d cs ↔ (0 : UInt8) ∉ d ∨ cs = [])
      ∧ (Relative (d ++ [slash]) d cs ↔ cs = []) := by
  have hplain := relative_iff hd hslash hcs (Or.inl rfl)
  have hslashed := relative_iff hd hslash hcs (Or.inr rfl)
  have hlonger : (d ++ [slash]).length ≠ (cStr d).val.length := by
    have hle := length_cStr_le d
    rw [List.length_append, List.length_singleton]
    omega
  rw [or_iff_right hlonger] at hslashed
  rw [length_cStr_iff] at hplain
  refine ⟨?_, hplain, hslashed⟩
  rw [ChildrenKept, hplain, hslashed]
  exact and_iff_right_of_imp Or.inr

/-- A directory named by two bytes: with no children, and with one. -/
theorem children_kept_empty :
    ChildrenKept [97, 98] []
      ∧ Relative [97, 98] [97, 98] [[99]]
      ∧ ¬ ChildrenKept [97, 98] [[99]] := by
  have hnone := children_kept_iff [97, 98] [] (by decide) (by decide)
    (by decide)
  have hone := children_kept_iff [97, 98] [[99]] (by decide) (by decide)
    (by decide)
  exact ⟨hnone.1.mpr rfl, hone.2.1.mpr (Or.inl (by decide)),
    fun h => List.cons_ne_nil _ _ (hone.1.mp h)⟩

-- -------------------------------------------------- a lost first byte

/-- The child `b` of the directory `a` is listed as `b`, and with a slash
behind the directory's name as the empty name. -/
theorem slash_cuts_child :
    ∃ ls, Finds ls (cStr [97]) [[98]]
      ∧ getChildren ls [97] = .ok (.ok, [[98]])
      ∧ getChildren ls [97, slash] = .ok (.ok, [[]])
      ∧ ¬ ChildrenKept [97] [[98]] := by
  have hfinds : Finds (fun _ => (0, childPaths (cStr [97]) [[98]]))
      (cStr [97]) [[98]] := rfl
  have hslashed : getChildren (fun _ => (0, childPaths (cStr [97]) [[98]]))
      [97, slash] = .ok (.ok, [[]]) := rfl
  refine ⟨_, hfinds, rfl, hslashed, fun h => ?_⟩
  have hkept := hslashed.symm.trans (h.2.children _ hfinds)
  cases hkept

end ViveNas
