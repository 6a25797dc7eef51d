/-
Runs of a labelled transition system, and simulation between two of them.

A run keeps its labels, so that a simulation can say that the abstract
system does the same thing in the same order: what an implementation
returns is then what its specification allows (`Run.simulate`).
-/
import Mathlib.Logic.Basic

namespace Trace

variable {S A L : Type}

/-- A run: its labels, newest first, and the state it ends in. -/
inductive Run (init : S → Prop) (step : S → L → S → Prop) :
    List L → S → Prop where
  | init {s : S} (h : init s) : Run init step [] s
  | step {s s' : S} {l : L} {tr : List L} (h : Run init step tr s)
      (hs : step s l s') : Run init step (l :: tr) s'

variable {init : S → Prop} {step step' : S → L → S → Prop}

/-- Steps that are all steps of another system, along a run whose labels
meet `P`. -/
theorem Run.mono {P : List L → Prop}
    (htail : ∀ l tr, P (l :: tr) → P tr)
    (hstep : ∀ tr s l s', P (l :: tr) → Run init step' tr s →
      step s l s' → step' s l s')
    {tr : List L} {s : S} (hrun : Run init step tr s) (hP : P tr) :
    Run init step' tr s := by
  induction hrun with
  | init h => exact .init h
  | step _ hs ih =>
      have hrest := ih (htail _ _ hP)
      exact .step hrest (hstep _ _ _ _ hP hrest hs)

/-- Forward simulation: if every step from related states is answered by
a step with the same label to related states, then so is every run. -/
theorem Run.simulate {ainit : A → Prop} {astep : A → L → A → Prop}
    {R : S → A → Prop} (hinit : ∀ s, init s → ∃ a, ainit a ∧ R s a)
    (hstep : ∀ s a l s', R s a → step s l s' → ∃ a', astep a l a' ∧ R s' a')
    {tr : List L} {s : S} (hrun : Run init step tr s) :
    ∃ a, Run ainit astep tr a ∧ R s a := by
  induction hrun with
  | init h =>
      obtain ⟨a, ha, hR⟩ := hinit _ h
      exact ⟨a, .init ha, hR⟩
  | step _ hs ih =>
      obtain ⟨a, harun, hR⟩ := ih
      obtain ⟨a', hastep, hR'⟩ := hstep _ _ _ _ hR hs
      exact ⟨a', .step harun hastep, hR'⟩

/-- What holds at the start and is kept by every step holds throughout. -/
theorem Run.invariant {I : List L → S → Prop}
    (hinit : ∀ s, init s → I [] s)
    (hstep : ∀ tr s l s', I tr s → step s l s' → I (l :: tr) s')
    {tr : List L} {s : S} (hrun : Run init step tr s) : I tr s := by
  induction hrun with
  | init h => exact hinit _ h
  | step _ hs ih => exact hstep _ _ _ _ ih hs

/-- What is so at the end of a run and not at its start came about by one
of its steps. -/
theorem Run.crossing {P : S → Prop} (hinit : ∀ s, init s → ¬ P s)
    {tr : List L} {s : S} (hrun : Run init step tr s) (hs : P s) :
    ∃ tr₁ s₁ l s₂, Run init step tr₁ s₁ ∧ step s₁ l s₂ ∧ ¬ P s₁ ∧ P s₂ := by
  induction hrun with
  | init h => exact absurd hs (hinit _ h)
  | @step s₁ s₂ l tr h hstep ih =>
      by_cases hP : P s₁
      · exact ih hP
      · exact ⟨tr, s₁, l, s₂, h, hstep, hP, hs⟩

-- ====================================================== parts of a run

/-- The system goes from `s` on to `s'`, by these labels. -/
abbrev Goes (step : S → L → S → Prop) (s : S) (tr : List L) (s' : S) :
    Prop :=
  Run (fun x => x = s) step tr s'

theorem Goes.refl (step : S → L → S → Prop) (s : S) : Goes step s [] s :=
  .init rfl

/-- A run, and how it goes on. -/
theorem Run.goes {tr tr' : List L} {s s' : S} (hrun : Run init step tr s)
    (hgoes : Goes step s tr' s') : Run init step (tr' ++ tr) s' := by
  induction hgoes with
  | init h => exact h ▸ hrun
  | step _ hs ih => exact .step ih hs

/-- What every step of every run keeps is kept as the run goes on. -/
theorem Run.keeps {R : S → S → Prop} (hrefl : ∀ s, R s s)
    (htrans : ∀ {a b c}, R a b → R b c → R a c)
    (hstep : ∀ tr s l s', Run init step tr s → step s l s' → R s s')
    {tr tr' : List L} {s s' : S} (hrun : Run init step tr s)
    (hgoes : Goes step s tr' s') : R s s' := by
  induction hgoes with
  | init h => exact h ▸ hrefl s
  | step hgoes hs ih => exact htrans ih (hstep _ _ _ _ (hrun.goes hgoes) hs)

end Trace
