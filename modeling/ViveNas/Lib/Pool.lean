/-
Threads running programs over a shared state, in any interleaving, and
the thread-modular invariant rule.

A `Machine` says what a call may do: to the state all threads share, and
to the private state of the thread that makes it. A step is one call of
one thread; threads come and go, may be aborted anywhere, and a reset
ends all of them at once.

# The rule

An invariant speaks of the shared state and of where each thread is, not
of the text it still has to run. Where a thread is, is a ghost of type
`L`: `Prog.Safe` follows it through the text, once per program and with
no other thread in sight. `Modular` is what is left to show: that each
call, made by a thread that meets the call's requirement, keeps the
invariant. `run_modular` puts the two together, and `step_guarantee` adds
what every single step does to the shared state.
-/
import ViveNas.Lib.Prog
import ViveNas.Lib.Trace

namespace Pool

open Trace

variable {C : Type} {R : C → Type} {ε α σ τ J L : Type}

-- ======================================================== interleavings

/-- A thread: what it was asked to do, the program it still has to run,
and the state only it sees. -/
structure Thread (C : Type) (R : C → Type) (ε α τ J : Type) where
  job : J
  rest : Prog C R ε α
  priv : τ

structure State (C : Type) (R : C → Type) (ε α σ τ J : Type) where
  shared : σ
  threads : Nat → Option (Thread C R ε α τ J)

inductive Label (C : Type) (R : C → Type) (α J : Type) where
  | spawn (i : Nat) (job : J)
  | call (i : Nat) (job : J) (c : C) (r : R c)
  | ret (i : Nat) (job : J) (a : α)
  | abort (i : Nat) (job : J)
  | reset

/-- What calls do. `reply i c s t r s' t'`: thread `i` may get the reply
`r`, which takes the shared state from `s` to `s'` and its own from `t`
to `t'`. `leave` is what a thread's end does to the shared state. -/
structure Machine (C : Type) (R : C → Type) (ε α σ τ J : Type) where
  prog : J → Prog C R ε α
  fresh : τ
  reply : Nat → (c : C) → σ → τ → R c → σ → τ → Prop
  leave : Nat → σ → σ
  reset : σ → σ → Prop

/-- One step, of a kind that `ok` admits. -/
inductive Step (M : Machine C R ε α σ τ J) (ok : σ → Label C R α J → Prop) :
    State C R ε α σ τ J → Label C R α J → State C R ε α σ τ J → Prop where
  | spawn {n : State C R ε α σ τ J} {i : Nat} {job : J}
      (hfree : n.threads i = none) (hok : ok n.shared (.spawn i job)) :
      Step M ok n (.spawn i job)
        ⟨n.shared, Function.update n.threads i
          (some ⟨job, M.prog job, M.fresh⟩)⟩
  | call {n : State C R ε α σ τ J} {i : Nat} {t : Thread C R ε α τ J}
      {c : C} {k : R c → Prog C R ε α} {r : R c} {s' : σ} {t' : τ}
      (hthread : n.threads i = some t) (hrest : t.rest = .call c k)
      (hreply : M.reply i c n.shared t.priv r s' t')
      (hok : ok n.shared (.call i t.job c r)) :
      Step M ok n (.call i t.job c r)
        ⟨s', Function.update n.threads i (some ⟨t.job, k r, t'⟩)⟩
  | ret {n : State C R ε α σ τ J} {i : Nat} {t : Thread C R ε α τ J} {a : α}
      (hthread : n.threads i = some t) (hrest : t.rest = .ret a)
      (hok : ok n.shared (.ret i t.job a)) :
      Step M ok n (.ret i t.job a)
        ⟨M.leave i n.shared, Function.update n.threads i none⟩
  | abort {n : State C R ε α σ τ J} {i : Nat} {t : Thread C R ε α τ J}
      (hthread : n.threads i = some t)
      (hok : ok n.shared (.abort i t.job)) :
      Step M ok n (.abort i t.job)
        ⟨M.leave i n.shared, Function.update n.threads i none⟩
  | reset {n : State C R ε α σ τ J} {s' : σ} (hreset : M.reset n.shared s')
      (hok : ok n.shared .reset) :
      Step M ok n .reset ⟨s', fun _ => none⟩

/-- A step under a condition is one under a weaker condition. -/
theorem Step.mono {M : Machine C R ε α σ τ J}
    {ok ok' : σ → Label C R α J → Prop} (h : ∀ s l, ok s l → ok' s l)
    {n n' : State C R ε α σ τ J} {l : Label C R α J}
    (hstep : Step M ok n l n') : Step M ok' n l n' := by
  cases hstep with
  | spawn hfree hok => exact .spawn hfree (h _ _ hok)
  | call hthread hrest hreply hok =>
      exact .call hthread hrest hreply (h _ _ hok)
  | ret hthread hrest hok => exact .ret hthread hrest (h _ _ hok)
  | abort hthread hok => exact .abort hthread (h _ _ hok)
  | reset hreset hok => exact .reset hreset (h _ _ hok)

-- ============================================================= the rule

/-- What the invariant knows of a thread: its text is replaced by where
in the text it is. -/
structure Client (τ J L : Type) where
  job : J
  priv : τ
  loc : L

/-- A client table that describes the threads, each safe from where it
is. -/
def Describes (T : J → (c : C) → L → R c → L → Prop) (Q : J → C → L → Prop)
    (P : J → α → L → Prop) (g : Nat → Option (Client τ J L))
    (threads : Nat → Option (Thread C R ε α τ J)) : Prop :=
  ∀ i, (threads i = none ∧ g i = none)
    ∨ ∃ t l, threads i = some t ∧ g i = some ⟨t.job, t.priv, l⟩
      ∧ t.rest.Safe (T t.job) (Q t.job) (P t.job) l

/-- The threads' programs keep to their requirements, and so each step
keeps the invariant `I` and does to the shared state what `G` allows. -/
structure Modular (M : Machine C R ε α σ τ J)
    (ok : σ → Label C R α J → Prop) (start : J → L)
    (T : J → (c : C) → L → R c → L → Prop) (Q : J → C → L → Prop)
    (P : J → α → L → Prop)
    (I : List (Label C R α J) → σ → (Nat → Option (Client τ J L)) → Prop)
    (G : σ → σ → Prop) : Prop where
  refl : ∀ s, G s s
  safe : ∀ s i job, ok s (.spawn i job) →
    (M.prog job).Safe (T job) (Q job) (P job) (start job)
  spawn : ∀ {tr s g i job}, I tr s g → g i = none → ok s (.spawn i job) →
    I (.spawn i job :: tr) s
      (Function.update g i (some ⟨job, M.fresh, start job⟩))
  call : ∀ {tr s g i x c r s' t'}, I tr s g → g i = some x →
    Q x.job c x.loc → M.reply i c s x.priv r s' t' →
    ok s (.call i x.job c r) → G s s' ∧ ∃ l', T x.job c x.loc r l'
      ∧ I (.call i x.job c r :: tr) s'
        (Function.update g i (some ⟨x.job, t', l'⟩))
  ret : ∀ {tr s g i x a}, I tr s g → g i = some x → P x.job a x.loc →
    ok s (.ret i x.job a) → G s (M.leave i s)
      ∧ I (.ret i x.job a :: tr) (M.leave i s) (Function.update g i none)
  abort : ∀ {tr s g i x}, I tr s g → g i = some x →
    ok s (.abort i x.job) → G s (M.leave i s)
      ∧ I (.abort i x.job :: tr) (M.leave i s) (Function.update g i none)
  reset : ∀ {tr s g s'}, I tr s g → M.reset s s' → ok s .reset →
    G s s' ∧ I (.reset :: tr) s' fun _ => none

section Rule

variable {M : Machine C R ε α σ τ J} {ok : σ → Label C R α J → Prop}
  {start : J → L} {T : J → (c : C) → L → R c → L → Prop}
  {Q : J → C → L → Prop} {P : J → α → L → Prop}
  {I : List (Label C R α J) → σ → (Nat → Option (Client τ J L)) → Prop}
  {G : σ → σ → Prop}

theorem Describes.update {g : Nat → Option (Client τ J L)}
    {threads : Nat → Option (Thread C R ε α τ J)}
    (hd : Describes T Q P g threads) {i : Nat}
    {x : Option (Client τ J L)} {t : Option (Thread C R ε α τ J)}
    (hi : (t = none ∧ x = none) ∨ ∃ t' l, t = some t'
      ∧ x = some ⟨t'.job, t'.priv, l⟩
      ∧ t'.rest.Safe (T t'.job) (Q t'.job) (P t'.job) l) :
    Describes T Q P (Function.update g i x) (Function.update threads i t) := by
  intro j
  by_cases hj : j = i
  · subst hj
    rw [Function.update_self, Function.update_self]
    exact hi
  · rw [Function.update_of_ne hj, Function.update_of_ne hj]
    exact hd j

/-- The client of a thread. -/
theorem Describes.client {g : Nat → Option (Client τ J L)}
    {threads : Nat → Option (Thread C R ε α τ J)}
    (hd : Describes T Q P g threads) {i : Nat} {t : Thread C R ε α τ J}
    (ht : threads i = some t) : ∃ l, g i = some ⟨t.job, t.priv, l⟩
      ∧ t.rest.Safe (T t.job) (Q t.job) (P t.job) l := by
  obtain ⟨hnone, -⟩ | ⟨t', l, ht', hg, hsafe⟩ := hd i
  · cases ht.symm.trans hnone
  · cases ht.symm.trans ht'
    exact ⟨l, hg, hsafe⟩

/-- One step keeps the invariant and gives the guarantee. -/
theorem step_modular (hM : Modular M ok start T Q P I G)
    {tr : List (Label C R α J)} {n n' : State C R ε α σ τ J}
    {l : Label C R α J} {g : Nat → Option (Client τ J L)}
    (hI : I tr n.shared g) (hd : Describes T Q P g n.threads)
    (hstep : Step M ok n l n') : G n.shared n'.shared
      ∧ ∃ g', I (l :: tr) n'.shared g' ∧ Describes T Q P g' n'.threads := by
  cases hstep with
  | @spawn i job hfree hok =>
      have hnone : g i = none := by
        obtain ⟨-, hg⟩ | ⟨t, l, ht, -⟩ := hd i
        · exact hg
        · cases hfree.symm.trans ht
      exact ⟨hM.refl _, _, hM.spawn hI hnone hok,
        hd.update (Or.inr ⟨_, _, rfl, rfl, hM.safe _ i job hok⟩)⟩
  | call hthread hrest hreply hok =>
      obtain ⟨loc, hg, hsafe⟩ := hd.client hthread
      rw [hrest] at hsafe
      obtain ⟨hG, l', hT, hI'⟩ := hM.call hI hg hsafe.1 hreply hok
      exact ⟨hG, _, hI', hd.update (Or.inr ⟨_, l', rfl, rfl,
        Prog.safe_step hsafe hT⟩)⟩
  | ret hthread hrest hok =>
      obtain ⟨loc, hg, hsafe⟩ := hd.client hthread
      rw [hrest] at hsafe
      obtain ⟨hG, hI'⟩ := hM.ret hI hg hsafe hok
      exact ⟨hG, _, hI', hd.update (Or.inl ⟨rfl, rfl⟩)⟩
  | abort hthread hok =>
      obtain ⟨loc, hg, -⟩ := hd.client hthread
      obtain ⟨hG, hI'⟩ := hM.abort hI hg hok
      exact ⟨hG, _, hI', hd.update (Or.inl ⟨rfl, rfl⟩)⟩
  | reset hreset hok =>
      obtain ⟨hG, hI'⟩ := hM.reset hI hreset hok
      exact ⟨hG, _, hI', fun _ => Or.inl ⟨rfl, rfl⟩⟩

variable {init : State C R ε α σ τ J → Prop}

/-- The invariant holds along every run. -/
theorem run_modular (hM : Modular M ok start T Q P I G)
    (hinit : ∀ n, init n → n.threads = (fun _ => none)
      ∧ I [] n.shared fun _ => none)
    {tr : List (Label C R α J)} {n : State C R ε α σ τ J}
    (hrun : Run init (Step M ok) tr n) :
    ∃ g, I tr n.shared g ∧ Describes T Q P g n.threads := by
  refine hrun.invariant
    (I := fun tr n => ∃ g, I tr n.shared g ∧ Describes T Q P g n.threads)
    ?_ ?_
  · intro n hn
    obtain ⟨hthreads, hI⟩ := hinit n hn
    refine ⟨_, hI, fun i => Or.inl ⟨?_, rfl⟩⟩
    rw [hthreads]
  · rintro tr n l n' ⟨g, hI, hd⟩ hstep
    exact (step_modular hM hI hd hstep).2

/-- Every step of every run gives the guarantee. -/
theorem step_guarantee (hM : Modular M ok start T Q P I G)
    (hinit : ∀ n, init n → n.threads = (fun _ => none)
      ∧ I [] n.shared fun _ => none)
    {tr : List (Label C R α J)} {n n' : State C R ε α σ τ J}
    {l : Label C R α J} (hrun : Run init (Step M ok) tr n)
    (hstep : Step M ok n l n') : G n.shared n'.shared := by
  obtain ⟨g, hI, hd⟩ := run_modular hM hinit hrun
  exact (step_modular hM hI hd hstep).1

end Rule

end Pool
