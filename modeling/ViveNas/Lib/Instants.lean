/-
When a thread got its replies.

Threads see the shared state only through the replies to their calls. A
thread that has come to some point of its program got there by calls of
its own, one after the other since it was spawned, and each reply was one
the machine could give in the state the run was in at that instant
(`run_instants`). Each call stands in the run's labels right after the
state it was made in (`Made`), with no spawn of the thread since. So what
a thread returns is a function of the states of the run at a few instants
between its spawn and its return (`returned_instants`), whatever other
threads did in between.
-/
import ViveNas.Lib.Pool
import ViveNas.Lib.Table

namespace Pool

open Trace

variable {C : Type} {R : C → Type} {ε α σ τ J : Type}

section Defs

variable (M : Machine C R ε α σ τ J) (ok : σ → Label C R α J → Prop)
  (init : State C R ε α σ τ J → Prop)

/-- The run with labels `tr` to `n` came by `n₁` when thread `i`, that is
there in `n`, was there already. -/
structure During (tr : List (Label C R α J)) (n : State C R ε α σ τ J)
    (i : Nat) (n₁ : State C R ε α σ τ J) : Prop where
  there : n₁.threads i ≠ none
  split : ∃ tr₁ tr₂, tr = tr₂ ++ tr₁ ∧ Run init (Step M ok) tr₁ n₁
    ∧ Goes (Step M ok) n₁ tr₂ n ∧ ∀ job, Label.spawn i job ∉ tr₂

/-- A call and its reply, in the state the run was in. -/
structure Instant (C : Type) (R : C → Type) (ε α σ τ J : Type) where
  state : State C R ε α σ τ J
  call : C
  reply : R call

/-- The call and the reply alone. -/
def Instant.seen (e : Instant C R ε α σ τ J) : Σ c, R c :=
  ⟨e.call, e.reply⟩

/-- Thread `i` made the step `l` at some point of the run, and is the same
thread since. -/
def Since (tr : List (Label C R α J)) (i : Nat) (l : Label C R α J) : Prop :=
  ∃ tr₁ tr₂, tr = tr₂ ++ l :: tr₁ ∧ ∀ job, Label.spawn i job ∉ tr₂

/-- ... a call, when the run was in the state of the instant. -/
def Made (tr : List (Label C R α J)) (i : Nat) (job : J)
    (e : Instant C R ε α σ τ J) : Prop :=
  ∃ tr₁ tr₂, tr = tr₂ ++ Label.call i job e.call e.reply :: tr₁
    ∧ Run init (Step M ok) tr₁ e.state ∧ ∀ job', Label.spawn i job' ∉ tr₂

/-- The instants are calls of thread `i` during the run, in their order. -/
structure Instants (tr : List (Label C R α J)) (n : State C R ε α σ τ J)
    (i : Nat) (job : J) (es : List (Instant C R ε α σ τ J)) : Prop where
  during : ∀ e ∈ es, During M ok init tr n i e.state
  made : ∀ e ∈ es, Made M ok init tr i job e
  replied : ∀ e ∈ es, ∃ t s' t',
    M.reply i e.call e.state.shared t e.reply s' t'
  order : es.Pairwise fun e e' => ∃ tr', Goes (Step M ok) e.state tr' e'.state

end Defs

variable {M : Machine C R ε α σ τ J} {ok : σ → Label C R α J → Prop}
  {init : State C R ε α σ τ J → Prop} {tr : List (Label C R α J)}
  {n n' n₁ : State C R ε α σ τ J} {i : Nat} {job : J}
  {es : List (Instant C R ε α σ τ J)} {l : Label C R α J}

/-- The instant before the end of the run. -/
theorem During.now (hrun : Run init (Step M ok) tr n)
    (hthere : n.threads i ≠ none) : During M ok init tr n i n :=
  ⟨hthere, tr, [], rfl, hrun, Goes.refl _ n, fun _ h => by cases h⟩

/-- While a thread is there it is not spawned. -/
theorem not_spawn_cons (hthere : n.threads i ≠ none)
    (hstep : Step M ok n l n') {tr₂ : List (Label C R α J)}
    (hspawn : ∀ job, Label.spawn i job ∉ tr₂) (job : J) :
    Label.spawn i job ∉ l :: tr₂ := by
  intro hmem
  rcases List.mem_cons.mp hmem with rfl | hmem
  · cases hstep with
    | spawn hfree hok => exact hthere hfree
  · exact hspawn job hmem

/-- One step more. -/
theorem During.step (h : During M ok init tr n i n₁)
    (hthere : n.threads i ≠ none) (hstep : Step M ok n l n') :
    During M ok init (l :: tr) n' i n₁ := by
  obtain ⟨tr₁, tr₂, rfl, hrun, hgoes, hspawn⟩ := h.split
  exact ⟨h.there, tr₁, l :: tr₂, rfl, hrun, .step hgoes hstep,
    not_spawn_cons hthere hstep hspawn⟩

theorem During.reached (h : During M ok init tr n i n₁) :
    ∃ tr₁, Run init (Step M ok) tr₁ n₁ := by
  obtain ⟨tr₁, -, -, hrun, -⟩ := h.split
  exact ⟨tr₁, hrun⟩

theorem Made.since {e : Instant C R ε α σ τ J}
    (h : Made M ok init tr i job e) :
    Since tr i (.call i job e.call e.reply) := by
  obtain ⟨tr₁, tr₂, htr, -, hspawn⟩ := h
  exact ⟨tr₁, tr₂, htr, hspawn⟩

/-- A step in a run's last labels is one of the run's. -/
theorem Since.mem {l : Label C R α J} (h : Since tr i l) : l ∈ tr := by
  obtain ⟨tr₁, tr₂, rfl, -⟩ := h
  exact List.mem_append_right _ List.mem_cons_self

theorem Made.step {e : Instant C R ε α σ τ J}
    (h : Made M ok init tr i job e) (hthere : n.threads i ≠ none)
    (hstep : Step M ok n l n') : Made M ok init (l :: tr) i job e := by
  obtain ⟨tr₁, tr₂, rfl, hrun, hspawn⟩ := h
  exact ⟨tr₁, l :: tr₂, rfl, hrun, not_spawn_cons hthere hstep hspawn⟩

theorem Instants.step (h : Instants M ok init tr n i job es)
    (hthere : n.threads i ≠ none) (hstep : Step M ok n l n') :
    Instants M ok init (l :: tr) n' i job es :=
  ⟨fun e he => (h.during e he).step hthere hstep,
    fun e he => (h.made e he).step hthere hstep, h.replied, h.order⟩

/-- A thread's next call. -/
theorem Instants.snoc (h : Instants M ok init tr n i job es)
    (hrun : Run init (Step M ok) tr n) (hthere : n.threads i ≠ none)
    {c : C} {r : R c} {t t' : τ} {s' : σ}
    (hreply : M.reply i c n.shared t r s' t')
    (hstep : Step M ok n (.call i job c r) n') :
    Instants M ok init (.call i job c r :: tr) n' i job
      (es ++ [⟨n, c, r⟩]) := by
  have hlast {P : Instant C R ε α σ τ J → Prop} (hold : ∀ e ∈ es, P e)
      (hnew : P ⟨n, c, r⟩) : ∀ e ∈ es ++ [⟨n, c, r⟩], P e := by
    intro e he
    rcases List.mem_append.mp he with he | he
    · exact hold e he
    · rw [List.mem_singleton.mp he]
      exact hnew
  refine ⟨hlast (h.step hthere hstep).during
    ((During.now hrun hthere).step hthere hstep),
    hlast (h.step hthere hstep).made ⟨tr, [], rfl, hrun, fun _ hm => ?_⟩,
    hlast h.replied ⟨t, s', t', hreply⟩, ?_⟩
  · cases hm
  rw [List.pairwise_append]
  refine ⟨h.order, List.pairwise_singleton _ _, fun e he e' he' => ?_⟩
  rw [List.mem_singleton.mp he']
  obtain ⟨tr₁, tr₂, -, -, hgoes, -⟩ := (h.during e he).split
  exact ⟨tr₂, hgoes⟩

/-- Every thread came where it is by instants of the run. -/
theorem run_instants (hinit : ∀ n, init n → n.threads = fun _ => none)
    (hrun : Run init (Step M ok) tr n) :
    ∀ i t, n.threads i = some t → ∃ es,
      (M.prog t.job).Leads (es.map Instant.seen) t.rest
        ∧ Instants M ok init tr n i t.job es := by
  induction hrun with
  | init h =>
      intro i t ht
      rw [hinit _ h] at ht
      cases ht
  | @step n n' l tr hrun hstep ih =>
      -- a thread the step does not touch
      have hkeep (i : Nat) (t : Thread C R ε α τ J)
          (ht : n.threads i = some t) : ∃ es,
          (M.prog t.job).Leads (es.map Instant.seen) t.rest
            ∧ Instants M ok init (l :: tr) n' i t.job es := by
        obtain ⟨es, hleads, hes⟩ := ih i t ht
        exact ⟨es, hleads, hes.step (by rw [ht]; simp) hstep⟩
      have hstep' := hstep
      cases hstep with
      | @spawn j job hfree hok =>
          refine Partial.forall_update (fun t ht => ?_) fun i _ => hkeep i
          cases ht
          refine ⟨[], .here _, ?_, ?_, ?_, List.Pairwise.nil⟩
          all_goals
            intro e he
            cases he
      | @call j t₀ c k r s' t' hthread hrest hreply hok =>
          refine Partial.forall_update (fun t ht => ?_) fun i _ => hkeep i
          cases ht
          obtain ⟨es, hleads, hes⟩ := ih j t₀ hthread
          rw [hrest] at hleads
          refine ⟨_, ?_, hes.snoc hrun (by rw [hthread]; simp) hreply hstep'⟩
          rw [List.map_append]
          exact hleads.snoc r
      | @ret j t₀ a hthread hrest hok | @abort j t₀ hthread hok =>
          refine Partial.forall_update (fun t ht => ?_) fun i _ => hkeep i
          cases ht
      | reset hreset hok =>
          intro i t ht
          cases ht

/-- What a thread returns, it has from instants of the run. -/
theorem returned_instants (hinit : ∀ n, init n → n.threads = fun _ => none)
    (hrun : Run init (Step M ok) tr n) {a : α}
    (hstep : Step M ok n (.ret i job a) n') :
    ∃ es, (M.prog job).Path (es.map Instant.seen) (.ok a)
      ∧ Instants M ok init tr n i job es := by
  cases hstep with
  | ret hthread hrest hok =>
      obtain ⟨es, hleads, hes⟩ := run_instants hinit hrun _ _ hthread
      rw [hrest] at hleads
      exact ⟨es, hleads.path, hes⟩

end Pool
