/-
Programs over an abstract interface: finite trees of calls, each
continuing on the reply it gets.

One tree is read in two ways. `run` threads a state through it with a
handler, which is what a call made alone does. `Safe` walks every reply
a call may get, which is what a call made among others may see: it is
the thread-local half of an invariant proof over interleavings, and a
stepping lemma (`safe_step`) is all such a proof needs of the program.
`observe` is what an onlooker of a run sees at its calls, `Calls` says
that a program makes no calls but those of a kind, `Issues` that it can
come to a call, `Dies` what it can die of by itself, and `Path` is a
single way through, with its replies (`Leads`: as far as it has come).
-/
import Mathlib

/-- A program over an interface: `C` are the calls it offers, `R` what
each replies with. It may die of an `ε` and returns an `α`. -/
inductive Prog (C : Type) (R : C → Type) (ε α : Type) : Type where
  | ret (a : α)
  | raise (e : ε)
  | call (c : C) (k : R c → Prog C R ε α)

namespace Prog

variable {C : Type} {R : C → Type} {ε α β σ : Type}

-- =========================================================== the monad

/-- Sequencing: the continuation is grafted onto every result. -/
def bind : Prog C R ε α → (α → Prog C R ε β) → Prog C R ε β
  | ret a, f => f a
  | raise e, _ => raise e
  | call c k, f => call c fun r => (k r).bind f

instance : Monad (Prog C R ε) where
  pure := ret
  bind := bind

/-- One call, its reply returned. -/
def perform (c : C) : Prog C R ε (R c) := call c ret

/-- A computation that makes no call. -/
def ofExcept : Except ε α → Prog C R ε α
  | .ok a => ret a
  | .error e => raise e

-- The equations below are the whole simp set of a program text: they
-- push `do` blocks into constructor form.

@[simp] theorem pure_eq (a : α) : (pure a : Prog C R ε α) = ret a := rfl

@[simp] theorem ret_bind (a : α) (f : α → Prog C R ε β) :
    (ret a : Prog C R ε α) >>= f = f a := rfl

@[simp] theorem raise_bind (e : ε) (f : α → Prog C R ε β) :
    (raise e : Prog C R ε α) >>= f = raise e := rfl

@[simp] theorem call_bind (c : C) (k : R c → Prog C R ε α)
    (f : α → Prog C R ε β) :
    call c k >>= f = call c fun r => k r >>= f := rfl

theorem bind_bind {γ : Type} (x : Prog C R ε α) (f : α → Prog C R ε β)
    (g : β → Prog C R ε γ) : x >>= f >>= g = x >>= fun a => f a >>= g := by
  induction x with
  | ret a => rfl
  | raise e => rfl
  | call c k ih =>
      show call c (fun r => k r >>= f >>= g) = _
      simp only [ih]
      rfl

@[simp] theorem perform_bind (c : C) (f : R c → Prog C R ε β) :
    perform c >>= f = call c f := rfl

@[simp] theorem ofExcept_ok (a : α) :
    (ofExcept (.ok a) : Prog C R ε α) = ret a := rfl

@[simp] theorem ofExcept_error (e : ε) :
    (ofExcept (.error e) : Prog C R ε α) = raise e := rfl

-- ====================================================== running it alone

/-- Run a program against a handler, threading the handler's state. -/
def run (h : (c : C) → σ → Except ε (R c × σ)) :
    Prog C R ε α → σ → Except ε (α × σ)
  | ret a, s => .ok (a, s)
  | raise e, _ => .error e
  | call c k, s =>
      match h c s with
      | .ok (r, s') => (k r).run h s'
      | .error e => .error e

variable {h : (c : C) → σ → Except ε (R c × σ)}

@[simp] theorem run_ret (a : α) (s : σ) :
    (ret a : Prog C R ε α).run h s = .ok (a, s) := rfl

@[simp] theorem run_raise (e : ε) (s : σ) :
    (raise e : Prog C R ε α).run h s = .error e := rfl

/-- A prefix whose result is known, stepped over. -/
theorem run_bind_ok {x : Prog C R ε α} {f : α → Prog C R ε β} {s s' : σ}
    {a : α} (hx : x.run h s = .ok (a, s')) :
    (x >>= f).run h s = (f a).run h s' := by
  induction x generalizing s with
  | ret b =>
      simp only [run_ret, Except.ok.injEq, Prod.mk.injEq] at hx
      obtain ⟨rfl, rfl⟩ := hx
      rfl
  | raise e => cases hx
  | call c k ih =>
      rw [call_bind, run]
      rw [run] at hx
      split at hx
      next r s₁ hc => exact ih r hx
      next e hc => cases hx

/-- A prefix that dies kills the whole. -/
theorem run_bind_error {x : Prog C R ε α} {f : α → Prog C R ε β} {s : σ}
    {e : ε} (hx : x.run h s = .error e) :
    (x >>= f).run h s = .error e := by
  induction x generalizing s with
  | ret b => cases hx
  | raise e' =>
      simp only [run_raise, Except.error.injEq] at hx
      subst hx
      rfl
  | call c k ih =>
      rw [call_bind, run]
      rw [run] at hx
      split at hx
      next r s₁ hc => exact ih r hx
      next e' hc =>
        injection hx with he
        rw [he]

/-- A result of a sequence, split at the seam. -/
theorem run_bind_inv {x : Prog C R ε α} {f : α → Prog C R ε β} {s s' : σ}
    {b : β} (hx : (x >>= f).run h s = .ok (b, s')) :
    ∃ a s₁, x.run h s = .ok (a, s₁) ∧ (f a).run h s₁ = .ok (b, s') := by
  cases hrun : x.run h s with
  | error e =>
      rw [run_bind_error hrun] at hx
      cases hx
  | ok p =>
      rw [run_bind_ok hrun] at hx
      exact ⟨p.1, p.2, rfl, hx⟩

-- ============================================================ observing

section Observe

variable {O : Type}

/-- What `o` sees at the calls of a run, in order. -/
def observe (h : (c : C) → σ → Except ε (R c × σ)) (o : C → σ → List O) :
    Prog C R ε α → σ → List O
  | ret _, _ => []
  | raise _, _ => []
  | call c k, s => o c s ++
      match h c s with
      | .ok (r, s') => (k r).observe h o s'
      | .error _ => []

variable {o : C → σ → List O}

theorem observe_bind_ok {x : Prog C R ε α} {f : α → Prog C R ε β} {s s' : σ}
    {a : α} (hx : x.run h s = .ok (a, s')) :
    (x >>= f).observe h o s = x.observe h o s ++ (f a).observe h o s' := by
  induction x generalizing s with
  | ret b =>
      simp only [run_ret, Except.ok.injEq, Prod.mk.injEq] at hx
      obtain ⟨rfl, rfl⟩ := hx
      rfl
  | raise e => cases hx
  | call c k ih =>
      rw [call_bind, observe, observe, List.append_assoc]
      rw [run] at hx
      split at hx
      next r s₁ hc => rw [ih r hx]
      next e hc => cases hx

/-- Every call the program can come to is one of `Q`. -/
def Calls (Q : C → Prop) : Prog C R ε α → Prop
  | ret _ => True
  | raise _ => True
  | call c k => Q c ∧ ∀ r, (k r).Calls Q

variable {Q : C → Prop}

theorem Calls.perform {c : C} (hc : Q c) :
    (Prog.perform c : Prog C R ε (R c)).Calls Q :=
  ⟨hc, fun _ => trivial⟩

theorem Calls.ofExcept (x : Except ε α) :
    (Prog.ofExcept x : Prog C R ε α).Calls Q := by
  cases x <;> exact trivial

theorem Calls.bind {x : Prog C R ε α} {f : α → Prog C R ε β}
    (hx : x.Calls Q) (hf : ∀ a, (f a).Calls Q) : (x >>= f).Calls Q := by
  induction x with
  | ret a => exact hf a
  | raise e => exact trivial
  | call c k ih => exact ⟨hx.1, fun r => ih r (hx.2 r)⟩

/-- The program can come to the call `c`. -/
def Issues (c : C) : Prog C R ε α → Prop
  | ret _ => False
  | raise _ => False
  | call c' k => c' = c ∨ ∃ r, (k r).Issues c

theorem Issues.of_calls {c : C} {p : Prog C R ε α} (hp : p.Calls Q)
    (hc : p.Issues c) : Q c := by
  induction p with
  | ret a | raise e => exact absurd hc id
  | call c' k ih =>
      rcases hc with rfl | ⟨r, hr⟩
      · exact hp.1
      · exact ih r (hp.2 r) hr

/-- A call of the first part of a sequence. -/
theorem Issues.bind {c : C} {x : Prog C R ε α} (hc : x.Issues c)
    (f : α → Prog C R ε β) : (x >>= f).Issues c := by
  induction x with
  | ret a | raise e => exact absurd hc id
  | call c' k ih =>
      rcases hc with rfl | ⟨r, hr⟩
      · exact Or.inl rfl
      · exact Or.inr ⟨r, ih r hr⟩

/-- A call made after another one's reply. -/
theorem Issues.after {c c' : C} {f : R c' → Prog C R ε α} (r : R c')
    (hc : (f r).Issues c) : (Prog.perform c' >>= f).Issues c :=
  Or.inr ⟨r, hc⟩

/-- Every way the program itself can die is one of `Q`. -/
def Dies (Q : ε → Prop) : Prog C R ε α → Prop
  | ret _ => True
  | raise e => Q e
  | call _ k => ∀ r, (k r).Dies Q

section Dies

variable {Q : ε → Prop}

theorem Dies.perform (c : C) : (Prog.perform c : Prog C R ε (R c)).Dies Q :=
  fun _ => trivial

theorem Dies.ofExcept {x : Except ε α} (hx : ∀ e, x = .error e → Q e) :
    (Prog.ofExcept x : Prog C R ε α).Dies Q := by
  cases x with
  | ok a => exact trivial
  | error e => exact hx e rfl

theorem Dies.bind {x : Prog C R ε α} {f : α → Prog C R ε β}
    (hx : x.Dies Q) (hf : ∀ a, (f a).Dies Q) : (x >>= f).Dies Q := by
  induction x with
  | ret a => exact hf a
  | raise e => exact hx
  | call c k ih => exact fun r => ih r (hx r)

/-- A run dies of what the program or one of its calls can die of. -/
theorem Dies.run_error {p : Prog C R ε α} (hp : p.Dies Q)
    (hcall : ∀ c s e, h c s = .error e → Q e) {s : σ} {e : ε}
    (hrun : p.run h s = .error e) : Q e := by
  induction p generalizing s with
  | ret a => cases hrun
  | raise e' =>
      simp only [run_raise, Except.error.injEq] at hrun
      exact hrun ▸ hp
  | call c k ih =>
      rw [run] at hrun
      split at hrun
      next r s' hc => exact ih r (hp r) hrun
      next e' hc =>
        injection hrun with he
        exact hcall c s e (he ▸ hc)

end Dies

/-- Calls that are not seen leave nothing to see. -/
theorem Calls.observe_eq_nil {p : Prog C R ε α} (hp : p.Calls Q)
    (hQ : ∀ c s, Q c → o c s = []) (s : σ) : p.observe h o s = [] := by
  induction p generalizing s with
  | ret a => rfl
  | raise e => rfl
  | call c k ih =>
      rw [observe, hQ c s hp.1, List.nil_append]
      split
      next r s' hc => exact ih r (hp.2 r) s'
      next e hc => rfl

/-- What every call of the kind keeps, a run of such calls keeps. -/
theorem Calls.run_invariant {p : Prog C R ε α} (hp : p.Calls Q)
    {I : σ → Prop}
    (hcall : ∀ c s r s', Q c → I s → h c s = .ok (r, s') → I s')
    {s s' : σ} {a : α} (hs : I s) (hrun : p.run h s = .ok (a, s')) :
    I s' := by
  induction p generalizing s with
  | ret b =>
      simp only [run_ret, Except.ok.injEq, Prod.mk.injEq] at hrun
      exact hrun.2 ▸ hs
  | raise e => cases hrun
  | call c k ih =>
      rw [run] at hrun
      split at hrun
      next r s₁ hc => exact ih r (hp.2 r) (hcall c s r s₁ hp.1 hs hc) hrun
      next e hc => cases hrun

end Observe

-- ===================================================== under any replies

section Safe

variable {L : Type}
  (T : (c : C) → L → R c → L → Prop)
  (Q : C → L → Prop) (P : α → L → Prop)

/-- Whatever the replies, every call meets its requirement `Q` and every
return meets `P`; `T` says how a call and its reply move the local
state. -/
def Safe : Prog C R ε α → L → Prop
  | ret a, l => P a l
  | raise _, _ => True
  | call c k, l => Q c l ∧ ∀ r l', T c l r l' → (k r).Safe l'

variable {T Q P}

theorem safe_step {c : C} {k : R c → Prog C R ε α} {l l' : L}
    {r : R c} (hs : (call c k).Safe T Q P l) (ht : T c l r l') :
    (k r).Safe T Q P l' :=
  hs.2 r l' ht

/-- One call, then the rest under every reply it may get. -/
theorem safe_perform {c : C} {f : R c → Prog C R ε α} {l : L}
    (hQ : Q c l) (hf : ∀ r l', T c l r l' → (f r).Safe T Q P l') :
    (perform c >>= f).Safe T Q P l :=
  ⟨hQ, hf⟩

/-- A sequence: its first part returns only where the second is safe. -/
theorem Safe.bind {x : Prog C R ε β} {f : β → Prog C R ε α} {l : L}
    (hx : x.Safe T Q (fun b l => (f b).Safe T Q P l) l) :
    (x >>= f).Safe T Q P l := by
  induction x generalizing l with
  | ret b => exact hx
  | raise e => exact trivial
  | call c k ih => exact ⟨hx.1, fun r l' ht => ih r (hx.2 r l' ht)⟩

theorem Safe.mono {P' : α → L → Prop} {p : Prog C R ε α} {l : L}
    (hp : p.Safe T Q P l) (h : ∀ a l, P a l → P' a l) : p.Safe T Q P' l := by
  induction p generalizing l with
  | ret a => exact h a l hp
  | raise e => exact trivial
  | call c k ih => exact ⟨hp.1, fun r l' ht => ih r (hp.2 r l' ht)⟩

/-- A step that makes no call: only its result matters. -/
theorem safe_ofExcept {x : Except ε β} {f : β → Prog C R ε α} {l : L}
    (h : ∀ b, x = .ok b → (f b).Safe T Q P l) :
    (ofExcept x >>= f).Safe T Q P l := by
  cases x with
  | error e => exact trivial
  | ok b => exact h b rfl

/-- A program that makes only some calls, where those keep `I` and need no
more than it. -/
theorem Calls.safe {D : C → Prop} {I : L → Prop}
    (hQ : ∀ c l, D c → I l → Q c l)
    (hT : ∀ c l r l', D c → I l → T c l r l' → I l')
    {p : Prog C R ε α} (hp : p.Calls D) {l : L} (hl : I l) :
    p.Safe T Q (fun _ l => I l) l := by
  induction p generalizing l with
  | ret a => exact hl
  | raise e => exact trivial
  | call c k ih =>
      exact ⟨hQ c l hp.1 hl, fun r l' ht =>
        ih r (hp.2 r) (hT c l r l' hp.1 hl ht)⟩

end Safe

-- ===================================================== one way through

/-- A way through the program: the calls made, each with the reply it
got, and how it ended. The replies are arbitrary. -/
def Path : Prog C R ε α → List (Σ c, R c) → Except ε α → Prop
  | ret a, log, res => log = [] ∧ res = .ok a
  | raise e, log, res => log = [] ∧ res = .error e
  | call c k, log, res => ∃ r rest, log = ⟨c, r⟩ :: rest ∧ (k r).Path rest res

/-- A way through a sequence ends in its first part or splits at the
seam. -/
theorem Path.bind_inv {x : Prog C R ε α} {f : α → Prog C R ε β}
    {log : List (Σ c, R c)} {res : Except ε β} (hp : (x >>= f).Path log res) :
    (∃ e, x.Path log (.error e) ∧ res = .error e)
      ∨ ∃ a log₁ log₂, log = log₁ ++ log₂ ∧ x.Path log₁ (.ok a)
        ∧ (f a).Path log₂ res := by
  induction x generalizing log with
  | ret a => exact Or.inr ⟨a, [], log, rfl, ⟨rfl, rfl⟩, hp⟩
  | raise e =>
      obtain ⟨rfl, rfl⟩ := hp
      exact Or.inl ⟨e, ⟨rfl, rfl⟩, rfl⟩
  | call c k ih =>
      obtain ⟨r, rest, rfl, hrest⟩ := hp
      obtain ⟨e, hx, rfl⟩ | ⟨a, log₁, log₂, rfl, hx, hf⟩ := ih r hrest
      · exact Or.inl ⟨e, ⟨r, rest, rfl, hx⟩, rfl⟩
      · exact Or.inr ⟨a, ⟨c, r⟩ :: log₁, log₂, rfl, ⟨r, log₁, rfl, hx⟩, hf⟩

/-- A step that makes no call, come through. -/
theorem Path.ofExcept_inv {x : Except ε α} {f : α → Prog C R ε β}
    {log : List (Σ c, R c)} {b : β}
    (h : (ofExcept x >>= f).Path log (.ok b)) :
    ∃ a, x = .ok a ∧ (f a).Path log (.ok b) := by
  cases x with
  | error e => cases h.2
  | ok a => exact ⟨a, rfl, h⟩

/-- The program comes through the calls of `log`, with their replies, to
`q`. -/
inductive Leads : Prog C R ε α → List (Σ c, R c) → Prog C R ε α → Prop where
  | here (p : Prog C R ε α) : Leads p [] p
  | call {c : C} {k : R c → Prog C R ε α} {r : R c} {log : List (Σ c, R c)}
      {q : Prog C R ε α} (h : Leads (k r) log q) :
      Leads (.call c k) (⟨c, r⟩ :: log) q

/-- One call more. -/
theorem Leads.snoc {p : Prog C R ε α} {log : List (Σ c, R c)} {c : C}
    {k : R c → Prog C R ε α} (h : p.Leads log (.call c k)) (r : R c) :
    p.Leads (log ++ [⟨c, r⟩]) (k r) := by
  generalize hq : Prog.call c k = q at h
  induction h with
  | here p =>
      subst hq
      exact .call (.here _)
  | call h ih => exact .call (ih hq)

/-- A program that came to a return is all the way through. -/
theorem Leads.path {p : Prog C R ε α} {log : List (Σ c, R c)} {a : α}
    (h : p.Leads log (.ret a)) : p.Path log (.ok a) := by
  generalize hq : Prog.ret a = q at h
  induction h with
  | here p =>
      subst hq
      exact ⟨rfl, rfl⟩
  | call h ih => exact ⟨_, _, rfl, ih hq⟩

/-- A call with the reply a handler gives. -/
def answered (h : (c : C) → σ → Except ε (R c × σ)) (c : C) (s : σ) :
    List (Σ c, R c) :=
  match h c s with
  | .ok (r, _) => [⟨c, r⟩]
  | .error _ => []

end Prog
