import Mathlib.Logic.Relation

/-!
# Finite interaction programs

A program is a tree: it returns, fails, or performs one operation and goes on with the answer. The
operations are uninterpreted; a *world* (a state type and a relation saying which answers an
operation may get and what it does to the state) gives them meaning. One program can so be run in
several worlds: one where every operation succeeds, one where any may fail, one that stops anywhere.

* `Prog` — the trees, with their monad.
* `Step`, `Runs` — one operation, and any number of them: a run that has not reached a leaf is a
  program stopped half way.
* `Safe` — the matching Hoare logic: a condition that holds in every state on the way, and a
  postcondition at the leaves. `Safe.of_runs` is its soundness.
* `eval` — the deterministic case: a handler that answers every operation.
-/

namespace Interaction

/-- An effect signature: operations, and the type of each operation's answer. -/
structure Effects where
  Op : Type
  Res : Op → Type

/-- A finite program over the operations of `E`, failing with `ε` or returning `α`. -/
inductive Prog (E : Effects) (ε α : Type) : Type where
  | ret (a : α) : Prog E ε α
  | fail (e : ε) : Prog E ε α
  | step (o : E.Op) (k : E.Res o → Prog E ε α) : Prog E ε α

namespace Prog

variable {E E' : Effects} {ε α β γ σ : Type}

/-! ## The monad -/

/-- Sequencing: graft `f` onto the returning leaves. -/
def bind : Prog E ε α → (α → Prog E ε β) → Prog E ε β
  | .ret a, f => f a
  | .fail e, _ => .fail e
  | .step o k, f => .step o (fun r => (k r).bind f)

instance : Monad (Prog E ε) where
  pure := .ret
  bind := bind

@[simp] theorem pure_eq (a : α) : (pure a : Prog E ε α) = .ret a := rfl

@[simp] theorem ret_bind (a : α) (f : α → Prog E ε β) : (ret a >>= f) = f a := rfl

@[simp] theorem fail_bind (e : ε) (f : α → Prog E ε β) : (fail e >>= f) = fail e := rfl

@[simp] theorem step_bind (o : E.Op) (k : E.Res o → Prog E ε α) (f : α → Prog E ε β) :
    (step o k >>= f) = step o (fun r => k r >>= f) := rfl

theorem bind_ret (p : Prog E ε α) : (p >>= fun a => ret a) = p := by
  induction p with
  | ret a => rfl
  | fail e => rfl
  | step o k ih =>
      rw [step_bind]
      exact congrArg (step o) (funext ih)

theorem bind_assoc (p : Prog E ε α) (f : α → Prog E ε β) (g : β → Prog E ε γ) :
    (p >>= f >>= g) = (p >>= fun a => f a >>= g) := by
  induction p with
  | ret a => rfl
  | fail e => rfl
  | step o k ih =>
      rw [step_bind, step_bind, step_bind]
      exact congrArg (step o) (funext ih)

instance : LawfulMonad (Prog E ε) :=
  LawfulMonad.mk' _ bind_ret (fun _ _ => rfl) bind_assoc

/-! ## Building blocks -/

/-- Perform one operation and return its answer. -/
def perform (o : E.Op) : Prog E ε (E.Res o) := .step o .ret

/-- Return or fail according to a pure outcome: the `?` operator. -/
def ofExcept : Except ε α → Prog E ε α
  | .ok a => .ret a
  | .error e => .fail e

/-- Run `p` and hand over its outcome instead of failing. -/
def attempt : Prog E ε α → Prog E ε (Except ε α)
  | .ret a => .ret (.ok a)
  | .fail e => .ret (.error e)
  | .step o k => .step o (fun r => (k r).attempt)

/-- Fail with another error instead. -/
def mapError {ε' : Type} (g : ε → ε') : Prog E ε α → Prog E ε' α
  | .ret a => .ret a
  | .fail e => .fail (g e)
  | .step o k => .step o (fun r => (k r).mapError g)

/-- Replace every operation by a program of another signature. -/
def interp (φ : (o : E.Op) → Prog E' ε (E.Res o)) : Prog E ε α → Prog E' ε α
  | .ret a => .ret a
  | .fail e => .fail e
  | .step o k => φ o >>= fun r => (k r).interp φ

@[simp] theorem ofExcept_ok (a : α) : (ofExcept (.ok a) : Prog E ε α) = ret a := rfl

@[simp] theorem ofExcept_error (e : ε) : (ofExcept (.error e) : Prog E ε α) = fail e := rfl

@[simp] theorem attempt_ret (a : α) : (ret a : Prog E ε α).attempt = ret (.ok a) := rfl

@[simp] theorem attempt_fail (e : ε) : (fail e : Prog E ε α).attempt = ret (.error e) := rfl

theorem mapError_bind {ε' : Type} (g : ε → ε') (p : Prog E ε α) (f : α → Prog E ε β) :
    (p >>= f).mapError g = (p.mapError g >>= fun a => (f a).mapError g) := by
  induction p with
  | ret a => rfl
  | fail e => rfl
  | step o k ih => exact congrArg (step o) (funext ih)

theorem interp_bind (φ : (o : E.Op) → Prog E' ε (E.Res o)) (p : Prog E ε α) (f : α → Prog E ε β) :
    (p >>= f).interp φ = (p.interp φ >>= fun a => (f a).interp φ) := by
  induction p with
  | ret a => rfl
  | fail e => rfl
  | step o k ih =>
      show (φ o >>= fun r => (k r >>= f).interp φ) = (φ o >>= fun r => (k r).interp φ) >>= _
      rw [bind_assoc]
      exact congrArg (φ o >>= ·) (funext ih)

theorem interp_ofExcept (φ : (o : E.Op) → Prog E' ε (E.Res o)) (x : Except ε α) :
    (ofExcept x).interp φ = ofExcept x := by
  cases x <;> rfl

/-- What is caught and failed with again, under another name. -/
theorem attempt_bind_ofExcept (g : ε → ε) (p : Prog E ε α) (f : α → Prog E ε β) :
    (p.attempt >>= fun r => ofExcept (r.mapError g) >>= f) = p.mapError g >>= f := by
  induction p with
  | ret a => rfl
  | fail e => rfl
  | step o k ih => exact congrArg (step o) (funext ih)

/-! ## Worlds and runs -/

/-- What an operation may answer in state `s`, and the state it leaves. -/
abbrev World (E : Effects) (σ : Type) := (o : E.Op) → σ → E.Res o → σ → Prop

/-- One operation of a program, performed in a world. -/
inductive Step (R : World E σ) : Prog E ε α × σ → Prog E ε α × σ → Prop
  | mk {o : E.Op} {k : E.Res o → Prog E ε α} {s s' : σ} {r : E.Res o} (h : R o s r s') :
      Step R (.step o k, s) (k r, s')

/-- A run: any number of operations, not necessarily up to a leaf. -/
abbrev Runs (R : World E σ) : Prog E ε α × σ → Prog E ε α × σ → Prop :=
  Relation.ReflTransGen (Step R)

/-- `C` holds in every state the program passes through, and `Q` of its outcome at the end. -/
def Safe (R : World E σ) (C : σ → Prop) (Q : Except ε α → σ → Prop) : Prog E ε α → σ → Prop
  | .ret a, s => C s ∧ Q (.ok a) s
  | .fail e, s => C s ∧ Q (.error e) s
  | .step o k, s => C s ∧ ∀ r s', R o s r s' → Safe R C Q (k r) s'

section Safe

variable {R : World E σ} {C : σ → Prop} {Q Q' : Except ε α → σ → Prop}

theorem Safe.here {p : Prog E ε α} {s : σ} (h : Safe R C Q p s) : C s := by
  cases p with
  | ret a => exact h.1
  | fail e => exact h.1
  | step o k => exact h.1

/-- **Soundness**: a `Safe` program stays `Safe` along every run, so `C` holds wherever it is
stopped. -/
theorem Safe.of_runs {p q : Prog E ε α} {s s' : σ} (h : Safe R C Q p s)
    (hr : Runs R (p, s) (q, s')) : Safe R C Q q s' := by
  suffices hgen : ∀ c : Prog E ε α × σ, Runs R (p, s) c → Safe R C Q c.1 c.2 from hgen _ hr
  intro c hc
  induction hc with
  | refl => exact h
  | tail _ hstep ih =>
      cases hstep with
      | mk hR => exact ih.2 _ _ hR

theorem Safe.mono {p : Prog E ε α} {s : σ} (h : Safe R C Q p s)
    (hQ : ∀ r s, C s → Q r s → Q' r s) : Safe R C Q' p s := by
  induction p generalizing s with
  | ret a => exact ⟨h.1, hQ _ _ h.1 h.2⟩
  | fail e => exact ⟨h.1, hQ _ _ h.1 h.2⟩
  | step o k ih => exact ⟨h.1, fun r s' hR => ih r (h.2 r s' hR)⟩

/-- Sequencing rule: the first part's postcondition is the second part's safety. -/
theorem Safe.bind {Q : Except ε β → σ → Prop} {p : Prog E ε α} {f : α → Prog E ε β} {s : σ}
    (h : Safe R C (fun r s => match r with
      | .ok a => Safe R C Q (f a) s
      | .error e => Q (.error e) s) p s) : Safe R C Q (p >>= f) s := by
  induction p generalizing s with
  | ret a => exact h.2
  | fail e => exact h
  | step o k ih => exact ⟨h.1, fun r s' hR => ih r (h.2 r s' hR)⟩

/-- Catching rule. -/
theorem Safe.attempt {Q : Except ε (Except ε α) → σ → Prop} {p : Prog E ε α} {s : σ}
    (h : Safe R C (fun r s => Q (.ok r) s) p s) : Safe R C Q p.attempt s := by
  induction p generalizing s with
  | ret a => exact h
  | fail e => exact h
  | step o k ih => exact ⟨h.1, fun r s' hR => ih r (h.2 r s' hR)⟩

end Safe

/-! ## Deterministic evaluation -/

/-- A handler answers every operation. -/
abbrev Handler (E : Effects) (σ : Type) := (o : E.Op) → σ → E.Res o × σ

/-- Run a program to its leaf under a handler. -/
def eval (h : Handler E σ) : Prog E ε α → σ → Except ε α × σ
  | .ret a, s => (.ok a, s)
  | .fail e, s => (.error e, s)
  | .step o k, s => (k (h o s).1).eval h (h o s).2

section eval

variable (h : Handler E σ)

@[simp] theorem eval_ret (a : α) (s : σ) : (ret a : Prog E ε α).eval h s = (.ok a, s) := rfl

@[simp] theorem eval_fail (e : ε) (s : σ) : (fail e : Prog E ε α).eval h s = (.error e, s) := rfl

@[simp] theorem eval_step (o : E.Op) (k : E.Res o → Prog E ε α) (s : σ) :
    (step o k).eval h s = (k (h o s).1).eval h (h o s).2 := rfl

/-- One operation, once its answer is known. Rewriting with this keeps the answer's type, which
depends on the operation, out of the way. -/
theorem eval_step_eq {o : E.Op} {k : E.Res o → Prog E ε α} {s s' : σ} {r : E.Res o}
    (ho : h o s = (r, s')) : (step o k).eval h s = (k r).eval h s' := by
  rw [eval_step, ho]

@[simp] theorem eval_perform (o : E.Op) (s : σ) :
    (perform o : Prog E ε _).eval h s = (.ok (h o s).1, (h o s).2) := rfl

@[simp] theorem eval_ofExcept (x : Except ε α) (s : σ) :
    (ofExcept x : Prog E ε α).eval h s = (x, s) := by
  cases x <;> rfl

theorem eval_bind (p : Prog E ε α) (f : α → Prog E ε β) (s : σ) :
    (p >>= f).eval h s = match p.eval h s with
      | (.ok a, s') => (f a).eval h s'
      | (.error e, s') => (.error e, s') := by
  induction p generalizing s with
  | ret a => rfl
  | fail e => rfl
  | step o k ih => exact ih _ _

theorem eval_bind_ok {p : Prog E ε α} {f : α → Prog E ε β} {s s' : σ} {a : α}
    (hp : p.eval h s = (.ok a, s')) : (p >>= f).eval h s = (f a).eval h s' := by
  rw [eval_bind, hp]

theorem eval_attempt (p : Prog E ε α) (s : σ) :
    p.attempt.eval h s = (.ok (p.eval h s).1, (p.eval h s).2) := by
  induction p generalizing s with
  | ret a => rfl
  | fail e => rfl
  | step o k ih => exact ih _ _

theorem eval_mapError {ε' : Type} (g : ε → ε') (p : Prog E ε α) (s : σ) :
    (p.mapError g).eval h s = ((p.eval h s).1.mapError g, (p.eval h s).2) := by
  induction p generalizing s with
  | ret a => rfl
  | fail e => rfl
  | step o k ih => exact ih _ _

/-- Every failure of the program is one of `F`. -/
def FailsWith (F : ε → Prop) : Prog E ε α → Prop
  | .ret _ => True
  | .fail e => F e
  | .step _ k => ∀ r, FailsWith F (k r)

theorem FailsWith.bind {F : ε → Prop} {p : Prog E ε α} {f : α → Prog E ε β} (hp : FailsWith F p)
    (hf : ∀ a, FailsWith F (f a)) : FailsWith F (p >>= f) := by
  induction p with
  | ret a => exact hf a
  | fail e => exact hp
  | step o k ih => exact fun r => ih r (hp r)

theorem FailsWith.mono {F F' : ε → Prop} {p : Prog E ε α} (hp : FailsWith F p) (hF : ∀ e, F e → F' e) :
    FailsWith F' p := by
  induction p with
  | ret a => trivial
  | fail e => exact hF e hp
  | step o k ih => exact fun r => ih r (hp r)

/-- What is caught does not fail. -/
theorem FailsWith.attempt (F : ε → Prop) (p : Prog E ε α) : FailsWith F p.attempt := by
  induction p with
  | ret a => trivial
  | fail e => trivial
  | step o k ih => exact ih

theorem FailsWith.of_eval {F : ε → Prop} {p : Prog E ε α} (hp : FailsWith F p) {s s' : σ} {e : ε}
    (he : p.eval h s = (.error e, s')) : F e := by
  induction p generalizing s with
  | ret a => cases he
  | fail e =>
      cases he
      exact hp
  | step o k ih => exact ih _ (hp _) he

/-- Perform at most `n` operations: the program and the state left when it is stopped there. -/
def evalN (h : Handler E σ) : Nat → Prog E ε α → σ → Prog E ε α × σ
  | 0, p, s => (p, s)
  | _ + 1, .ret a, s => (.ret a, s)
  | _ + 1, .fail e, s => (.fail e, s)
  | n + 1, .step o k, s => (k (h o s).1).evalN h n (h o s).2

@[simp] theorem evalN_zero (p : Prog E ε α) (s : σ) : p.evalN h 0 s = (p, s) := rfl

@[simp] theorem evalN_ret (n : Nat) (a : α) (s : σ) :
    (ret a : Prog E ε α).evalN h n s = (ret a, s) := by
  cases n <;> rfl

@[simp] theorem evalN_fail (n : Nat) (e : ε) (s : σ) :
    (fail e : Prog E ε α).evalN h n s = (fail e, s) := by
  cases n <;> rfl

@[simp] theorem evalN_step (n : Nat) (o : E.Op) (k : E.Res o → Prog E ε α) (s : σ) :
    (step o k).evalN h (n + 1) s = (k (h o s).1).evalN h n (h o s).2 := rfl

theorem evalN_step_eq {n : Nat} {o : E.Op} {k : E.Res o → Prog E ε α} {s s' : σ} {r : E.Res o}
    (ho : h o s = (r, s')) : (step o k).evalN h (n + 1) s = (k r).evalN h n s' := by
  rw [evalN_step, ho]

/-- A pure continuation performs nothing, so it does not matter where the program is stopped. -/
theorem evalN_bind_ret (n : Nat) (p : Prog E ε α) (f : α → β) (s : σ) :
    ((p >>= fun a => ret (f a)).evalN h n s).2 = (p.evalN h n s).2 := by
  induction p generalizing n s with
  | ret a => simp
  | fail e => simp
  | step o k ih =>
      cases n with
      | zero => rfl
      | succ n => exact ih _ n _

theorem evalN_attempt (n : Nat) (p : Prog E ε α) (s : σ) :
    (p.attempt.evalN h n s).2 = (p.evalN h n s).2 := by
  induction p generalizing n s with
  | ret a => simp
  | fail e => simp
  | step o k ih =>
      cases n with
      | zero => rfl
      | succ n => exact ih _ n _

/-- A sequence is stopped in its first part, or in the second. -/
theorem evalN_bind (n : Nat) (p : Prog E ε α) (f : α → Prog E ε β) (s : σ) :
    ((p >>= f).evalN h n s).2 = (p.evalN h n s).2 ∨
      ∃ a m, (p.eval h s).1 = .ok a ∧ ((p >>= f).evalN h n s).2 = ((f a).evalN h m (p.eval h s).2).2 := by
  induction p generalizing n s with
  | ret a => exact .inr ⟨a, n, rfl, rfl⟩
  | fail e =>
      left
      show ((fail e : Prog E ε β).evalN h n s).2 = _
      rw [evalN_fail, evalN_fail]
  | step o k ih =>
      cases n with
      | zero => exact .inl rfl
      | succ n => exact ih _ n _

end eval

end Prog
end Interaction
