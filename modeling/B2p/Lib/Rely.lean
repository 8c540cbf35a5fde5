import B2p.Lib.Prog

/-!
# A program among others

Between two operations of a program others may change the state it works on. `Terms` says what the
program relies on them to leave alone, and what it promises to do itself; `Among` is the Hoare logic
that goes with it: a postcondition for the state in which the program ends, whatever the others did
in the meantime.

* `Among.mono`, `Among.bind`, `Among.attempt` — the rules.
* `Among.stable` — a step of another program does no harm.
-/

namespace Interaction
namespace Prog

variable {E : Effects} {ε α β σ : Type}

/-- The terms on which a program shares its state with others. -/
structure Terms (E : Effects) (σ : Type) where
  /-- What the program's own operations answer and do. -/
  world : World E σ
  /-- What the others may have done since. -/
  rely : σ → σ → Prop
  /-- The operations the program may perform. -/
  may : E.Op → σ → Prop
  rely_trans : ∀ {a b c}, rely a b → rely b c → rely a c

/-- Every operation of the program is one it may perform, and `Q` holds of its outcome at the end,
whatever others do between two operations. -/
def Among (T : Terms E σ) (Q : Except ε α → σ → Prop) : Prog E ε α → σ → Prop
  | .ret a, s => Q (.ok a) s
  | .fail e, s => Q (.error e) s
  | .step o k, s => ∀ s₁, T.rely s s₁ →
      T.may o s₁ ∧ ∀ r s', T.world o s₁ r s' → Among T Q (k r) s'

variable {T : Terms E σ} {Q Q' : Except ε α → σ → Prop} {p : Prog E ε α} {s s' : σ}

theorem Among.mono (h : Among T Q p s) (hQ : ∀ r s, Q r s → Q' r s) : Among T Q' p s := by
  induction p generalizing s with
  | ret a => exact hQ _ _ h
  | fail e => exact hQ _ _ h
  | step o k ih =>
      intro s₁ hs
      exact ⟨(h s₁ hs).1, fun r s' hR => ih r ((h s₁ hs).2 r s' hR)⟩

/-- Sequencing. -/
theorem Among.bind {Q : Except ε β → σ → Prop} {f : α → Prog E ε β}
    (h : Among T (fun r s => match r with
      | .ok a => Among T Q (f a) s
      | .error e => Q (.error e) s) p s) : Among T Q (p >>= f) s := by
  induction p generalizing s with
  | ret a => exact h
  | fail e => exact h
  | step o k ih =>
      intro s₁ hs
      exact ⟨(h s₁ hs).1, fun r s' hR => ih r ((h s₁ hs).2 r s' hR)⟩

/-- Catching. -/
theorem Among.attempt {Q : Except ε (Except ε α) → σ → Prop}
    (h : Among T (fun r s => Q (.ok r) s) p s) : Among T Q p.attempt s := by
  induction p generalizing s with
  | ret a => exact h
  | fail e => exact h
  | step o k ih =>
      intro s₁ hs
      exact ⟨(h s₁ hs).1, fun r s' hR => ih r ((h s₁ hs).2 r s' hR)⟩

/-- **What others do leaves the program as good as it was**, unless it has ended and the postcondition
is affected. -/
theorem Among.stable (h : Among T Q p s) (hs : T.rely s s')
    (hQ : ∀ r, p = ofExcept r → Q r s → Q r s') : Among T Q p s' := by
  cases p with
  | ret a => exact hQ (.ok a) rfl h
  | fail e => exact hQ (.error e) rfl h
  | step o k => exact fun s₁ hs₁ => h s₁ (T.rely_trans hs hs₁)

end Prog
end Interaction
