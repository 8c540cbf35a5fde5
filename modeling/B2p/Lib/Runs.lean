import Mathlib.Data.List.Chain
import Mathlib.Logic.Relation
import Mathlib.Tactic.Common

/-!
# Runs of a machine that may refuse an event

A machine is a function `step` that says what an event makes of a state, or that it cannot happen there.
A run takes the events one after the other.

* `RunOf.append` — a run of two lists is a run of the one and then of the other.
* `RunOf.invariant` — what every step keeps, a run keeps; `RunOf.invariant_of_all` for steps that meet a
  condition.
* `length_le_of_lowers`, `exists_rest` — where every step lowers a measure, there are only so many, and there
  is a run to a state without another one.
-/

namespace Machines

variable {σ ε : Type}

/-- `run` takes the events one after the other; there is no run if one of them is refused. -/
structure RunOf (step : σ → ε → Option σ) (run : σ → List ε → Option σ) : Prop where
  nil : ∀ s, run s [] = some s
  cons : ∀ s e es, run s (e :: es) = (step s e).bind fun s' => run s' es

/-- `all` asks the condition `ok` of every event of a run, in the state where it happens. -/
structure AllOf (step : σ → ε → Option σ) (ok : σ → ε → Prop) (all : σ → List ε → Prop) : Prop where
  cons : ∀ s e es, all s (e :: es) → ok s e ∧ ∀ s', step s e = some s' → all s' es

variable {step : σ → ε → Option σ} {run : σ → List ε → Option σ} {ok : σ → ε → Prop}
  {all : σ → List ε → Prop} {I : σ → Prop} {s s' : σ} {es : List ε}

theorem RunOf.append (h : RunOf step run) (s : σ) (es fs : List ε) :
    run s (es ++ fs) = (run s es).bind fun s' => run s' fs := by
  induction es generalizing s with
  | nil => rw [List.nil_append, h.nil, Option.bind_some]
  | cons e es ih =>
      rw [List.cons_append, h.cons, h.cons]
      cases step s e with
      | none => rfl
      | some s' => exact ih s'

/-- **The invariant rule**, for runs all of whose events meet a condition. -/
theorem RunOf.invariant_of_all (h : RunOf step run) (hall : AllOf step ok all)
    (hstep : ∀ s e s', I s → ok s e → step s e = some s' → I s') (hs : I s) (hok : all s es)
    (hrun : run s es = some s') : I s' := by
  induction es generalizing s with
  | nil =>
      rw [h.nil, Option.some.injEq] at hrun
      exact hrun ▸ hs
  | cons e es ih =>
      rw [h.cons] at hrun
      obtain ⟨s₁, hs₁, hrest⟩ := Option.bind_eq_some_iff.mp hrun
      obtain ⟨he, hnext⟩ := hall.cons s e es hok
      exact ih (hstep s e s₁ hs he hs₁) (hnext s₁ hs₁) hrest

/-- **The invariant rule**, for all runs. -/
theorem RunOf.invariant (h : RunOf step run) (hstep : ∀ s e s', I s → step s e = some s' → I s')
    (hs : I s) (hrun : run s es = some s') : I s' := by
  have hall : AllOf step (fun _ _ => True) (fun _ _ => True) := ⟨fun _ _ _ _ => ⟨trivial, fun _ _ => trivial⟩⟩
  exact h.invariant_of_all hall (fun s e s' hs _ => hstep s e s' hs) hs trivial hrun

/-! ## Runs that come to an end -/

section ends

variable {R : σ → σ → Prop}

/-- Where every step keeps `I` and lowers the measure `μ`, there are no more steps than it allows. -/
theorem length_le_of_lowers {μ : σ → Nat} (hstep : ∀ s s', I s → R s s' → I s' ∧ μ s' < μ s) (hs : I s)
    {ts : List σ} (hts : List.IsChain R (s :: ts)) : ts.length ≤ μ s := by
  induction ts generalizing s with
  | nil => exact Nat.zero_le _
  | cons s' ts ih =>
      obtain ⟨hR, hrest⟩ := List.isChain_cons_cons.mp hts
      obtain ⟨hs', hlt⟩ := hstep s s' hs hR
      exact (Nat.succ_le_succ (ih hs' hrest)).trans hlt

theorem exists_rest {n : Nat} (h : ∀ ts, List.IsChain R (s :: ts) → ts.length ≤ n) :
    ∃ s', Relation.ReflTransGen R s s' ∧ ∀ s'', ¬ R s' s'' := by
  induction n generalizing s with
  | zero =>
      refine ⟨s, .refl, fun s' hR => ?_⟩
      exact absurd (h [s'] (.cons_cons hR (.singleton s'))) (by simp)
  | succ n ih =>
      by_cases hnext : ∃ s', R s s'
      · obtain ⟨s', hR⟩ := hnext
        obtain ⟨s'', hreach, hrest⟩ := ih (s := s') fun ts hts =>
          Nat.le_of_succ_le_succ (h (s' :: ts) (.cons_cons hR hts))
        exact ⟨s'', .head hR hreach, hrest⟩
      · exact ⟨s, .refl, not_exists.mp hnext⟩

end ends

end Machines
