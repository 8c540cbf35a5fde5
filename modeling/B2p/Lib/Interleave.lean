import B2p.Lib.Prog
import Mathlib.Logic.Function.Basic

/-!
# Many programs at once

Several programs run side by side; what one is answered may depend on all that has happened so far.
A run is then a *log*: the operations performed, in order, each with the party that performed it and
the answer it got. Every party's own part of the log is a path through its program, and every answer
is one the environment allows after what precedes it.

* `Action`, `Follows` — one performed operation, and a path through a program.
* `own`, `Run` — a party's part of a log, and the logs of a family of programs.
* `Follows.safe` — a party is reasoned about alone, with the Hoare logic of `Safe` over its own trace.
-/

namespace Interaction

/-- A performed operation and its answer. -/
structure Action (E : Effects) where
  op : E.Op
  res : E.Res op

namespace Prog

variable {E : Effects} {ε α : Type}

/-- The program `p` performs the actions `tr`, in order, and then is `q`. -/
inductive Follows : Prog E ε α → List (Action E) → Prog E ε α → Prop
  | nil (p : Prog E ε α) : Follows p [] p
  | cons {o : E.Op} {k : E.Res o → Prog E ε α} {r : E.Res o} {tr : List (Action E)}
      {q : Prog E ε α} (h : Follows (k r) tr q) : Follows (.step o k) (⟨o, r⟩ :: tr) q

theorem Follows.append {p m q : Prog E ε α} {tr tr' : List (Action E)} (h : Follows p tr m)
    (h' : Follows m tr' q) : Follows p (tr ++ tr') q := by
  induction h with
  | nil p => exact h'
  | cons _ ih => exact .cons (ih h')

/-- A program goes as far with something after it. -/
theorem Follows.bind {β : Type} {p m : Prog E ε α} {tr : List (Action E)} (h : Follows p tr m)
    (f : α → Prog E ε β) : Follows (p >>= f) tr (m >>= f) := by
  induction h with
  | nil p => exact .nil _
  | cons _ ih => exact .cons ih

theorem Follows.split {p q : Prog E ε α} {tr tr' : List (Action E)} (h : Follows p (tr ++ tr') q) :
    ∃ m, Follows p tr m ∧ Follows m tr' q := by
  induction tr generalizing p with
  | nil => exact ⟨p, .nil p, h⟩
  | cons a tr ih =>
      cases h with
      | cons h =>
          obtain ⟨m, hm, hq⟩ := ih h
          exact ⟨m, .cons hm, hq⟩

/-- A path leads to one program only. -/
theorem Follows.functional {p q q' : Prog E ε α} {tr : List (Action E)} (h : Follows p tr q)
    (h' : Follows p tr q') : q = q' := by
  induction h with
  | nil p => cases h'; rfl
  | cons _ ih =>
      cases h' with
      | cons h' => exact ih h'

theorem Follows.of_nil {p q : Prog E ε α} (h : Follows p [] q) : p = q := by
  cases h
  rfl

/-- The first action of a path. -/
theorem Follows.step_inv {o : E.Op} {k : E.Res o → Prog E ε α} {tr : List (Action E)}
    {q : Prog E ε α} (h : Follows (.step o k) tr q) :
    (tr = [] ∧ q = .step o k) ∨ ∃ r tr', tr = ⟨o, r⟩ :: tr' ∧ Follows (k r) tr' q := by
  cases h with
  | nil p => exact .inl ⟨rfl, rfl⟩
  | cons h => exact .inr ⟨_, _, rfl, h⟩

theorem Follows.fail_inv {e : ε} {tr : List (Action E)} {q : Prog E ε α}
    (h : Follows (.fail e) tr q) : q = .fail e := by
  cases h
  rfl

/-- The last action of a path. -/
theorem Follows.snoc {p q : Prog E ε α} {tr : List (Action E)} {o : E.Op} {r : E.Res o}
    (h : Follows p (tr ++ [⟨o, r⟩]) q) :
    ∃ k : E.Res o → Prog E ε α, Follows p tr (.step o k) ∧ k r = q := by
  obtain ⟨m, hm, hq⟩ := h.split
  cases hq with
  | cons hq => exact ⟨_, hm, hq.of_nil⟩

/-- A path through a sequence is one through its first part, or goes on into the second. -/
theorem Follows.bind_inv {β : Type} {p : Prog E ε α} {f : α → Prog E ε β} {tr : List (Action E)}
    {q : Prog E ε β} (h : Follows (p >>= f) tr q) :
    (∃ m, Follows p tr m ∧ q = (m >>= f)) ∨
      ∃ a tr₁ tr₂, tr = tr₁ ++ tr₂ ∧ Follows p tr₁ (.ret a) ∧ Follows (f a) tr₂ q := by
  induction p generalizing tr with
  | ret a => exact .inr ⟨a, [], tr, rfl, .nil _, h⟩
  | fail e =>
      cases h
      exact .inl ⟨_, .nil _, rfl⟩
  | step o k ih =>
      cases h with
      | nil => exact .inl ⟨_, .nil _, rfl⟩
      | cons h =>
          rcases ih _ h with ⟨m, hm, hq⟩ | ⟨a, tr₁, tr₂, rfl, h₁, h₂⟩
          · exact .inl ⟨m, .cons hm, hq⟩
          · exact .inr ⟨a, _ :: tr₁, tr₂, rfl, .cons h₁, h₂⟩

/-- A sequence that has returned has been through both its parts. -/
theorem Follows.of_bind_ret {β : Type} {p : Prog E ε α} {f : α → Prog E ε β} {tr : List (Action E)} {b : β}
    (h : Follows (p >>= f) tr (.ret b)) :
    ∃ a tr₁ tr₂, tr = tr₁ ++ tr₂ ∧ Follows p tr₁ (.ret a) ∧ Follows (f a) tr₂ (.ret b) := by
  rcases h.bind_inv with ⟨m, hm, hq⟩ | h
  · cases m with
    | ret a => exact ⟨a, tr, [], (List.append_nil tr).symm, hm, hq ▸ .nil _⟩
    | fail e => cases hq
    | step o k => cases hq
  · exact h

/-- The actions of a program under a handler, up to its leaf. -/
def traceOf {σ : Type} (h : Handler E σ) : Prog E ε α → σ → List (Action E)
  | .ret _, _ => []
  | .fail _, _ => []
  | .step o k, s => ⟨o, (h o s).1⟩ :: traceOf h (k (h o s).1) (h o s).2

/-- Every operation the program can perform satisfies `P`. -/
def Only (P : E.Op → Prop) : Prog E ε α → Prop
  | .ret _ => True
  | .fail _ => True
  | .step o k => P o ∧ ∀ r, Only P (k r)

theorem Only.bind {P : E.Op → Prop} {p : Prog E ε α} {β : Type} {f : α → Prog E ε β}
    (hp : Only P p) (hf : ∀ a, Only P (f a)) : Only P (p >>= f) := by
  induction p with
  | ret a => exact hf a
  | fail e => trivial
  | step o k ih => exact ⟨hp.1, fun r => ih r (hp.2 r)⟩

theorem Only.mono {P P' : E.Op → Prop} {p : Prog E ε α} (hp : Only P p) (h : ∀ o, P o → P' o) :
    Only P' p := by
  induction p with
  | ret a => trivial
  | fail e => trivial
  | step o k ih => exact ⟨h o hp.1, fun r => ih r (hp.2 r)⟩

/-- One operation, then the rest. -/
theorem Only.op {P : E.Op → Prop} {o : E.Op} {f : E.Res o → Prog E ε α} (ho : P o)
    (hf : ∀ r, Only P (f r)) : Only P ((.step o .ret : Prog E ε _) >>= f) :=
  ⟨ho, hf⟩

/-- A `?`, then the rest. -/
theorem Only.ofExcept {P : E.Op → Prop} {β : Type} {x : Except ε β} {f : β → Prog E ε α}
    (h : ∀ b, Only P (f b)) : Only P (ofExcept x >>= f) := by
  cases x with
  | ok b => exact h b
  | error e => trivial

theorem Only.interp {E' : Effects} {P : E'.Op → Prop} {φ : (o : E.Op) → Prog E' ε (E.Res o)}
    (hφ : ∀ o, Only P (φ o)) (p : Prog E ε α) : Only P (p.interp φ) := by
  induction p with
  | ret a => trivial
  | fail e => trivial
  | step o k ih => exact (hφ o).bind ih

theorem Only.follows {P : E.Op → Prop} {p q : Prog E ε α} (hp : Only P p) {tr : List (Action E)}
    (h : Follows p tr q) : Only P q := by
  induction h with
  | nil p => exact hp
  | cons _ ih => exact ih (hp.2 _)

/-- What a program is about to do is one of its operations. -/
theorem Only.of_follows {P : E.Op → Prop} {p : Prog E ε α} (hp : Only P p) {tr : List (Action E)}
    {o : E.Op} {k : E.Res o → Prog E ε α} (h : Follows p tr (.step o k)) : P o :=
  (hp.follows h).1

/-- What a program has done is some of its operations. -/
theorem Only.of_mem {P : E.Op → Prop} {p q : Prog E ε α} (hp : Only P p) {tr : List (Action E)}
    (h : Follows p tr q) {a : Action E} (ha : a ∈ tr) : P a.op := by
  induction h with
  | nil p => cases ha
  | cons _ ih =>
      rcases List.mem_cons.mp ha with rfl | ha
      · exact hp.1
      · exact ih (hp.2 _) ha

/-- A sequence about to do what its first part never does is past its first part. -/
theorem Follows.past {P : E.Op → Prop} {β : Type} {p : Prog E ε α} {f : α → Prog E ε β}
    {tr : List (Action E)} {o : E.Op} {k : E.Res o → Prog E ε β}
    (h : Follows (p >>= f) tr (.step o k)) (hp : Only P p) (ho : ¬ P o) :
    ∃ a tr₁ tr₂, tr = tr₁ ++ tr₂ ∧ Follows p tr₁ (.ret a) ∧ Follows (f a) tr₂ (.step o k) := by
  rcases h.bind_inv with ⟨m, hm, hq⟩ | h
  · cases m with
    | ret a => exact ⟨a, tr, [], (List.append_nil tr).symm, hm, hq ▸ .nil _⟩
    | fail e => cases hq
    | step o' k' =>
        cases hq
        exact absurd (hp.of_follows hm) ho
  · exact h

theorem Only.attempt {P : E.Op → Prop} {p : Prog E ε α} (hp : Only P p) : Only P p.attempt := by
  induction p with
  | ret a => trivial
  | fail e => trivial
  | step o k ih => exact ⟨hp.1, fun r => ih r (hp.2 r)⟩

theorem Only.of_mem_traceOf {P : E.Op → Prop} {p : Prog E ε α} (hp : Only P p) {σ : Type}
    (h : Handler E σ) {s : σ} {a : Action E} (ha : a ∈ traceOf h p s) : P a.op := by
  induction p generalizing s with
  | ret b => cases ha
  | fail e => cases ha
  | step o k ih =>
      rcases List.mem_cons.mp ha with rfl | ha
      · exact hp.1
      · exact ih _ (hp.2 _) ha

/-- What the operations of a program keep, it keeps, wherever it is stopped. -/
theorem Only.evalN {P : E.Op → Prop} {p : Prog E ε α} (hp : Only P p) {σ : Type} {h : Handler E σ}
    {I : σ → Prop} (hI : ∀ o s, P o → I s → I (h o s).2) (n : Nat) {s : σ} (hs : I s) :
    I (p.evalN h n s).2 := by
  induction p generalizing n s with
  | ret a => simpa using hs
  | fail e => simpa using hs
  | step o k ih =>
      cases n with
      | zero => exact hs
      | succ n => exact ih _ (hp.2 _) n (hI o s hp.1 hs)

/-- Assume and guarantee: as long as its operations are answered as `A` says, the program performs
operations in `P` only, and returns values in `Q`. -/
def Given (A : (o : E.Op) → E.Res o → Prop) (P : E.Op → Prop) (Q : α → Prop) : Prog E ε α → Prop
  | .ret a => Q a
  | .fail _ => True
  | .step o k => P o ∧ ∀ r, A o r → Given A P Q (k r)

section Given

variable {A : (o : E.Op) → E.Res o → Prop} {P : E.Op → Prop} {Q : α → Prop}

theorem Given.bind {p : Prog E ε α} {β : Type} {Q' : β → Prop} {f : α → Prog E ε β}
    (hp : Given A P Q p) (hf : ∀ a, Q a → Given A P Q' (f a)) : Given A P Q' (p >>= f) := by
  induction p with
  | ret a => exact hf a hp
  | fail e => trivial
  | step o k ih => exact ⟨hp.1, fun r hr => ih r (hp.2 r hr)⟩

/-- One operation, then the rest. -/
theorem Given.op {o : E.Op} {f : E.Res o → Prog E ε α} (ho : P o)
    (hf : ∀ r, A o r → Given A P Q (f r)) : Given A P Q ((.step o .ret : Prog E ε _) >>= f) :=
  ⟨ho, hf⟩

/-- A `?`, then the rest. -/
theorem Given.ofExcept {β : Type} {x : Except ε β} {f : β → Prog E ε α}
    (h : ∀ b, x = .ok b → Given A P Q (f b)) : Given A P Q (ofExcept x >>= f) := by
  cases x with
  | ok b => exact h b rfl
  | error e => trivial

theorem Given.mono {A' : (o : E.Op) → E.Res o → Prop} {P' : E.Op → Prop} {Q' : α → Prop} {p : Prog E ε α}
    (hp : Given A P Q p) (hA : ∀ o r, A' o r → A o r) (hP : ∀ o, P o → P' o) (hQ : ∀ a, Q a → Q' a) :
    Given A' P' Q' p := by
  induction p with
  | ret a => exact hQ a hp
  | fail e => trivial
  | step o k ih => exact ⟨hP o hp.1, fun r hr => ih r (hp.2 r (hA o r hr))⟩

theorem Given.attempt {p : Prog E ε α} (hp : Given A P Q p) :
    Given A P (fun r => ∀ a, r = .ok a → Q a) p.attempt := by
  induction p with
  | ret a =>
      rintro _ ⟨⟩
      exact hp
  | fail e => exact nofun
  | step o k ih => exact ⟨hp.1, fun r hr => ih r (hp.2 r hr)⟩

theorem Given.mapError {ε' : Type} {g : ε → ε'} {p : Prog E ε α} (hp : Given A P Q p) :
    Given A P Q (p.mapError g) := by
  induction p with
  | ret a => exact hp
  | fail e => trivial
  | step o k ih => exact ⟨hp.1, fun r hr => ih r (hp.2 r hr)⟩

/-- Under a handler whose answers are as assumed, what the guaranteed operations preserve holds at the
end. -/
theorem Given.eval {σ : Type} {h : Handler E σ} {I : σ → Prop} {p : Prog E ε α} (hp : Given A P Q p)
    (hA : ∀ o s, I s → A o (h o s).1) (hI : ∀ o s, I s → P o → I (h o s).2) {s : σ} (hs : I s) :
    I (p.eval h s).2 ∧ ∀ a, (p.eval h s).1 = .ok a → Q a := by
  induction p generalizing s with
  | ret a =>
      refine ⟨hs, ?_⟩
      rintro _ ⟨⟩
      exact hp
  | fail e => exact ⟨hs, nofun⟩
  | step o k ih => exact ih _ (hp.2 _ (hA o s hs)) (hI o s hs hp.1)

/-- Nothing assumed, nothing guaranteed. -/
theorem given_true (p : Prog E ε α) :
    Given (fun _ _ => True) (fun _ => True) (fun _ => True) p := by
  induction p with
  | ret a => trivial
  | fail e => trivial
  | step o k ih => exact ⟨trivial, fun r _ => ih r⟩

/-- Along a path whose answers are as assumed, what is guaranteed holds. -/
theorem Given.follows {p q : Prog E ε α} {tr : List (Action E)} (hp : Given A P Q p)
    (hf : Follows p tr q) (hA : ∀ a ∈ tr, A a.op a.res) : (∀ a ∈ tr, P a.op) ∧ Given A P Q q := by
  induction hf with
  | nil p => exact ⟨by simp, hp⟩
  | @cons o k r tr q hf ih =>
      have hnext := ih (hp.2 r (hA _ List.mem_cons_self))
        (fun a ha => hA a (List.mem_cons_of_mem _ ha))
      refine ⟨?_, hnext.2⟩
      intro a ha
      rcases List.mem_cons.mp ha with rfl | ha
      · exact hp.1
      · exact hnext.1 a ha

end Given

/-- A path to a failure ends with one of those there are. -/
theorem FailsWith.of_follows {F : ε → Prop} {p : Prog E ε α} (hp : FailsWith F p) {tr : List (Action E)}
    {e : ε} (h : Follows p tr (.fail e)) : F e := by
  generalize hq : Prog.fail e = q at h
  induction h with
  | nil p =>
      subst hq
      exact hp
  | cons _ ih => exact ih (hp _) hq

/-- What is caught is one of the failures there are. -/
theorem FailsWith.given_attempt {A : (o : E.Op) → E.Res o → Prop} {F : ε → Prop} {p : Prog E ε α}
    (hp : FailsWith F p) : Given A (fun _ => True) (fun r => ∀ e, r = .error e → F e) p.attempt := by
  induction p with
  | ret a => exact nofun
  | fail e =>
      rintro _ ⟨⟩
      exact hp
  | step o k ih => exact ⟨trivial, fun r _ => ih r (hp r)⟩

/-- What is caught has run up to its outcome. -/
theorem Follows.attempt_inv {p : Prog E ε α} {tr : List (Action E)} {res : Except ε α}
    (h : Follows p.attempt tr (.ret res)) : Follows p tr (ofExcept res) := by
  induction p generalizing tr with
  | ret a =>
      cases h
      exact .nil _
  | fail e =>
      cases h
      exact .nil _
  | step o k ih =>
      cases h with
      | cons h => exact .cons (ih _ h)

/-- The world of one party: anything may be answered, and all is recorded. -/
def traced : World E (List (Action E)) := fun o tr r tr' => tr' = tr ++ [⟨o, r⟩]

/-- **What holds of a program over its own trace holds along every path through it.** -/
theorem Follows.safe {C : List (Action E) → Prop} {Q : Except ε α → List (Action E) → Prop}
    {p q : Prog E ε α} {tr : List (Action E)} (h : Follows p tr q) {past : List (Action E)}
    (hs : Safe traced C Q p past) : Safe traced C Q q (past ++ tr) := by
  induction h generalizing past with
  | nil p => rwa [List.append_nil]
  | @cons o k r tr q h ih =>
      have hnext : Safe traced C Q (k r) (past ++ [⟨o, r⟩]) := hs.2 r _ rfl
      have := ih hnext
      rwa [List.append_assoc] at this

/-- A party's part of a log. -/
def own {I : Type} [DecidableEq I] (i : I) (log : List (I × Action E)) : List (Action E) :=
  log.filterMap fun x => if x.1 = i then some x.2 else none

section own

variable {I : Type} [DecidableEq I]

theorem mem_own {i : I} {a : Action E} {log : List (I × Action E)} :
    a ∈ own i log ↔ (i, a) ∈ log := by
  rw [own, List.mem_filterMap]
  constructor
  · rintro ⟨⟨j, b⟩, hmem, hb⟩
    split at hb
    · next hj =>
        cases hb
        exact hj ▸ hmem
    · cases hb
  · intro h
    exact ⟨(i, a), h, if_pos rfl⟩

theorem own_map_self (i : I) (tr : List (Action E)) : own i (tr.map fun a => (i, a)) = tr := by
  have hall : ((fun x : I × Action E => if x.1 = i then some x.2 else none) ∘ fun a => (i, a)) = some :=
    funext fun a => if_pos rfl
  rw [own, List.filterMap_map, hall, List.filterMap_some]

theorem own_map_of_ne {i j : I} (h : j ≠ i) (tr : List (Action E)) :
    own i (tr.map fun a => (j, a)) = [] := by
  rw [own, List.filterMap_map, List.filterMap_eq_nil_iff]
  exact fun a _ => if_neg h

theorem own_append (i : I) (l m : List (I × Action E)) : own i (l ++ m) = own i l ++ own i m :=
  List.filterMap_append ..

end own

/-- What no party does twice, and no two parties both do, is done once. -/
theorem nodup_of_own {I S : Type} [DecidableEq I] {f : Action E → Option S}
    {log : List (I × Action E)} (hown : ∀ i, ((own i log).filterMap f).Nodup)
    (hapart : ∀ i j a b x, (i, a) ∈ log → (j, b) ∈ log → f a = some x → f b = some x → i = j) :
    (log.filterMap fun e => f e.2).Nodup := by
  induction log with
  | nil => exact List.nodup_nil
  | cons e log ih =>
      obtain ⟨i, a⟩ := e
      have hcons : ∀ j, own j ((i, a) :: log) = if i = j then a :: own j log else own j log := by
        intro j
        by_cases hj : i = j <;> simp [own, hj]
      have htail : (log.filterMap fun e => f e.2).Nodup := by
        apply ih
        · intro j
          have hj := hown j
          rw [hcons] at hj
          split at hj
          · exact (List.Sublist.filterMap f (List.sublist_cons_self a _)).nodup hj
          · exact hj
        · exact fun i j a b x ha hb =>
            hapart i j a b x (List.mem_cons_of_mem _ ha) (List.mem_cons_of_mem _ hb)
      cases hf : f a with
      | none => rwa [List.filterMap_cons_none (f := fun e : I × Action E => f e.2) hf]
      | some x =>
          rw [List.filterMap_cons_some (f := fun e : I × Action E => f e.2) hf, List.nodup_cons]
          refine ⟨?_, htail⟩
          intro hx
          obtain ⟨⟨j, b⟩, hb, hfb⟩ := List.mem_filterMap.mp hx
          -- the same value twice comes from one party, which gave it once
          obtain rfl := hapart i j a b x List.mem_cons_self (List.mem_cons_of_mem _ hb) hf hfb
          have hi := hown i
          rw [hcons, if_pos rfl, List.filterMap_cons_some hf, List.nodup_cons] at hi
          exact hi.1 (List.mem_filterMap.mpr ⟨b, mem_own.mpr hb, hfb⟩)

theorem own_snoc_self {I : Type} [DecidableEq I] (i : I) (l : List (I × Action E)) (a : Action E) :
    own i (l ++ [(i, a)]) = own i l ++ [a] := by
  simp [own]

theorem own_snoc_of_ne {I : Type} [DecidableEq I] {i j : I} (h : j ≠ i) (l : List (I × Action E))
    (a : Action E) : own i (l ++ [(j, a)]) = own i l := by
  simp [own, h]

/-- The entries of one party, and the others. -/
theorem length_eq_own_add {I : Type} [DecidableEq I] (i : I) (log : List (I × Action E)) :
    log.length = (own i log).length + (log.filter fun x => !decide (x.1 = i)).length := by
  induction log with
  | nil => rfl
  | cons x log ih =>
      by_cases hx : x.1 = i <;> simp [own, hx] at ih ⊢ <;> omega

/-- A log of few parties, none of which has done much, is short. -/
theorem length_le_of_own {I : Type} [DecidableEq I] {b : Nat} (S : List I) {log : List (I × Action E)}
    (hS : ∀ x ∈ log, x.1 ∈ S) (hb : ∀ i, (own i log).length ≤ b) : log.length ≤ S.length * b := by
  induction S generalizing log with
  | nil =>
      have hnil : log = [] := List.eq_nil_iff_forall_not_mem.mpr fun x hx => List.not_mem_nil (hS x hx)
      rw [hnil]
      exact Nat.zero_le _
  | cons i S ih =>
      have hothers : (log.filter fun x => !decide (x.1 = i)).length ≤ S.length * b := by
        refine ih (fun x hx => ?_) fun j => ?_
        · have hmem := List.mem_filter.mp hx
          exact (List.mem_cons.mp (hS x hmem.1)).resolve_left (by simpa using hmem.2)
        · exact Nat.le_trans (List.Sublist.length_le (List.Sublist.filterMap _ List.filter_sublist)) (hb j)
      have hfirst := hb i
      rw [length_eq_own_add i log, List.length_cons, Nat.succ_mul]
      omega

/-- Every entry of a log is one `R` allows after the entries before it. -/
def Admits {X : Type} (R : List X → X → Prop) : (past log : List X) → Prop
  | _, [] => True
  | past, x :: log => R past x ∧ Admits R (past ++ [x]) log

theorem Admits.at {X : Type} {R : List X → X → Prop} {past before later : List X} {x : X}
    (h : Admits R past (before ++ x :: later)) : R (past ++ before) x := by
  induction before generalizing past with
  | nil => simpa using h.1
  | cons y before ih => simpa using ih h.2

theorem admits_append {X : Type} {R : List X → X → Prop} {past l m : List X} :
    Admits R past (l ++ m) ↔ Admits R past l ∧ Admits R (past ++ l) m := by
  induction l generalizing past with
  | nil => simp [Admits]
  | cons x l ih =>
      rw [List.cons_append, Admits, Admits, ih, and_assoc, List.append_assoc]
      rfl

theorem admits_of_forall {X : Type} {R : List X → X → Prop} {past log : List X}
    (h : ∀ x ∈ log, ∀ past, R past x) : Admits R past log := by
  induction log generalizing past with
  | nil => trivial
  | cons x log ih => exact ⟨h x List.mem_cons_self past, ih fun y hy => h y (List.mem_cons_of_mem _ hy)⟩

/-- The world of one party whose answers are those `A` allows after its own trace. -/
def answered (A : List (Action E) → Action E → Prop) : World E (List (Action E)) :=
  fun o tr r tr' => A tr ⟨o, r⟩ ∧ tr' = tr ++ [⟨o, r⟩]

/-- What holds of a program in such a world holds along every path whose answers are allowed. -/
theorem Follows.safe_answered {A : List (Action E) → Action E → Prop} {C : List (Action E) → Prop}
    {Q : Except ε α → List (Action E) → Prop} {p q : Prog E ε α} {tr : List (Action E)}
    (h : Follows p tr q) {past : List (Action E)} (hs : Safe (answered A) C Q p past)
    (hA : Admits A past tr) : Safe (answered A) C Q q (past ++ tr) := by
  induction h generalizing past with
  | nil p => rwa [List.append_nil]
  | @cons o k r tr q h ih =>
      have hnext : Safe (answered A) C Q (k r) (past ++ [⟨o, r⟩]) := hs.2 r _ ⟨hA.1, rfl⟩
      have := ih hnext hA.2
      rwa [List.append_assoc] at this

theorem Admits.mono {X : Type} {R R' : List X → X → Prop} (hR : ∀ past x, R past x → R' past x)
    {past log : List X} (h : Admits R past log) : Admits R' past log := by
  induction log generalizing past with
  | nil => trivial
  | cons x log ih => exact ⟨hR _ _ h.1, ih h.2⟩

/-- The logs of a family of programs, in an environment that allows some answers: `Run ps R log qs`
says that the programs `ps`, interleaved as in `log`, become `qs`. -/
structure Run {I : Type} [DecidableEq I] {β : I → Type} (ps : (i : I) → Prog E ε (β i))
    (R : List (I × Action E) → I × Action E → Prop) (log : List (I × Action E))
    (qs : (i : I) → Prog E ε (β i)) : Prop where
  follows : ∀ i, Follows (ps i) (own i log) (qs i)
  admits : Admits R [] log

section Run

variable {I : Type} [DecidableEq I] {β : I → Type} {ps qs : (i : I) → Prog E ε (β i)}
  {R : List (I × Action E) → I × Action E → Prop} {log : List (I × Action E)}

theorem Run.allowed (h : Run ps R log qs) {before later : List (I × Action E)} {x : I × Action E}
    (heq : log = before ++ x :: later) : R before x := by
  have hadm := h.admits
  rw [heq] at hadm
  exact hadm.at

/-- Whatever was answered was allowed after an earlier part of the log. -/
theorem Run.allowed_of_mem (h : Run ps R log qs) {x : I × Action E} (hx : x ∈ log) :
    ∃ before later, log = before ++ x :: later ∧ R before x := by
  obtain ⟨before, later, heq⟩ := List.append_of_mem hx
  exact ⟨before, later, heq, h.allowed heq⟩

/-- The beginning of a run is a run. -/
theorem Run.take {later : List (I × Action E)} (h : Run ps R (log ++ later) qs) :
    ∃ qs', Run ps R log qs' := by
  have hmid : ∀ i, ∃ q, Follows (ps i) (own i log) q := by
    intro i
    have hf := h.follows i
    rw [own_append] at hf
    obtain ⟨q, hq, -⟩ := hf.split
    exact ⟨q, hq⟩
  obtain ⟨qs', hqs'⟩ := Classical.axiomOfChoice hmid
  exact ⟨qs', hqs', (admits_append.mp h.admits).1⟩

/-- Taking the last action of a run back. -/
theorem Run.snoc {i : I} {a : Action E} (h : Run ps R (log ++ [(i, a)]) qs) :
    ∃ qs', Run ps R log qs' ∧ R log (i, a) ∧ ∃ k, qs' i = .step a.op k ∧ k a.res = qs i := by
  have hadm := admits_append.mp h.admits
  have hfollows := h.follows i
  rw [own_snoc_self] at hfollows
  obtain ⟨k, hk, hres⟩ := Follows.snoc (o := a.op) (r := a.res) hfollows
  refine ⟨Function.update qs i (.step a.op k), ⟨?_, hadm.1⟩, ?_, k, Function.update_self _ _ _, hres⟩
  · intro j
    by_cases hj : j = i
    · subst hj
      rw [Function.update_self]
      exact hk
    · have := h.follows j
      rwa [own_snoc_of_ne (Ne.symm hj), ← Function.update_of_ne hj (.step a.op k) qs] at this
  · simpa using hadm.2.1

/-- … and adding one. -/
theorem Run.extend (h : Run ps R log qs) {i : I} {o : E.Op} {k : E.Res o → Prog E ε (β i)}
    (hi : qs i = .step o k) {r : E.Res o} (hR : R log (i, ⟨o, r⟩)) :
    Run ps R (log ++ [(i, ⟨o, r⟩)]) (Function.update qs i (k r)) := by
  refine ⟨?_, admits_append.mpr ⟨h.admits, by simpa using hR, trivial⟩⟩
  intro j
  by_cases hj : j = i
  · subst hj
    rw [own_snoc_self, Function.update_self]
    refine (h.follows j).append ?_
    rw [hi]
    exact .cons (.nil _)
  · rw [own_snoc_of_ne (Ne.symm hj), Function.update_of_ne hj]
    exact h.follows j

/-- One party goes on alone. -/
theorem Run.alone (h : Run ps R log qs) {i : I} {tr : List (Action E)} {q : Prog E ε (β i)}
    (hf : Follows (qs i) tr q) (hadm : Admits R log (tr.map fun a => (i, a))) :
    Run ps R (log ++ tr.map fun a => (i, a)) (Function.update qs i q) := by
  refine ⟨?_, admits_append.mpr ⟨h.admits, hadm⟩⟩
  intro j
  rw [own_append]
  by_cases hj : j = i
  · subst hj
    rw [own_map_self, Function.update_self]
    exact (h.follows j).append hf
  · rw [own_map_of_ne (Ne.symm hj), List.append_nil, Function.update_of_ne hj]
    exact h.follows j

/-- What the environment promises a party, whatever the others do. -/
theorem Run.admits_own (h : Run ps R log qs) (i : I) {A : List (Action E) → Action E → Prop}
    (hA : ∀ log a, R log (i, a) → A (own i log) a) : Admits A [] (own i log) := by
  suffices hgen : ∀ past log, Admits R past log → Admits A (own i past) (own i log) from
    hgen [] log h.admits
  intro past log hadm
  induction log generalizing past with
  | nil => trivial
  | cons x log ih =>
      obtain ⟨j, a⟩ := x
      have hrest := ih _ hadm.2
      by_cases hj : j = i
      · subst hj
        rw [own_snoc_self] at hrest
        rw [show own j ((j, a) :: log) = a :: own j log by simp [own]]
        exact ⟨hA past a hadm.1, hrest⟩
      · rw [own_snoc_of_ne hj] at hrest
        rwa [show own i ((j, a) :: log) = own i log by simp [own, hj]]

/-- One party of a run, reasoned about alone. -/
theorem Run.safe (h : Run ps R log qs) (i : I) {C : List (Action E) → Prop}
    {Q : Except ε (β i) → List (Action E) → Prop} (hs : Safe traced C Q (ps i) []) :
    Safe traced C Q (qs i) (own i log) :=
  (h.follows i).safe hs

end Run

end Prog
end Interaction
