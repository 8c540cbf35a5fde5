import B2p.Lib.Interleave
import Mathlib.Data.List.Infix
import Mathlib.Data.List.Induction

/-!
# Two programs over a pair of queues

Two programs send each other messages and perform local operations; the queues are reliable and
first in, first out, and each side's local operations are answered by a handler of its own. Such a
pair is *determinate*: the order in which the two take turns does not matter. If one complete run
exists, every run performs a part of it on either side, and can be continued until it is complete.

A *lossy* channel may also refuse any message, in either direction. As long as a program gives up at
the first refusal (`FailsFast`), it has done a part of what it does over the reliable one.

* `Comm`, `Fifo` — the operations, and the answers the channel and the handlers give.
* `AtRest`, `tracks` — every run tracks the complete one.
* `Run.progress` — an incomplete run over the reliable channel can be continued.
* `Does`, `Reached.run` — a complete run is built from what each end does alone, part by part.
* `Tracks.holds` — what holds at every message of the complete run holds wherever a run is cut off.
-/

namespace Interaction

/-- The two ends. -/
inductive Side where
  | left
  | right
  deriving DecidableEq

def Side.peer : Side → Side
  | .left => .right
  | .right => .left

/-- Operations of a program at one end: messages `M`, and local operations of `L`. -/
inductive Comm (M : Type) (L : Effects) where
  | send (m : M)
  | recv
  | loc (o : L.Op)

@[reducible] def Comm.Res (ε : Type) {M : Type} {L : Effects} : Comm M L → Type
  | .send _ => Except ε Unit
  | .recv => Except ε M
  | .loc o => L.Res o

abbrev commEffects (M ε : Type) (L : Effects) : Effects := ⟨Comm M L, Comm.Res ε⟩

namespace Prog

variable {M ε : Type} {L : Effects} {α : Type}

abbrev CommAction (M ε : Type) (L : Effects) := Action (commEffects M ε L)

/-- The messages handed to the channel. -/
def sent (tr : List (CommAction M ε L)) : List M :=
  tr.filterMap fun
    | ⟨.send m, .ok _⟩ => some m
    | _ => none

/-- The messages taken from the channel. -/
def got (tr : List (CommAction M ε L)) : List M :=
  tr.filterMap fun
    | ⟨.recv, .ok m⟩ => some m
    | _ => none

/-- The local state after a trace. -/
def after {σ : Type} (h : Handler L σ) (s : σ) (tr : List (CommAction M ε L)) : σ :=
  tr.foldl (fun s a => match a with
    | ⟨.loc o, _⟩ => (h o s).2
    | _ => s) s

/-- The answers of a channel between handlers `h` in states `s`. Only a lossy one refuses. -/
def Fifo (lossy : Prop) {σ : Side → Type} (h : (p : Side) → Handler L (σ p)) (s : (p : Side) → σ p)
    (log : List (Side × CommAction M ε L)) : Side × CommAction M ε L → Prop
  | (_, ⟨.send _, .ok _⟩) => True
  | (_, ⟨.send _, .error _⟩) => lossy
  | (p, ⟨.recv, .ok m⟩) => (sent (own p.peer log))[(got (own p log)).length]? = some m
  | (_, ⟨.recv, .error _⟩) => lossy
  | (p, ⟨.loc o, r⟩) => r = (h p o (after (h p) (s p) (own p log))).1

/-- A refused message. -/
def Lost : CommAction M ε L → Prop
  | ⟨.send _, .error _⟩ => True
  | ⟨.recv, .error _⟩ => True
  | _ => False

/-- The program gives up when a message is refused. -/
def FailsFast : Prog (commEffects M ε L) ε α → Prop
  | .ret _ => True
  | .fail _ => True
  | .step (.send _) k => (∀ e, ∃ e', k (.error e) = .fail e') ∧ ∀ r, FailsFast (k r)
  | .step .recv k => (∀ e, ∃ e', k (.error e) = .fail e') ∧ ∀ r, FailsFast (k r)
  | .step (.loc _) k => ∀ r, FailsFast (k r)

/-- The program has ended. -/
def IsLeaf : Prog (commEffects M ε L) ε α → Prop
  | .step _ _ => False
  | _ => True

/-- There is nothing left to do over the reliable channel: a program that has not ended waits for a message,
and has read all there are. -/
def AtRest {β : Side → Type} (log : List (Side × CommAction M ε L))
    (qs : (p : Side) → Prog (commEffects M ε L) ε (β p)) : Prop :=
  ∀ p, IsLeaf (qs p) ∨ (∃ k, qs p = .step .recv k) ∧ got (own p log) = sent (own p.peer log)

/-- A trace that is a part of `full`, up to a last action that was refused. -/
def Tracks (tr full : List (CommAction M ε L)) : Prop :=
  ∃ init last, tr = init ++ last ∧ init <+: full ∧ (last = [] ∨ ∃ a, last = [a] ∧ Lost a)

section lists

theorem sent_append (l m : List (CommAction M ε L)) : sent (l ++ m) = sent l ++ sent m :=
  List.filterMap_append ..

theorem sent_mono {l m : List (CommAction M ε L)} (h : l <+: m) : sent l <+: sent m := by
  obtain ⟨t, rfl⟩ := h
  rw [sent_append]
  exact List.prefix_append _ _

theorem got_append (l m : List (CommAction M ε L)) : got (l ++ m) = got l ++ got m :=
  List.filterMap_append ..

theorem after_append {σ : Type} (h : Handler L σ) (s : σ) (l m : List (CommAction M ε L)) :
    after h s (l ++ m) = after h (after h s l) m :=
  List.foldl_append ..

theorem Lost.silent {a : CommAction M ε L} (h : Lost a) : sent [a] = [] ∧ got [a] = [] := by
  obtain ⟨o, r⟩ := a
  cases o with
  | send m =>
      cases r with
      | error e => exact ⟨rfl, rfl⟩
      | ok u => cases h
  | recv =>
      cases r with
      | error e => exact ⟨rfl, rfl⟩
      | ok m => cases h
  | loc o => cases h

/-- A trace that tracks another has handed over a part of its messages. -/
theorem Tracks.sent_mono {tr full : List (CommAction M ε L)} (h : Tracks tr full) :
    sent tr <+: sent full := by
  obtain ⟨init, last, rfl, hinit, rfl | ⟨a, rfl, ha⟩⟩ := h
  · rw [List.append_nil]
    exact Prog.sent_mono hinit
  · rw [sent_append, ha.silent.1, List.append_nil]
    exact Prog.sent_mono hinit

theorem prefix_of_prefix_snoc {X : Type} {l m : List X} (h : l <+: m) (hne : l ≠ m) :
    ∃ x t, m = l ++ x :: t := by
  obtain ⟨t, rfl⟩ := h
  cases t with
  | nil => exact absurd (List.append_nil l).symm hne
  | cons x t => exact ⟨x, t, rfl⟩

theorem getElem?_of_prefix {X : Type} {l m : List X} (h : l <+: m) {n : Nat} {x : X}
    (hx : l[n]? = some x) : m[n]? = some x := by
  rw [List.getElem?_eq_some_iff] at hx ⊢
  obtain ⟨hn, rfl⟩ := hx
  exact ⟨Nat.lt_of_lt_of_le hn h.length_le, (h.getElem hn).symm⟩

/-- An action of one party, found in the log. -/
theorem own_split {i : Side} {log : List (Side × CommAction M ε L)} {l t : List (CommAction M ε L)}
    {a : CommAction M ε L} (h : own i log = l ++ a :: t) :
    ∃ b c, log = b ++ (i, a) :: c ∧ own i b = l := by
  induction log generalizing l with
  | nil => simp [own] at h
  | cons x log ih =>
      obtain ⟨j, a'⟩ := x
      by_cases hj : j = i
      · subst hj
        have hcons : own j ((j, a') :: log) = a' :: own j log := by simp [own]
        rw [hcons] at h
        cases l with
        | nil =>
            rw [List.nil_append, List.cons.injEq] at h
            exact ⟨[], log, by rw [h.1]; rfl, rfl⟩
        | cons y l =>
            rw [List.cons_append, List.cons.injEq] at h
            obtain ⟨b, c, rfl, hb⟩ := ih h.2
            refine ⟨(j, a') :: b, c, rfl, ?_⟩
            rw [← h.1, ← hb]
            simp [own]
      -- an action of the other end
      · have hskip : ∀ b, own i ((j, a') :: b) = own i b := fun b => by simp [own, hj]
        rw [hskip] at h
        obtain ⟨b, c, rfl, hb⟩ := ih h
        exact ⟨(j, a') :: b, c, rfl, (hskip b).trans hb⟩

end lists

section determinacy

variable {β : Side → Type} {σ : Side → Type} {h : (p : Side) → Handler L (σ p)}
  {s : (p : Side) → σ p} {ps qs qs₀ : (p : Side) → Prog (commEffects M ε L) ε (β p)}
  {log log₀ : List (Side × CommAction M ε L)} {lossy : Prop}

theorem FailsFast.follows {p q : Prog (commEffects M ε L) ε α} {tr : List (CommAction M ε L)}
    (hp : FailsFast p) (hf : Follows p tr q) : FailsFast q := by
  induction hf with
  | nil p => exact hp
  | @cons o k r tr q hf ih =>
      refine ih ?_
      cases o with
      | send m => exact hp.2 r
      | recv => exact hp.2 r
      | loc o => exact hp r

theorem FailsFast.bind {p : Prog (commEffects M ε L) ε α} {γ : Type}
    {f : α → Prog (commEffects M ε L) ε γ} (hp : FailsFast p) (hf : ∀ a, FailsFast (f a)) :
    FailsFast (p >>= f) := by
  induction p with
  | ret a => exact hf a
  | fail e => trivial
  | step o k ih =>
      cases o with
      | send m =>
          refine ⟨fun e => ?_, fun r => ih r (hp.2 r)⟩
          obtain ⟨e', he⟩ := hp.1 e
          exact ⟨e', congrArg (·.bind f) he⟩
      | recv =>
          refine ⟨fun e => ?_, fun r => ih r (hp.2 r)⟩
          obtain ⟨e', he⟩ := hp.1 e
          exact ⟨e', congrArg (·.bind f) he⟩
      | loc o => exact fun r => ih r (hp r)

/-- A program that fails fast ends with the first message that is refused. -/
theorem Follows.isLeaf_of_lost {p q : Prog (commEffects M ε L) ε α}
    {tr : List (CommAction M ε L)} {a : CommAction M ε L} (hp : FailsFast p)
    (hf : Follows p (tr ++ [a]) q) (ha : Lost a) : IsLeaf q := by
  obtain ⟨o, r⟩ := a
  obtain ⟨k, hk, rfl⟩ := hf.snoc
  have hlast := hp.follows hk
  cases o with
  | send m =>
      cases r with
      | error e =>
          obtain ⟨e', he⟩ := hlast.1 e
          rw [he]
          trivial
      | ok u => cases ha
  | recv =>
      cases r with
      | error e =>
          obtain ⟨e', he⟩ := hlast.1 e
          rw [he]
          trivial
      | ok m => cases ha
  | loc o => cases ha

/-- A lossy channel may refuse nothing. -/
theorem Run.of_reliable (hrun : Run ps (Fifo False h s) log qs) : Run ps (Fifo True h s) log qs := by
  refine ⟨hrun.follows, hrun.admits.mono ?_⟩
  rintro past ⟨i, o, r⟩ hR
  cases o with
  | send m => cases r <;> trivial
  | recv =>
      cases r with
      | ok m => exact hR
      | error e => trivial
  | loc o => exact hR

/-- Two answers to the same operation, one of them over the reliable channel, agree: each side has
been given a part of the same messages. -/
theorem Fifo.unique {b : List (Side × CommAction M ε L)} {i : Side} {o : Comm M L}
    {r r' : Comm.Res ε o} (hR : Fifo lossy h s log (i, ⟨o, r⟩)) (hlost : ¬ Lost (⟨o, r⟩ : CommAction M ε L))
    (hR' : Fifo False h s b (i, ⟨o, r'⟩)) (hown : own i b = own i log)
    {ms : List M} (hms : sent (own i.peer log) <+: ms) (hms' : sent (own i.peer b) <+: ms) :
    r = r' := by
  cases o with
  | send m =>
      cases r with
      | error e => exact absurd trivial hlost
      | ok u =>
          cases r' with
          | error e => exact hR'.elim
          | ok u' => rfl
  | recv =>
      cases r with
      | error e => exact absurd trivial hlost
      | ok m =>
          cases r' with
          | error e => exact hR'.elim
          | ok m' =>
              have hm := getElem?_of_prefix hms hR
              have hm' := getElem?_of_prefix hms' hR'
              rw [hown, hm, Option.some.injEq] at hm'
              rw [hm']
  | loc o =>
      have hloc : r = _ := hR
      have hloc' : r' = _ := hR'
      rw [hown] at hloc'
      rw [hloc, hloc']

theorem AtRest.of_leaf (hleaf : ∀ p, IsLeaf (qs p)) : AtRest log qs := fun p => .inl (hleaf p)

/-- **Every run tracks the complete one**, on either side. It is complete as soon as it is at rest. -/
theorem tracks (h₀ : Run ps (Fifo False h s) log₀ qs₀) (hrest : AtRest log₀ qs₀)
    (hff : ∀ p, FailsFast (ps p)) (h₁ : Run ps (Fifo lossy h s) log qs) (p : Side) :
    Tracks (own p log) (own p log₀) := by
  induction log using List.reverseRecOn generalizing qs p with
  | nil => exact ⟨[], [], rfl, List.nil_prefix, .inl rfl⟩
  | append_singleton log x ih =>
      obtain ⟨i, a⟩ := x
      obtain ⟨qs', hrun, hR, k, hk, -⟩ := h₁.snoc
      by_cases hp : i = p
      swap
      · rw [own_snoc_of_ne hp]
        exact ih hrun p
      subst hp
      rw [own_snoc_self]
      obtain ⟨init, last, heq, hinit, hlast⟩ := ih hrun i
      rcases hlast with rfl | ⟨b, rfl, hb⟩
      swap
      · -- nothing follows a refused message
        have hend := (heq ▸ hrun.follows i).isLeaf_of_lost (hff i) hb
        rw [hk] at hend
        exact hend.elim
      rw [List.append_nil] at heq
      subst heq
      by_cases ha : Lost a
      · exact ⟨own i log, [a], rfl, hinit, .inr ⟨a, rfl, ha⟩⟩
      have hne : own i log ≠ own i log₀ := by
        intro he
        have hsame := (hrun.follows i).functional (he ▸ h₀.follows i)
        rw [hsame] at hk
        rcases hrest i with hend | ⟨⟨k', hwait⟩, hread⟩
        · rw [hk] at hend
          exact hend
        · -- it waits, and the message it is given here was never sent
          obtain ⟨o, r⟩ := a
          rw [hwait] at hk
          cases hk
          cases r with
          | error e => exact ha trivial
          | ok m =>
              have hm := getElem?_of_prefix (ih hrun i.peer).sent_mono hR
              rw [he, ← hread, List.getElem?_eq_none (Nat.le_refl _)] at hm
              cases hm
      obtain ⟨a', t, hfull⟩ := prefix_of_prefix_snoc hinit hne
      have hnext : a' = a := by
        obtain ⟨m, hm, hrest⟩ := (hfull ▸ h₀.follows i).split
        have hm' := hm.functional (hrun.follows i)
        rw [hm', hk] at hrest
        obtain ⟨o, r⟩ := a
        obtain ⟨o', r'⟩ := a'
        cases hrest with
        | @cons _ _ r' _ _ _ =>
            obtain ⟨b, c, rfl, hown⟩ := own_split hfull
            have hpre : sent (own i.peer b) <+: sent (own i.peer (b ++ (i, ⟨o, r'⟩) :: c)) := by
              rw [own_append]
              exact sent_mono (List.prefix_append _ _)
            exact congrArg _ (Fifo.unique hR ha (h₀.allowed rfl) hown
              (ih hrun i.peer).sent_mono hpre).symm
      refine ⟨own i log ++ [a], [], (List.append_nil _).symm, ⟨t, ?_⟩, .inl rfl⟩
      rw [hfull, hnext, List.append_assoc]
      rfl

/-- A program with something left to do is not at its end. -/
theorem Follows.not_isLeaf {p q : Prog (commEffects M ε L) ε α} {a : CommAction M ε L}
    {tr : List (CommAction M ε L)} (hf : Follows p (a :: tr) q) : ¬ IsLeaf p := by
  cases hf
  exact id

section reliable

variable (h₀ : Run ps (Fifo False h s) log₀ qs₀) (hleaf : ∀ p, IsLeaf (qs₀ p))
  (hff : ∀ p, FailsFast (ps p)) (h₁ : Run ps (Fifo False h s) log qs)

include h₀ hleaf hff h₁

/-- Over the reliable channel nothing is refused, so a run is a part of the complete one. -/
theorem own_initial (p : Side) : own p log <+: own p log₀ := by
  obtain ⟨init, last, heq, hinit, rfl | ⟨a, rfl, ha⟩⟩ := tracks h₀ (.of_leaf hleaf) hff h₁ p
  · rw [heq, List.append_nil]
    exact hinit
  · have hmem : (p, a) ∈ log := mem_own.mp (by rw [heq]; simp)
    obtain ⟨b, c, -, hR⟩ := h₁.allowed_of_mem hmem
    obtain ⟨o, r⟩ := a
    cases o with
    | send m =>
        cases r with
        | error e => exact hR.elim
        | ok u => cases ha
    | recv =>
        cases r with
        | error e => exact hR.elim
        | ok m => cases ha
    | loc o => cases ha

/-- A side that has ended has done all it does in the complete run. -/
theorem own_eq_of_isLeaf {p : Side} (hp : IsLeaf (qs p)) : own p log = own p log₀ := by
  by_contra hne
  obtain ⟨a, t, hfull⟩ := prefix_of_prefix_snoc (own_initial h₀ hleaf hff h₁ p) hne
  obtain ⟨m, hm, hrest⟩ := (hfull ▸ h₀.follows p).split
  rw [hm.functional (h₁.follows p)] at hrest
  exact hrest.not_isLeaf hp

theorem eq_of_isLeaf {p : Side} (hp : IsLeaf (qs p)) : qs p = qs₀ p :=
  (own_eq_of_isLeaf h₀ hleaf hff h₁ hp ▸ h₁.follows p).functional (h₀.follows p)

/-- The first action of the complete run that has not been performed yet. -/
theorem exists_next {b c : List (Side × CommAction M ε L)} (hsplit : log₀ = b ++ c)
    (hb : ∀ p, own p b <+: own p log) :
    (∀ p, own p log = own p log₀) ∨
      ∃ b i a c, log₀ = b ++ (i, a) :: c ∧ (∀ p, own p b <+: own p log) ∧ own i b = own i log := by
  induction c generalizing b with
  | nil =>
      left
      intro p
      rw [List.append_nil] at hsplit
      subst hsplit
      exact (own_initial h₀ hleaf hff h₁ p).eq_of_length_le (hb p).length_le
  | cons x c ih =>
      obtain ⟨i, a⟩ := x
      -- step along the complete run as long as the other one has the action too
      by_cases hmore : own i b ++ [a] <+: own i log
      · refine ih (b := b ++ [(i, a)]) (by rw [hsplit, List.append_assoc]; rfl) ?_
        intro p
        by_cases hp : i = p
        · subst hp
          rwa [own_snoc_self]
        · rw [own_snoc_of_ne hp]
          exact hb p
      · right
        refine ⟨b, i, a, c, hsplit, hb, ?_⟩
        obtain ⟨t, ht⟩ := hb i
        have hpre := own_initial h₀ hleaf hff h₁ i
        have hown : own i log₀ = own i b ++ (a :: own i c) := by
          rw [hsplit, own_append]
          simp [own]
        rw [hown, ← ht, List.prefix_append_right_inj] at hpre
        cases t with
        | nil => rw [← ht, List.append_nil]
        | cons y t =>
            rw [List.cons_prefix_cons] at hpre
            refine absurd ⟨t, ?_⟩ hmore
            rw [← ht, hpre.1, List.append_assoc]
            rfl

/-- **A run over the reliable channel that has not ended on both sides can be continued.** -/
theorem Run.progress (hnot : ∃ p, ¬ IsLeaf (qs p)) :
    ∃ x qs', Run ps (Fifo False h s) (log ++ [x]) qs' := by
  -- the first action of the complete run that is still to come
  rcases exists_next h₀ hleaf hff h₁ (b := []) rfl (fun p => List.nil_prefix) with hall | hnext
  · obtain ⟨p, hp⟩ := hnot
    have hsame := (hall p ▸ h₁.follows p).functional (h₀.follows p)
    exact absurd (hsame ▸ hleaf p) hp
  obtain ⟨b, i, ⟨o, r⟩, c, hsplit, hb, hown⟩ := hnext
  have hR := h₀.allowed hsplit
  obtain ⟨k, hk⟩ : ∃ k, qs i = .step o k := by
    have hfull := h₀.follows i
    rw [hsplit, own_append, show own i ((i, ⟨o, r⟩) :: c) = ⟨o, r⟩ :: own i c by simp [own]] at hfull
    obtain ⟨m, hm, hrest⟩ := hfull.split
    rw [hown] at hm
    rw [hm.functional (h₁.follows i)] at hrest
    generalize qs i = q at hrest
    cases hrest
    exact ⟨_, rfl⟩
  refine ⟨(i, ⟨o, r⟩), _, h₁.extend hk ?_⟩
  cases o with
  | send m =>
      cases r with
      | error e => exact hR.elim
      | ok u => trivial
  | recv =>
      cases r with
      | error e => exact hR.elim
      | ok m =>
          show (sent (own i.peer log))[(got (own i log)).length]? = some m
          rw [← hown]
          exact getElem?_of_prefix (sent_mono (hb i.peer)) hR
  | loc o =>
      show r = _
      rw [← hown]
      exact hR

/-- No run is longer than the complete one. -/
theorem length_le : log.length ≤ log₀.length := by
  have hsum : ∀ l : List (Side × CommAction M ε L),
      l.length = (own .left l).length + (own .right l).length := by
    intro l
    induction l with
    | nil => rfl
    | cons x l ih =>
        obtain ⟨i, a⟩ := x
        cases i <;> simp [own] at ih ⊢ <;> omega
  rw [hsum log, hsum log₀]
  exact Nat.add_le_add (own_initial h₀ hleaf hff h₁ .left).length_le
    (own_initial h₀ hleaf hff h₁ .right).length_le

end reliable

end determinacy

/-! ## Building a complete run

A program is run at its end as long as the messages it needs have been sent. -/

/-- One end alone: given the messages `ms`, all of which it takes, and with none of its own refused,
the program `p` performs `tr` and then is `q`. -/
inductive Does {σ : Type} (h : Handler L σ) : σ → List M → Prog (commEffects M ε L) ε α →
    List (CommAction M ε L) → Prog (commEffects M ε L) ε α → σ → Prop
  | nil (s : σ) (p : Prog (commEffects M ε L) ε α) : Does h s [] p [] p s
  | send {s s' : σ} {ms : List M} {m : M} {k : Except ε Unit → Prog (commEffects M ε L) ε α}
      {tr : List (CommAction M ε L)} {q : Prog (commEffects M ε L) ε α}
      (hk : Does h s ms (k (.ok ())) tr q s') :
      Does h s ms (.step (.send m) k) (⟨.send m, .ok ()⟩ :: tr) q s'
  | recv {s s' : σ} {ms : List M} {m : M} {k : Except ε M → Prog (commEffects M ε L) ε α}
      {tr : List (CommAction M ε L)} {q : Prog (commEffects M ε L) ε α}
      (hk : Does h s ms (k (.ok m)) tr q s') :
      Does h s (m :: ms) (.step .recv k) (⟨.recv, .ok m⟩ :: tr) q s'
  | loc {s s' : σ} {ms : List M} {o : L.Op} {k : L.Res o → Prog (commEffects M ε L) ε α}
      {tr : List (CommAction M ε L)} {q : Prog (commEffects M ε L) ε α}
      (hk : Does h (h o s).2 ms (k (h o s).1) tr q s') :
      Does h s ms (.step (.loc o) k) (⟨.loc o, (h o s).1⟩ :: tr) q s'

section Does

variable {σ : Type} {h : Handler L σ} {s s' s'' : σ} {ms ms' : List M}
  {p q q' : Prog (commEffects M ε L) ε α} {tr tr' : List (CommAction M ε L)}

theorem Does.append (hd : Does h s ms p tr q s') (hd' : Does h s' ms' q tr' q' s'') :
    Does h s (ms ++ ms') p (tr ++ tr') q' s'' := by
  induction hd with
  | nil s p => exact hd'
  | send _ ih => exact .send (ih hd')
  | recv _ ih => exact .recv (ih hd')
  | loc _ ih => exact .loc (ih hd')

theorem Does.bind {β : Type} {f : α → Prog (commEffects M ε L) ε β} (hd : Does h s ms p tr q s') :
    Does h s ms (p >>= f) tr (q >>= f) s' := by
  induction hd with
  | nil s p => exact .nil s _
  | send _ ih => exact .send ih
  | recv _ ih => exact .recv ih
  | loc _ ih => exact .loc ih

/-- Sequencing: what the first part returns, the second goes on with. -/
theorem Does.andThen {β : Type} {f : α → Prog (commEffects M ε L) ε β} {a : α}
    {q : Prog (commEffects M ε L) ε β} {w : List M} (hd : Does h s ms p tr (.ret a) s')
    (hd' : Does h s' w (f a) tr' q s'') : Does h s (ms ++ w) (p >>= f) (tr ++ tr') q s'' :=
  hd.bind.append hd'

theorem Does.got_eq (hd : Does h s ms p tr q s') : got tr = ms := by
  induction hd with
  | nil s p => rfl
  | send _ ih => exact ih
  | recv _ ih => exact congrArg (_ :: ·) ih
  | loc _ ih => exact ih

theorem Does.after_eq (hd : Does h s ms p tr q s') : after h s tr = s' := by
  induction hd with
  | nil s p => rfl
  | send _ ih => exact ih
  | recv _ ih => exact ih
  | loc _ ih => exact ih

end Does

section build

variable {β : Side → Type} {σ : Side → Type} {h : (p : Side) → Handler L (σ p)}
  {s : (p : Side) → σ p} {ps : (p : Side) → Prog (commEffects M ε L) ε (β p)}

/-- One value for each end. -/
def pick {β : Side → Type} (l : β .left) (r : β .right) : (p : Side) → β p
  | .left => l
  | .right => r

theorem update_pick_left {β : Side → Type} (l l' : β .left) (r : β .right) :
    Function.update (pick l r) .left l' = pick l' r := by
  funext p
  cases p <;> rfl

theorem update_pick_right {β : Side → Type} (l : β .left) (r r' : β .right) :
    Function.update (pick l r) .right r' = pick l r' := by
  funext p
  cases p <;> rfl

/-- A run over the reliable channel with given traces. -/
def Reached (ps : (p : Side) → Prog (commEffects M ε L) ε (β p))
    (h : (p : Side) → Handler L (σ p)) (s : (p : Side) → σ p)
    (trs : Side → List (CommAction M ε L)) (qs : (p : Side) → Prog (commEffects M ε L) ε (β p)) :
    Prop :=
  ∃ log, Run ps (Fifo False h s) log qs ∧ ∀ p, own p log = trs p

theorem Reached.init : Reached ps h s (pick [] []) ps :=
  ⟨[], ⟨fun _ => .nil _, trivial⟩, fun p => by cases p <;> rfl⟩

variable {trs : Side → List (CommAction M ε L)} {qs : (p : Side) → Prog (commEffects M ε L) ε (β p)}

theorem Reached.extend (hr : Reached ps h s trs qs) {i : Side} {o : Comm M L}
    {k : Comm.Res ε o → Prog (commEffects M ε L) ε (β i)} (hi : qs i = .step o k)
    {r : Comm.Res ε o} (hR : ∀ log, (∀ p, own p log = trs p) → Fifo False h s log (i, ⟨o, r⟩)) :
    Reached ps h s (Function.update trs i (trs i ++ [⟨o, r⟩])) (Function.update qs i (k r)) := by
  obtain ⟨log, hrun, hown⟩ := hr
  refine ⟨log ++ [(i, ⟨o, r⟩)], hrun.extend hi (hR log hown), ?_⟩
  intro p
  by_cases hp : p = i
  · subst hp
    rw [own_snoc_self, Function.update_self, hown]
  · rw [own_snoc_of_ne (Ne.symm hp), Function.update_of_ne hp, hown]

/-- **One end runs a part of its program**, given the messages that part needs. -/
theorem Reached.run (hr : Reached ps h s trs qs) {i : Side} {ms : List M}
    {tr : List (CommAction M ε L)} {q : Prog (commEffects M ε L) ε (β i)} {st : σ i}
    (hd : Does (h i) (after (h i) (s i) (trs i)) ms (qs i) tr q st)
    (hin : ms <+: (sent (trs i.peer)).drop (got (trs i)).length) :
    Reached ps h s (Function.update trs i (trs i ++ tr)) (Function.update qs i q) := by
  have hpeer : i.peer ≠ i := by cases i <;> decide
  generalize hp : qs i = p at hd
  generalize hst : after (h i) (s i) (trs i) = st₀ at hd
  -- one action, then the rest from the traces that result
  induction hd generalizing trs qs with
  | nil st₀ p =>
      rw [List.append_nil, Function.update_eq_self, ← hp, Function.update_eq_self]
      exact hr
  | @send st₀ _ ms m k tr q hk ih =>
      have hnext := hr.extend (r := .ok ()) hp (fun _ _ => trivial)
      have := ih hnext (by
        rw [Function.update_self, Function.update_of_ne hpeer, got_append]
        simpa [got] using hin) (Function.update_self _ _ _) (by
        rw [Function.update_self, after_append, hst]
        rfl)
      rwa [Function.update_self, Function.update_idem, Function.update_idem,
        List.append_assoc] at this
  | @recv st₀ _ ms m k tr q hk ih =>
      have hm : (sent (trs i.peer))[(got (trs i)).length]? = some m := by
        have h0 := getElem?_of_prefix hin (n := 0) (x := m) rfl
        rwa [List.getElem?_drop, Nat.add_zero] at h0
      have hnext := hr.extend (r := .ok m) hp (fun log hown => by
        show (sent (own i.peer log))[(got (own i log)).length]? = some m
        rw [hown, hown]
        exact hm)
      have := ih hnext (by
        obtain ⟨t, ht⟩ := hin
        have htail := congrArg List.tail ht
        rw [List.tail_drop] at htail
        refine ⟨t, ?_⟩
        rw [Function.update_self, Function.update_of_ne hpeer, got_append, List.length_append]
        exact htail) (Function.update_self _ _ _) (by
        rw [Function.update_self, after_append, hst]
        rfl)
      rwa [Function.update_self, Function.update_idem, Function.update_idem,
        List.append_assoc] at this
  | @loc st₀ _ ms o k tr q hk ih =>
      have hnext := hr.extend (r := (h i o st₀).1) hp (fun log hown => by
        show _ = (h i o (after (h i) (s i) (own i log))).1
        rw [hown, hst])
      have := ih hnext (by
        rw [Function.update_self, Function.update_of_ne hpeer, got_append]
        simpa [got] using hin) (Function.update_self _ _ _) (by
        rw [Function.update_self, after_append, hst]
        rfl)
      rwa [Function.update_self, Function.update_idem, Function.update_idem,
        List.append_assoc] at this

variable {l r : List (CommAction M ε L)} {pl : Prog (commEffects M ε L) ε (β .left)}
  {pr : Prog (commEffects M ε L) ε (β .right)} {ms : List M} {tr : List (CommAction M ε L)}

theorem Reached.left (hr : Reached ps h s (pick l r) (pick pl pr)) {st : σ .left}
    {q : Prog (commEffects M ε L) ε (β .left)}
    (hd : Does (h .left) (after (h .left) (s .left) l) ms pl tr q st)
    (hin : ms <+: (sent r).drop (got l).length) :
    Reached ps h s (pick (l ++ tr) r) (pick q pr) := by
  have hrun := hr.run (i := .left) hd hin
  rwa [update_pick_left, update_pick_left] at hrun

theorem Reached.right (hr : Reached ps h s (pick l r) (pick pl pr)) {st : σ .right}
    {q : Prog (commEffects M ε L) ε (β .right)}
    (hd : Does (h .right) (after (h .right) (s .right) r) ms pr tr q st)
    (hin : ms <+: (sent l).drop (got r).length) :
    Reached ps h s (pick l (r ++ tr)) (pick pl q) := by
  have hrun := hr.run (i := .right) hd hin
  rwa [update_pick_right, update_pick_right] at hrun

end build

/-! ## What holds at every message

A program that is cut off is cut off at a message. -/

/-- `C` holds of the local state whenever a message is sent or received. -/
def AtMessages {σ : Type} (h : Handler L σ) (C : σ → Prop) : σ → List (CommAction M ε L) → Prop
  | _, [] => True
  | s, ⟨.loc o, _⟩ :: tr => AtMessages h C (h o s).2 tr
  | s, ⟨.send _, _⟩ :: tr => C s ∧ AtMessages h C s tr
  | s, ⟨.recv, _⟩ :: tr => C s ∧ AtMessages h C s tr

section AtMessages

variable {σ : Type} {h : Handler L σ} {C : σ → Prop}

theorem atMessages_append {s : σ} {l m : List (CommAction M ε L)} :
    AtMessages h C s (l ++ m) ↔ AtMessages h C s l ∧ AtMessages h C (after h s l) m := by
  induction l generalizing s with
  | nil => exact (and_iff_right trivial).symm
  | cons a l ih =>
      obtain ⟨o, r⟩ := a
      cases o with
      | send m => exact (and_congr_right fun _ => ih).trans and_assoc.symm
      | recv => exact (and_congr_right fun _ => ih).trans and_assoc.symm
      | loc o => exact ih

/-- **Where a program that fails fast is cut off, `C` holds**, if it does at every message of the
complete run and at its end. -/
theorem Tracks.holds {p q : Prog (commEffects M ε L) ε α} {s : σ}
    {tr full : List (CommAction M ε L)} {q₀ : Prog (commEffects M ε L) ε α} (ht : Tracks tr full)
    (hfull : Follows p full q₀) (htr : Follows p tr q) (hend : IsLeaf q)
    (hat : AtMessages h C s full) (hlast : C (after h s full)) : C (after h s tr) := by
  obtain ⟨init, last, rfl, hinit, hl⟩ := ht
  -- at the end of the complete run, or at a message within it
  by_cases heq : init = full
  · rcases hl with rfl | ⟨a, rfl, ha⟩
    · rwa [List.append_nil, heq]
    · rw [after_append, heq]
      obtain ⟨o, r⟩ := a
      cases o with
      | send m => exact hlast
      | recv => exact hlast
      | loc o => cases ha
  · obtain ⟨a', t, rfl⟩ := prefix_of_prefix_snoc hinit heq
    obtain ⟨m, hm, hrest⟩ := hfull.split
    obtain ⟨m', hm', hlast'⟩ := htr.split
    obtain rfl := hm.functional hm'
    rcases hl with rfl | ⟨a, rfl, ha⟩
    · rw [hlast'.of_nil] at hrest
      exact absurd hend hrest.not_isLeaf
    · -- the refused message is the next one of the complete run
      have hhere := (atMessages_append.mp hat).2
      rw [after_append]
      obtain ⟨o, r⟩ := a
      cases hlast' with
      | cons _ =>
          cases hrest with
          | cons _ =>
              cases o with
              | send m => exact hhere.1
              | recv => exact hhere.1
              | loc o => cases ha

end AtMessages

end Prog
end Interaction
