import B2p.Lib.Duplex
import Mathlib.Logic.Equiv.Defs

/-!
# Programs in stages

Two ends run one program after another over the same pair of queues, and each stage knows only some of
the local operations there are. A complete run of a stage, on its own, is a part of a run of the whole,
wherever the two ends enter it with nothing left in the queues.

* `Inside` — the local operations of a stage, inside those of the whole; `within` — its program there.
* `Inside.Under` — a stage's handler, as the whole's handler has it.
* `Reached.stage` — a run of the stage carries the whole from where both enter it to where both leave it.
* `FailsFast.within`, `FailsFast.attempt_bind` — a program in stages still gives up at the first refusal.
* `Settles`, `Takes`, `Tracks.settled` — that the other end has read the last message tells that all was
  done.
* `Ahead`, `LastWord` — how far an end gets before it waits for the other, and where it waits no more.
-/

namespace Interaction

/-- The operations of `L` are some of those of `L'`. -/
structure Inside (L L' : Effects) where
  op : L.Op → L'.Op
  res : (o : L.Op) → L'.Res (op o) ≃ L.Res o

namespace Prog

variable {M ε : Type} {L L' : Effects} {α : Type}

/-- The same program, with its local operations among those of `L'`. -/
def within (ι : Inside L L') : Prog (commEffects M ε L) ε α → Prog (commEffects M ε L') ε α
  | .ret a => .ret a
  | .fail e => .fail e
  | .step (.send m) k => .step (.send m) fun r => (k r).within ι
  | .step .recv k => .step .recv fun r => (k r).within ι
  | .step (.loc o) k => .step (.loc (ι.op o)) fun r => (k (ι.res o r)).within ι

end Prog

namespace Inside

open Prog

variable {M ε : Type} {L L' : Effects} {α : Type} (ι : Inside L L')

/-- The same action there. -/
def action : CommAction M ε L → CommAction M ε L'
  | ⟨.send m, r⟩ => ⟨.send m, r⟩
  | ⟨.recv, r⟩ => ⟨.recv, r⟩
  | ⟨.loc o, r⟩ => ⟨.loc (ι.op o), (ι.res o).symm r⟩

@[simp] theorem sent_map_action (tr : List (CommAction M ε L)) : sent (tr.map ι.action) = sent tr := by
  rw [sent, sent, List.filterMap_map]
  congr 1
  funext a
  obtain ⟨o, r⟩ := a
  cases o with
  | send m => cases r <;> rfl
  | recv => rfl
  | loc o => rfl

@[simp] theorem got_map_action (tr : List (CommAction M ε L)) : got (tr.map ι.action) = got tr := by
  rw [got, got, List.filterMap_map]
  congr 1
  funext a
  obtain ⟨o, r⟩ := a
  cases o with
  | send m => rfl
  | recv => cases r <;> rfl
  | loc o => rfl

/-- The handler `h'` answers the operations of `L` as `h` does, on the part `π` of its state. -/
structure Under {σ σ' : Type} (h : Handler L σ) (h' : Handler L' σ') (π : σ' → σ) : Prop where
  res : ∀ o s, (h' (ι.op o) s).1 = (ι.res o).symm (h o (π s)).1
  state : ∀ o s, π (h' (ι.op o) s).2 = (h o (π s)).2

variable {ι}

theorem Under.after_map {σ σ' : Type} {h : Handler L σ} {h' : Handler L' σ'} {π : σ' → σ}
    (hu : ι.Under h h' π) (s : σ') (tr : List (CommAction M ε L)) :
    π (after h' s (tr.map ι.action)) = after h (π s) tr := by
  induction tr generalizing s with
  | nil => rfl
  | cons a tr ih =>
      obtain ⟨o, r⟩ := a
      cases o with
      | send m => exact ih s
      | recv => exact ih s
      | loc o =>
          refine (ih (h' (ι.op o) s).2).trans ?_
          rw [hu.state]
          rfl

theorem Under.atMessages_map {σ σ' : Type} {h : Handler L σ} {h' : Handler L' σ'} {π : σ' → σ}
    (hu : ι.Under h h' π) {C : σ → Prop} {s' : σ'} {tr : List (CommAction M ε L)}
    (hat : AtMessages h C (π s') tr) : AtMessages h' (fun s => C (π s)) s' (tr.map ι.action) := by
  induction tr generalizing s' with
  | nil => trivial
  | cons a tr ih =>
      obtain ⟨o, r⟩ := a
      cases o with
      | send m => exact ⟨hat.1, ih hat.2⟩
      | recv => exact ⟨hat.1, ih hat.2⟩
      | loc o =>
          have hat' : AtMessages h C (π (h' (ι.op o) s').2) tr := by
            rw [hu.state]
            exact hat
          exact ih hat'

end Inside

namespace Prog

variable {M ε : Type} {L L' : Effects} {α : Type} {ι : Inside L L'}

theorem FailsFast.within {p : Prog (commEffects M ε L) ε α} (hp : FailsFast p) :
    FailsFast (p.within ι) := by
  induction p with
  | ret a => trivial
  | fail e => trivial
  | step o k ih =>
      cases o with
      | send m =>
          refine ⟨fun e => ?_, fun r => ih r (hp.2 r)⟩
          obtain ⟨e', he⟩ := hp.1 e
          exact ⟨e', congrArg (Prog.within ι) he⟩
      | recv =>
          refine ⟨fun e => ?_, fun r => ih r (hp.2 r)⟩
          obtain ⟨e', he⟩ := hp.1 e
          exact ⟨e', congrArg (Prog.within ι) he⟩
      | loc o => exact fun r => ih _ (hp _)

/-- What is caught may be failed with again, under another name. -/
theorem FailsFast.attempt_bind {γ : Type} {p : Prog (commEffects M ε L) ε α}
    {f : Except ε α → Prog (commEffects M ε L) ε γ} (hp : FailsFast p)
    (hok : ∀ a, FailsFast (f (.ok a))) (herr : ∀ e, ∃ e', f (.error e) = .fail e') :
    FailsFast (p.attempt >>= f) := by
  induction p with
  | ret a => exact hok a
  | fail e =>
      obtain ⟨e', he⟩ := herr e
      show FailsFast (f (.error e))
      rw [he]
      trivial
  | step o k ih =>
      have hlost : ∀ q : Prog (commEffects M ε L) ε α, (∃ e', q = .fail e') →
          ∃ e', (q.attempt >>= f) = .fail e' := by
        rintro q ⟨e', rfl⟩
        exact herr e'
      cases o with
      | send m => exact ⟨fun e => hlost _ (hp.1 e), fun r => ih r (hp.2 r)⟩
      | recv => exact ⟨fun e => hlost _ (hp.1 e), fun r => ih r (hp.2 r)⟩
      | loc o => exact fun r => ih r (hp r)

section Does

variable {σ : Type} {h : Handler L σ} {s s' : σ} {ms : List M} {p q : Prog (commEffects M ε L) ε α}
  {tr : List (CommAction M ε L)}

theorem Does.follows (hd : Does h s ms p tr q s') : Follows p tr q := by
  induction hd with
  | nil s p => exact .nil p
  | send _ ih => exact .cons ih
  | recv _ ih => exact .cons ih
  | loc _ ih => exact .cons ih

/-- What a program does, it does where its outcome is caught. -/
theorem Does.attempt (hd : Does h s ms p tr q s') : Does h s ms p.attempt tr q.attempt s' := by
  induction hd with
  | nil s p => exact .nil s _
  | send _ ih => exact .send ih
  | recv _ ih => exact .recv ih
  | loc _ ih => exact .loc ih

theorem attempt_ofExcept (x : Except ε α) :
    (ofExcept x : Prog (commEffects M ε L) ε α).attempt = .ret x := by
  cases x <;> rfl

end Does

section stage

variable {β γ : Side → Type} {σ σ' : Side → Type} {h : (p : Side) → Handler L (σ p)}
  {s : (p : Side) → σ p} {h' : (p : Side) → Handler L' (σ' p)} {s' : (p : Side) → σ' p}
  {ps : (p : Side) → Prog (commEffects M ε L') ε (β p)}
  {cs ds : (p : Side) → Prog (commEffects M ε L) ε (γ p)}
  {trs : Side → List (CommAction M ε L')} {qs : (p : Side) → Prog (commEffects M ε L') ε (β p)}

/-- An answer the stage may get on its own, it may get there: the queues hold what the stage put in
them, and nothing from before it. -/
theorem Fifo.stage {π : (p : Side) → σ' p → σ p} (hu : ∀ p, ι.Under (h p) (h' p) (π p))
    (hbal : ∀ p, (got (trs p)).length = (sent (trs p.peer)).length)
    (hs : ∀ p, π p (after (h' p) (s' p) (trs p)) = s p)
    {log : List (Side × CommAction M ε L)} {log' : List (Side × CommAction M ε L')}
    (hlog : ∀ p, own p log' = trs p ++ (own p log).map ι.action) {i : Side} {a : CommAction M ε L}
    (hR : Fifo False h s log (i, a)) : Fifo False h' s' log' (i, ι.action a) := by
  obtain ⟨o, r⟩ := a
  cases o with
  | send m =>
      cases r with
      | ok u => trivial
      | error e => exact hR.elim
  | recv =>
      cases r with
      | error e => exact hR.elim
      | ok m =>
          show (sent (own i.peer log'))[(got (own i log')).length]? = some m
          -- before the stage the two ends had heard each other out
          rw [hlog, hlog, sent_append, got_append, ι.sent_map_action, ι.got_map_action,
            List.length_append, hbal, List.getElem?_append_right (Nat.le_add_right _ _),
            Nat.add_sub_cancel_left]
          exact hR
  | loc o =>
      have hr : r = (h i o (after (h i) (s i) (own i log))).1 := hR
      show (ι.res o).symm r = (h' i (ι.op o) (after (h' i) (s' i) (own i log'))).1
      rw [hlog, after_append, (hu i).res, (hu i).after_map, hs, hr]

/-- **A complete run of a stage is a part of a run of the whole.** -/
theorem Reached.stage {f : (p : Side) → γ p → Prog (commEffects M ε L') ε (β p)}
    {π : (p : Side) → σ' p → σ p} (hr : Reached ps h' s' trs fun p => (cs p).within ι >>= f p)
    (hu : ∀ p, ι.Under (h p) (h' p) (π p))
    (hbal : ∀ p, (got (trs p)).length = (sent (trs p.peer)).length)
    (hs : ∀ p, π p (after (h' p) (s' p) (trs p)) = s p)
    {log : List (Side × CommAction M ε L)} (hrun : Run cs (Fifo False h s) log ds) :
    Reached ps h' s' (fun p => trs p ++ (own p log).map ι.action) fun p => (ds p).within ι >>= f p := by
  induction log using List.reverseRecOn generalizing ds with
  | nil =>
      have hds : ds = cs := funext fun p => (hrun.follows p).of_nil.symm
      subst hds
      simpa [own] using hr
  | append_singleton log x ih =>
      obtain ⟨i, a⟩ := x
      obtain ⟨es, hprev, hR, k, hk, hres⟩ := hrun.snoc
      -- the other end stays where it was
      have hother : ∀ p, p ≠ i → es p = ds p := by
        intro p hp
        have hf := hrun.follows p
        rw [own_snoc_of_ne (Ne.symm hp)] at hf
        exact (hprev.follows p).functional hf
      obtain ⟨o, r⟩ := a
      obtain ⟨k', hk', hres'⟩ : ∃ k', ((es i).within ι >>= f i) = .step (ι.action ⟨o, r⟩).op k' ∧
          k' (ι.action ⟨o, r⟩).res = ((ds i).within ι >>= f i) := by
        rw [hk, ← hres]
        cases o with
        | send m => exact ⟨_, rfl, rfl⟩
        | recv => exact ⟨_, rfl, rfl⟩
        | loc o =>
            refine ⟨fun r => (k (ι.res o r)).within ι >>= f i, rfl, ?_⟩
            show ((k (ι.res o ((ι.res o).symm r))).within ι >>= f i) = _
            rw [Equiv.apply_symm_apply]
      have hnext := (ih hprev).extend (i := i) hk' (r := (ι.action ⟨o, r⟩).res)
        (fun log' hlog => Fifo.stage hu hbal hs hlog hR)
      obtain ⟨log', hrun', hown⟩ := hnext
      refine ⟨log', ?_, ?_⟩
      · convert hrun' using 1
        funext p
        by_cases hp : p = i
        · subst hp
          rw [Function.update_self, hres']
        · rw [Function.update_of_ne hp, hother p hp]
      · intro p
        rw [hown]
        by_cases hp : p = i
        · subst hp
          dsimp only
          rw [Function.update_self, own_snoc_self, List.map_append, List.append_assoc]
          rfl
        · dsimp only
          rw [Function.update_of_ne hp, own_snoc_of_ne (Ne.symm hp)]

end stage

/-! ## What the messages tell

A program that sends no more than so many messages, and does nothing that counts after the last of them,
has done it all once the other end has read that many. -/

/-- The program sends at most `n` messages, and when it has sent them performs operations of `Q` only. -/
def Settles (Q : L.Op → Prop) : Prog (commEffects M ε L) ε α → Nat → Prop
  | .ret _, _ => True
  | .fail _, _ => True
  | .step (.send _) k, n => 0 < n ∧ ∀ r, (k r).Settles Q (n - 1)
  | .step .recv k, n => ∀ r, (k r).Settles Q n
  | .step (.loc o) k, n => (n = 0 → Q o) ∧ ∀ r, (k r).Settles Q n

/-- The program sends at most `n` messages. -/
abbrev Sends (p : Prog (commEffects M ε L) ε α) (n : Nat) : Prop := p.Settles (fun _ => True) n

/-- The program takes at least `n` messages before it returns. -/
def Takes : Prog (commEffects M ε L) ε α → Nat → Prop
  | .ret _, n => n = 0
  | .fail _, _ => True
  | .step (.send _) k, n => ∀ r, (k r).Takes n
  | .step .recv k, n => (∀ m, (k (.ok m)).Takes (n - 1)) ∧ ∀ e, (k (.error e)).Takes n
  | .step (.loc _) k, n => ∀ r, (k r).Takes n

/-- While it has taken no more than `g` messages, the program has sent at most `n`. -/
def Ahead : Prog (commEffects M ε L) ε α → Nat → Nat → Prop
  | .ret _, _, _ => True
  | .fail _, _, _ => True
  | .step (.send _) k, n, g => 0 < n ∧ ∀ r, (k r).Ahead (n - 1) g
  | .step .recv k, n, g => (∀ m, 0 < g → (k (.ok m)).Ahead n (g - 1)) ∧ ∀ e, (k (.error e)).Ahead n g
  | .step (.loc _) k, n, g => ∀ r, (k r).Ahead n g

/-- The program receives nothing any more. -/
abbrev Deaf (p : Prog (commEffects M ε L) ε α) : Prop := Only (fun o : Comm M L => o ≠ .recv) p

/-- When the program has sent `n` messages, the next one is its last word: it waits for no answer to it. -/
def LastWord : Prog (commEffects M ε L) ε α → Nat → Prop
  | .ret _, _ => True
  | .fail _, _ => True
  | .step (.send _) k, n => (n = 0 → ∀ r, Deaf (k r)) ∧ ∀ r, (k r).LastWord (n - 1)
  | .step .recv k, n => ∀ r, (k r).LastWord n
  | .step (.loc _) k, n => ∀ r, (k r).LastWord n

section counting

variable {Q : L.Op → Prop} {p q : Prog (commEffects M ε L) ε α} {m n : Nat}

theorem Settles.mono {n' : Nat} (hp : p.Settles Q n) (hn : n ≤ n') : p.Settles Q n' := by
  induction p generalizing n n' with
  | ret a => trivial
  | fail e => trivial
  | step o k ih =>
      cases o with
      | send m => exact ⟨Nat.lt_of_lt_of_le hp.1 hn, fun r => ih r (hp.2 r) (Nat.sub_le_sub_right hn 1)⟩
      | recv => exact fun r => ih r (hp r) hn
      | loc o =>
          refine ⟨fun h0 => hp.1 ?_, fun r => ih r (hp.2 r) hn⟩
          omega

/-- What is sent first leaves the rest its own messages. -/
theorem Sends.bind {γ : Type} {f : α → Prog (commEffects M ε L) ε γ} (hp : p.Sends m) (hn : 0 < n)
    (hf : ∀ a, (f a).Settles Q n) : (p >>= f).Settles Q (m + n) := by
  induction p generalizing m with
  | ret a => exact (hf a).mono (Nat.le_add_left n m)
  | fail e => trivial
  | step o k ih =>
      cases o with
      | send _ =>
          refine ⟨Nat.add_pos_right m hn, fun r => ?_⟩
          have := hp.1
          rw [show m + n - 1 = m - 1 + n by omega]
          exact ih r (hp.2 r)
      | recv => exact fun r => ih r (hp r)
      | loc o => exact ⟨fun h0 => absurd h0 (by omega), fun r => ih r (hp.2 r)⟩

/-- What sends nothing may come before anything. -/
theorem Sends.bind₀ {γ : Type} {f : α → Prog (commEffects M ε L) ε γ} (hp : p.Sends 0)
    (hf : ∀ a, (f a).Sends n) : (p >>= f).Sends n := by
  induction p with
  | ret a => exact hf a
  | fail e => trivial
  | step o k ih =>
      cases o with
      | send _ => exact absurd hp.1 (Nat.lt_irrefl 0)
      | recv => exact fun r => ih r (hp r)
      | loc o => exact ⟨fun _ => trivial, fun r => ih r (hp.2 r)⟩

/-- What comes after the last message may be of `Q` only. -/
theorem Settles.bind₀ {γ : Type} {f : α → Prog (commEffects M ε L) ε γ} (hp : p.Settles Q n)
    (hf : ∀ a, (f a).Settles Q 0) : (p >>= f).Settles Q n := by
  induction p generalizing n with
  | ret a => exact (hf a).mono (Nat.zero_le n)
  | fail e => trivial
  | step o k ih =>
      cases o with
      | send _ => exact ⟨hp.1, fun r => ih r (hp.2 r)⟩
      | recv => exact fun r => ih r (hp r)
      | loc o => exact ⟨hp.1, fun r => ih r (hp.2 r)⟩

theorem Settles.attempt (hp : p.Settles Q n) : p.attempt.Settles Q n := by
  induction p generalizing n with
  | ret a => trivial
  | fail e => trivial
  | step o k ih =>
      cases o with
      | send m => exact ⟨hp.1, fun r => ih r (hp.2 r)⟩
      | recv => exact fun r => ih r (hp r)
      | loc o => exact ⟨hp.1, fun r => ih r (hp.2 r)⟩

theorem Settles.within {Q' : L'.Op → Prop} (hp : p.Settles Q n) (hQ : ∀ o, Q o → Q' (ι.op o)) :
    (p.within ι).Settles Q' n := by
  induction p generalizing n with
  | ret a => trivial
  | fail e => trivial
  | step o k ih =>
      cases o with
      | send m => exact ⟨hp.1, fun r => ih r (hp.2 r)⟩
      | recv => exact fun r => ih r (hp r)
      | loc o => exact ⟨fun h0 => hQ o (hp.1 h0), fun r => ih _ (hp.2 _)⟩

theorem Settles.follows {tr : List (CommAction M ε L)} (hp : p.Settles Q n) (hf : Follows p tr q)
    (hn : n ≤ (sent tr).length) : q.Settles Q 0 := by
  induction hf generalizing n with
  | nil p => exact hp.mono hn
  | @cons o k r tr q hf ih =>
      cases o with
      | send m =>
          refine ih (hp.2 r) ?_
          cases r with
          | ok u =>
              have hlen : (sent (⟨.send m, .ok u⟩ :: tr : List (CommAction M ε L))).length
                  = (sent tr).length + 1 := rfl
              omega
          | error e => exact Nat.le_trans (Nat.sub_le n 1) hn
      | recv => exact ih (hp r) hn
      | loc o => exact ih (hp.2 r) hn

/-- From there on the part `π` of the state that `Q` leaves alone stays. -/
theorem Settles.after_eq {σ S : Type} {h : Handler L σ} {π : σ → S} (hQ : ∀ o, Q o → ∀ s, π (h o s).2 = π s)
    {tr : List (CommAction M ε L)} (hp : p.Settles Q 0) (hf : Follows p tr q) (s : σ) :
    π (after h s tr) = π s := by
  induction hf generalizing s with
  | nil p => rfl
  | @cons o k r tr q hf ih =>
      cases o with
      | send m => exact absurd hp.1 (Nat.lt_irrefl 0)
      | recv => exact ih (hp r) s
      | loc o => exact (ih (hp.2 r) _).trans (hQ o (hp.1 rfl) s)

theorem Takes.mono {n' : Nat} (hp : p.Takes n) (hn : n' ≤ n) : p.Takes n' := by
  induction p generalizing n n' with
  | ret a => exact Nat.eq_zero_of_le_zero (hn.trans_eq hp)
  | fail e => trivial
  | step o k ih =>
      cases o with
      | send m => exact fun r => ih r (hp r) hn
      | recv => exact ⟨fun m => ih _ (hp.1 m) (Nat.sub_le_sub_right hn 1), fun e => ih _ (hp.2 e) hn⟩
      | loc o => exact fun r => ih r (hp r) hn

theorem takes_zero (p : Prog (commEffects M ε L) ε α) : p.Takes 0 := by
  induction p with
  | ret a => rfl
  | fail e => trivial
  | step o k ih =>
      cases o with
      | send m => exact ih
      | recv => exact ⟨fun m => ih _, fun e => ih _⟩
      | loc o => exact ih

theorem Takes.bind {γ : Type} {f : α → Prog (commEffects M ε L) ε γ} (hp : p.Takes m)
    (hf : ∀ a, (f a).Takes n) : (p >>= f).Takes (m + n) := by
  induction p generalizing m with
  | ret a =>
      obtain rfl : m = 0 := hp
      rw [Nat.zero_add]
      exact hf a
  | fail e => trivial
  | step o k ih =>
      cases o with
      | send _ => exact fun r => ih r (hp r)
      | recv =>
          refine ⟨fun x => (ih _ (hp.1 x)).mono ?_, fun e => ih _ (hp.2 e)⟩
          omega
      | loc o => exact fun r => ih r (hp r)

theorem Takes.within (hp : p.Takes n) : (p.within ι).Takes n := by
  induction p generalizing n with
  | ret a => exact hp
  | fail e => trivial
  | step o k ih =>
      cases o with
      | send m => exact fun r => ih r (hp r)
      | recv => exact ⟨fun m => ih _ (hp.1 m), fun e => ih _ (hp.2 e)⟩
      | loc o => exact fun r => ih _ (hp _)

theorem Takes.got_le {tr : List (CommAction M ε L)} {a : α} (hp : p.Takes n) (hf : Follows p tr (.ret a)) :
    n ≤ (got tr).length := by
  generalize hq : (ret a : Prog (commEffects M ε L) ε α) = q at hf
  induction hf generalizing n with
  | nil p =>
      subst hq
      exact hp.le
  | @cons o k r tr q hf ih =>
      cases o with
      | send m => exact ih (hp r) hq
      | recv =>
          cases r with
          | ok m =>
              have hlen : (got (⟨.recv, .ok m⟩ :: tr : List (CommAction M ε L))).length
                  = (got tr).length + 1 := rfl
              have := ih (hp.1 m) hq
              omega
          | error e => exact ih (hp.2 e) hq
      | loc o => exact ih (hp r) hq

/-- An error under another name is sent or taken by nobody. -/
theorem Settles.mapError {g : ε → ε} (hp : p.Settles Q n) : (p.mapError g).Settles Q n := by
  induction p generalizing n with
  | ret a => trivial
  | fail e => trivial
  | step o k ih =>
      cases o with
      | send m => exact ⟨hp.1, fun r => ih r (hp.2 r)⟩
      | recv => exact fun r => ih r (hp r)
      | loc o => exact ⟨hp.1, fun r => ih r (hp.2 r)⟩

theorem Takes.mapError {g : ε → ε} (hp : p.Takes n) : (p.mapError g).Takes n := by
  induction p generalizing n with
  | ret a => exact hp
  | fail e => trivial
  | step o k ih =>
      cases o with
      | send m => exact fun r => ih r (hp r)
      | recv => exact ⟨fun m => ih _ (hp.1 m), fun e => ih _ (hp.2 e)⟩
      | loc o => exact fun r => ih r (hp r)

variable {g : Nat}

theorem Ahead.mono {n' g' : Nat} (hp : p.Ahead n g) (hn : n ≤ n') (hg : g' ≤ g) : p.Ahead n' g' := by
  induction p generalizing n n' g g' with
  | ret a => trivial
  | fail e => trivial
  | step o k ih =>
      cases o with
      | send m => exact ⟨Nat.lt_of_lt_of_le hp.1 hn, fun r => ih r (hp.2 r) (Nat.sub_le_sub_right hn 1) hg⟩
      | recv =>
          refine ⟨fun m hpos => ih _ (hp.1 m (Nat.lt_of_lt_of_le hpos hg)) hn ?_, fun e => ih _ (hp.2 e) hn hg⟩
          exact Nat.sub_le_sub_right hg 1
      | loc o => exact fun r => ih r (hp r) hn hg

/-- A first part that takes `g` messages and sends at most `m`, and what comes after it. -/
theorem Ahead.bind {γ : Type} {f : α → Prog (commEffects M ε L) ε γ} {g' : Nat} (hs : p.Sends m)
    (ht : p.Takes g) (hf : ∀ a, (f a).Ahead n g') : (p >>= f).Ahead (m + n) (g + g') := by
  induction p generalizing m g with
  | ret a =>
      obtain rfl : g = 0 := ht
      exact (hf a).mono (Nat.le_add_left n m) (Nat.zero_add g').le
  | fail e => trivial
  | step o k ih =>
      cases o with
      | send _ =>
          have hpos := hs.1
          refine ⟨Nat.add_pos_left hpos n, fun r => ?_⟩
          rw [show m + n - 1 = m - 1 + n by omega]
          exact ih r (hs.2 r) (ht r)
      | recv =>
          refine ⟨fun x _ => (ih _ (hs _) (ht.1 x)).mono le_rfl ?_, fun e => ih _ (hs _) (ht.2 e)⟩
          omega
      | loc o => exact fun r => ih r (hs.2 r) (ht r)

/-- What comes after the messages that count. -/
theorem Ahead.bind_takes {γ : Type} {f : α → Prog (commEffects M ε L) ε γ} (hp : p.Ahead n g)
    (ht : p.Takes (g + 1)) : (p >>= f).Ahead n g := by
  induction p generalizing n g with
  | ret a => cases ht
  | fail e => trivial
  | step o k ih =>
      cases o with
      | send _ => exact ⟨hp.1, fun r => ih r (hp.2 r) (ht r)⟩
      | recv =>
          refine ⟨fun x hpos => ih _ (hp.1 x hpos) ?_, fun e => ih _ (hp.2 e) (ht.2 e)⟩
          rw [Nat.sub_add_cancel hpos]
          exact ht.1 x
      | loc o => exact fun r => ih r (hp r) (ht r)

theorem Ahead.within (hp : p.Ahead n g) : (p.within ι).Ahead n g := by
  induction p generalizing n g with
  | ret a => trivial
  | fail e => trivial
  | step o k ih =>
      cases o with
      | send m => exact ⟨hp.1, fun r => ih r (hp.2 r)⟩
      | recv => exact ⟨fun m hpos => ih _ (hp.1 m hpos), fun e => ih _ (hp.2 e)⟩
      | loc o => exact fun r => ih _ (hp _)

theorem Ahead.sent_le {tr : List (CommAction M ε L)} (hp : p.Ahead n g) (hf : Follows p tr q)
    (hg : (got tr).length ≤ g) : (sent tr).length ≤ n := by
  induction hf generalizing n g with
  | nil p => exact Nat.zero_le n
  | @cons o k r tr q hf ih =>
      cases o with
      | send m =>
          have hpos := hp.1
          have hrest := ih (hp.2 r) hg
          cases r with
          | ok u =>
              show (sent tr).length + 1 ≤ n
              omega
          | error e => exact hrest.trans (Nat.sub_le n 1)
      | recv =>
          cases r with
          | ok m =>
              have hlen : (got tr).length + 1 ≤ g := hg
              exact ih (hp.1 m (by omega)) (by omega)
          | error e => exact ih (hp.2 e) hg
      | loc o => exact ih (hp r) hg

theorem Deaf.got_eq {tr : List (CommAction M ε L)} (hp : Deaf p) (hf : Follows p tr q) : got tr = [] := by
  refine List.filterMap_eq_nil_iff.mpr fun a ha => ?_
  obtain ⟨o, r⟩ := a
  cases o with
  | send m => rfl
  | recv => exact absurd rfl (hp.of_mem hf ha)
  | loc o => rfl

theorem LastWord.mono {n' : Nat} (hp : p.LastWord n) (hn : n ≤ n') : p.LastWord n' := by
  induction p generalizing n n' with
  | ret a => trivial
  | fail e => trivial
  | step o k ih =>
      cases o with
      | send m => exact ⟨fun h0 => hp.1 (by omega), fun r => ih r (hp.2 r) (Nat.sub_le_sub_right hn 1)⟩
      | recv => exact fun r => ih r (hp r) hn
      | loc o => exact fun r => ih r (hp r) hn

theorem Deaf.lastWord (hp : Deaf p) : p.LastWord n := by
  induction p generalizing n with
  | ret a => trivial
  | fail e => trivial
  | step o k ih =>
      cases o with
      | send m => exact ⟨fun _ => hp.2, fun r => ih r (hp.2 r)⟩
      | recv => exact absurd rfl hp.1
      | loc o => exact fun r => ih r (hp.2 r)

/-- The last word is not in a first part that sends at most `m` messages. -/
theorem Sends.lastWord {γ : Type} {f : α → Prog (commEffects M ε L) ε γ} (hp : p.Sends m)
    (hf : ∀ a, (f a).LastWord n) : (p >>= f).LastWord (m + n) := by
  induction p generalizing m with
  | ret a => exact (hf a).mono (Nat.le_add_left n m)
  | fail e => trivial
  | step o k ih =>
      cases o with
      | send _ =>
          have hpos := hp.1
          refine ⟨fun h0 => absurd h0 (by omega), fun r => ?_⟩
          rw [show m + n - 1 = m - 1 + n by omega]
          exact ih r (hp.2 r)
      | recv => exact fun r => ih r (hp r)
      | loc o => exact fun r => ih r (hp.2 r)

theorem LastWord.bind_deaf {γ : Type} {f : α → Prog (commEffects M ε L) ε γ} (hp : p.LastWord n)
    (hf : ∀ a, Deaf (f a)) : (p >>= f).LastWord n := by
  induction p generalizing n with
  | ret a => exact (hf a).lastWord
  | fail e => trivial
  | step o k ih =>
      cases o with
      | send m => exact ⟨fun h0 r => (hp.1 h0 r).bind hf, fun r => ih r (hp.2 r)⟩
      | recv => exact fun r => ih r (hp r)
      | loc o => exact fun r => ih r (hp r)

theorem Deaf.within (hp : Deaf p) : Deaf (p.within ι) := by
  induction p with
  | ret a => trivial
  | fail e => trivial
  | step o k ih =>
      cases o with
      | send m => exact ⟨nofun, fun r => ih r (hp.2 r)⟩
      | recv => exact absurd rfl hp.1
      | loc o => exact ⟨nofun, fun r => ih _ (hp.2 _)⟩

theorem LastWord.within (hp : p.LastWord n) : (p.within ι).LastWord n := by
  induction p generalizing n with
  | ret a => trivial
  | fail e => trivial
  | step o k ih =>
      cases o with
      | send m => exact ⟨fun h0 r => (hp.1 h0 r).within, fun r => ih r (hp.2 r)⟩
      | recv => exact fun r => ih r (hp r)
      | loc o => exact fun r => ih _ (hp _)

theorem LastWord.follows {tr : List (CommAction M ε L)} (hp : p.LastWord n) (hf : Follows p tr q) :
    q.LastWord (n - (sent tr).length) := by
  induction hf generalizing n with
  | nil p => exact hp
  | @cons o k r tr q hf ih =>
      cases o with
      | send m =>
          refine (ih (hp.2 r)).mono ?_
          cases r with
          | ok u =>
              show n - 1 - (sent tr).length ≤ n - ((sent tr).length + 1)
              omega
          | error e =>
              show n - 1 - (sent tr).length ≤ n - (sent tr).length
              omega
      | recv => exact ih (hp r)
      | loc o => exact ih (hp r)

end counting

section runs

variable {β : Side → Type} {σ : Side → Type} {h : (p : Side) → Handler L (σ p)} {s : (p : Side) → σ p}
  {ps qs : (p : Side) → Prog (commEffects M ε L) ε (β p)} {log : List (Side × CommAction M ε L)}
  {lossy : Prop}

/-- What a lossy channel has not refused, a reliable one answers too. -/
theorem Fifo.of_not_lost {i : Side} {a : CommAction M ε L} (hR : Fifo True h s log (i, a)) (ha : ¬ Lost a) :
    Fifo False h s log (i, a) := by
  obtain ⟨o, r⟩ := a
  cases o with
  | send m =>
      cases r with
      | ok u => trivial
      | error e => exact ha trivial
  | recv =>
      cases r with
      | ok m => exact hR
      | error e => exact ha trivial
  | loc o => exact hR

/-- An end has been given a part of what the other one sent. -/
theorem Run.got_initial (hrun : Run ps (Fifo lossy h s) log qs) (p : Side) :
    got (own p log) <+: sent (own p.peer log) := by
  induction log using List.reverseRecOn generalizing qs with
  | nil => exact List.nil_prefix
  | append_singleton log x ih =>
      obtain ⟨i, a⟩ := x
      obtain ⟨qs', hprev, hR, -⟩ := hrun.snoc
      have hsame := ih hprev
      have hgrows : sent (own p.peer log) <+: sent (own p.peer (log ++ [(i, a)])) := by
        rw [own_append]
        exact sent_mono (List.prefix_append _ _)
      by_cases hp : i = p
      swap
      · rw [own_snoc_of_ne hp]
        exact hsame.trans hgrows
      subst hp
      rw [own_snoc_self, got_append]
      obtain ⟨o, r⟩ := a
      cases o with
      | send m => simpa [got] using hsame.trans hgrows
      | loc o => simpa [got] using hsame.trans hgrows
      | recv =>
          cases r with
          | error e => simpa [got] using hsame.trans hgrows
          | ok m =>
              refine List.IsPrefix.trans ?_ hgrows
              obtain ⟨t, ht⟩ := hsame
              have hm : (sent (own i.peer log))[(got (own i log)).length]? = some m := hR
              rw [← ht, List.getElem?_append_right le_rfl, Nat.sub_self] at hm
              obtain ⟨t', rfl⟩ : ∃ t', t = m :: t' := by
                cases t with
                | nil => cases hm
                | cons y t' => exact ⟨t', by rw [List.getElem?_cons_zero, Option.some.injEq] at hm; rw [hm]⟩
              exact ⟨t', by rw [← ht, List.append_assoc]; rfl⟩

/-- Where a run stands at an action of another one, it is about to do the same. -/
theorem Run.next_op {R R' : List (Side × CommAction M ε L) → Side × CommAction M ε L → Prop}
    {qs₀ : (p : Side) → Prog (commEffects M ε L) ε (β p)} {log₀ b c : List (Side × CommAction M ε L)} {i : Side}
    {o : Comm M L} {r : Comm.Res ε o} (h₀ : Run ps R log₀ qs₀) (hsplit : log₀ = b ++ (i, ⟨o, r⟩) :: c)
    (hrun : Run ps R' log qs) (hown : own i b = own i log) : ∃ k, qs i = .step o k := by
  have hfull := h₀.follows i
  rw [hsplit, own_append, show own i ((i, ⟨o, r⟩) :: c) = ⟨o, r⟩ :: own i c by simp [own]] at hfull
  obtain ⟨m, hm, hrest⟩ := hfull.split
  rw [hown] at hm
  rw [hm.functional (hrun.follows i)] at hrest
  generalize qs i = q at hrest
  cases hrest
  exact ⟨_, rfl⟩

variable {p q q₀ : Prog (commEffects M ε L) ε α} {tr full : List (CommAction M ε L)}

theorem Tracks.of_append {t : List (CommAction M ε L)} (ht : Tracks (tr ++ t) full) : Tracks tr full := by
  obtain ⟨init, last, heq, hinit, rfl | ⟨b, rfl, hb⟩⟩ := ht
  · rw [List.append_nil] at heq
    exact ⟨tr, [], (List.append_nil tr).symm, (heq ▸ List.prefix_append tr t).trans hinit, .inl rfl⟩
  · rcases List.prefix_concat_iff.mp ⟨t, heq⟩ with rfl | hpre
    · exact ⟨init, [b], rfl, hinit, .inr ⟨b, rfl, hb⟩⟩
    · exact ⟨tr, [], (List.append_nil tr).symm, hpre.trans hinit, .inl rfl⟩

/-- What it did is a part of the complete run, or was refused. -/
theorem Tracks.mem {a : CommAction M ε L} (ht : Tracks tr full) (ha : a ∈ tr) : a ∈ full ∨ Lost a := by
  obtain ⟨init, last, rfl, hinit, rfl | ⟨b, rfl, hb⟩⟩ := ht
  · rw [List.append_nil] at ha
    exact .inl (hinit.subset ha)
  · rcases List.mem_append.mp ha with ha | ha
    · exact .inl (hinit.subset ha)
    · exact .inr (List.mem_singleton.mp ha ▸ hb)

/-- An end that returns was refused nothing: it did all of the complete run. -/
theorem Tracks.eq_of_ret {a : α} (ht : Tracks tr full) (hp : FailsFast p) (hfull : Follows p full q₀)
    (htr : Follows p tr (.ret a)) : tr = full ∧ q₀ = .ret a := by
  obtain ⟨init, last, rfl, hinit, rfl | ⟨b, rfl, hb⟩⟩ := ht
  · rw [List.append_nil] at htr ⊢
    -- cut short it would not have returned
    by_cases heq : init = full
    · subst heq
      exact ⟨rfl, hfull.functional htr⟩
    · obtain ⟨b, t, rfl⟩ := prefix_of_prefix_snoc hinit heq
      obtain ⟨m, hm, hrest⟩ := hfull.split
      rw [hm.functional htr] at hrest
      exact absurd trivial hrest.not_isLeaf
  · obtain ⟨k, hk, hres⟩ := htr.snoc
    have hlast := hp.follows hk
    obtain ⟨o, r⟩ := b
    cases o with
    | send m =>
        cases r with
        | ok u => cases hb
        | error e =>
            obtain ⟨e', he⟩ := hlast.1 e
            cases hres.symm.trans he
    | recv =>
        cases r with
        | ok m => cases hb
        | error e =>
            obtain ⟨e', he⟩ := hlast.1 e
            cases hres.symm.trans he
    | loc o => cases hb

/-- **An end that has sent all its messages has done all that counts.** -/
theorem Tracks.settled {σ S : Type} {h : Handler L σ} {π : σ → S} {Q : L.Op → Prop} {n : Nat}
    (hQ : ∀ o, Q o → ∀ s, π (h o s).2 = π s) (ht : Tracks tr full) (hfull : Follows p full q₀)
    (hp : p.Settles Q n) (hn : n ≤ (sent tr).length) (s : σ) :
    π (after h s tr) = π (after h s full) := by
  obtain ⟨init, last, rfl, ⟨t, rfl⟩, hl⟩ := ht
  obtain ⟨m, hm, hrest⟩ := hfull.split
  have hend : after h s (init ++ last) = after h s init ∧ sent last = [] := by
    rcases hl with rfl | ⟨a, rfl, ha⟩
    · exact ⟨by rw [List.append_nil], rfl⟩
    · refine ⟨?_, ha.silent.1⟩
      rw [after_append]
      obtain ⟨o, r⟩ := a
      cases o with
      | send m => rfl
      | recv => rfl
      | loc o => cases ha
  rw [sent_append, hend.2, List.append_nil] at hn
  rw [hend.1, after_append]
  exact ((hp.follows hm hn).after_eq hQ hrest _).symm

end runs

end Prog
end Interaction
