import B2p.Handshake
import B2p.External
import Mathlib.Data.Countable.Basic
import Mathlib.Data.Sym.Sym2

/-!
# Agreement of the handshake

Any number of instances of both handshakes run side by side, and whatever they read comes from an
adversary: frames of any of them, changed, moved, replayed or reflected, or frames of its own making.
It cannot do two things: guess what `start` draws, and make a confirmation under a key that it takes
one of the passwords to derive.

* `Instance` — who runs a handshake, and with what.
* `Network` — what the adversary can make an instance read.
* `startMsg`, `peerMsg`, `keyOf` — what an instance sent, took for its peer's message, and derived, as
  functions of its own trace.
* `agreement` — an instance that returns a key has exactly one partner.
-/

namespace B2p
namespace Handshake

open Interaction Prog
open Pake (Role)

/-- The two transports a handshake runs over. -/
inductive Over where
  | rendezvous
  | channel
  deriving DecidableEq

/-- One run of a handshake by an honest party. -/
structure Instance where
  transport : Over
  role : Role
  password : Bytes
  context : String
  budget : Nat

variable (P : PakeLib)

def Instance.prog (x : Instance) : HsProg P P.SessionKey :=
  match x.transport with
  | .rendezvous => handshakeInner x.budget x.context x.password x.role
  | .channel => handshakeChannelInner x.budget x.context x.password x.role

variable {P}

abbrev HsTrace (P : PakeLib) := List (Action (hsEffects P))

/-! ## Reading a trace -/

/-- The message `Pake::start` returned. -/
def startMsg (tr : HsTrace P) : Option Bytes :=
  tr.findSome? fun
    | ⟨.start _ _, m⟩ => some m
    | _ => none

/-- The frame an action delivered. -/
def delivered : Action (hsEffects P) → Option Bytes
  | ⟨.next, some frame⟩ => some frame
  | ⟨.recv, .ok frame⟩ => some frame
  | _ => none

/-- What a reader that waits for a frame of this kind and role takes out of an action. -/
def taken (kind role : UInt8) (a : Action (hsEffects P)) : Option Bytes :=
  match (delivered a).bind decodeFrame with
  | some (k, r, payload) => if k = kind ∧ r = role then some payload else none
  | none => none

/-- The message an instance consumed as its peer's: the first one that matches. -/
def peerMsg (role : Role) (tr : HsTrace P) : Option Bytes :=
  tr.findSome? (taken KIND_PAKE (roleByte (other role)))

/-- The key an instance derived. -/
def keyOf (x : Instance) (tr : HsTrace P) : Option P.SessionKey :=
  (startMsg tr).bind fun own => (peerMsg x.role tr).bind fun peer =>
    (Pake.finish P x.password x.context own peer).toOption

theorem startMsg_append {tr : HsTrace P} {m : Bytes} (h : startMsg tr = some m) (tr' : HsTrace P) :
    startMsg (tr ++ tr') = some m := by
  rw [startMsg, List.findSome?_append, ← startMsg, h]
  rfl

theorem peerMsg_append {role : Role} {tr : HsTrace P} {m : Bytes} (h : peerMsg role tr = some m)
    (tr' : HsTrace P) : peerMsg role (tr ++ tr') = some m := by
  rw [peerMsg, List.findSome?_append, ← peerMsg, h]
  rfl

theorem peerMsg_append_none {role : Role} {tr : HsTrace P} (h : peerMsg role tr = none)
    (a : Action (hsEffects P)) :
    peerMsg role (tr ++ [a]) = taken KIND_PAKE (roleByte (other role)) a := by
  rw [peerMsg, List.findSome?_append, ← peerMsg, h]
  simp

/-- A derived key stays the derived key. -/
theorem keyOf_append {x : Instance} {tr : HsTrace P} {key : P.SessionKey}
    (h : keyOf x tr = some key) (tr' : HsTrace P) : keyOf x (tr ++ tr') = some key := by
  obtain ⟨own, hown, h⟩ := Option.bind_eq_some_iff.mp h
  obtain ⟨peer, hpeer, h⟩ := Option.bind_eq_some_iff.mp h
  rw [keyOf, startMsg_append hown, Option.bind_some, peerMsg_append hpeer, Option.bind_some, h]

/-- Being able to read a frame, or failing to. -/
def IsRead (a : Action (hsEffects P)) : Prop := a.op = .next ∨ a.op = .recv

theorem IsRead.ne_confirm {a : Action (hsEffects P)} (h : IsRead a) {key : P.SessionKey}
    {role : Role} {r : Bytes} : a ≠ ⟨.confirm key role, r⟩ := by
  rintro rfl
  rcases h with h | h <;> cases h

/-! ## One instance -/

/-- What an instance has computed confirmations for: its own role, under the key it derived. -/
def ConfirmsOwn (x : Instance) (tr : HsTrace P) : Prop :=
  ∀ key role r, (⟨.confirm key role, r⟩ : Action (hsEffects P)) ∈ tr →
    role = x.role ∧ keyOf x tr = some key

/-- What an instance that returns `key` has: `key` is the one it derived, and it was delivered the
other role's confirmation under it. -/
def Confirmed (x : Instance) (out : Except Anyhow P.SessionKey) (tr : HsTrace P) : Prop :=
  ∀ key, out = .ok key → keyOf x tr = some key ∧
    ∃ a ∈ tr, taken KIND_CONFIRM (roleByte (other x.role)) a
      = some (Pake.confirmation P key (other x.role))

theorem confirmed_error (x : Instance) (e : Anyhow) (tr : HsTrace P) : Confirmed x (.error e) tr :=
  fun key he => by cases he

section readers

variable {C : HsTrace P → Prop} {Q : Except Anyhow Bytes → HsTrace P → Prop}

/-- The loop rule of the lenient readers. -/
theorem safe_skipUntil {read : HsProg P Bytes} (hread : read = nextFrame ∨ read = recvFrame)
    {J : HsTrace P → Prop} {elapsed : Anyhow} {kind role : UInt8} (hJ : ∀ tr, J tr → C tr)
    (hskip : ∀ tr a, J tr → IsRead a → taken kind role a = none → J (tr ++ [a]))
    (hmatch : ∀ tr a payload, J tr → IsRead a → taken kind role a = some payload →
      C (tr ++ [a]) ∧ Q (.ok payload) (tr ++ [a]))
    (hfail : ∀ tr e, J tr → Q (.error e) tr) (budget : Nat) {tr : HsTrace P} (h : J tr) :
    Safe traced C Q (skipUntil read elapsed kind role budget) tr := by
  induction budget generalizing tr with
  | zero => exact ⟨hJ tr h, hfail tr _ h⟩
  | succ budget ih =>
      -- a frame that is not the one wanted is read past
      have hgo : ∀ a frame, IsRead a → delivered a = some frame →
          Safe traced C Q (match decodeFrame frame with
            | some (k, r, payload) =>
                if k = kind ∧ r = role then ret payload
                else skipUntil read elapsed kind role budget
            | none => skipUntil read elapsed kind role budget) (tr ++ [a]) := by
        intro a frame ha hd
        have htaken : taken kind role a = match decodeFrame frame with
            | some (k, r, payload) => if k = kind ∧ r = role then some payload else none
            | none => none := by
          rw [taken, hd, Option.bind_some]
        cases hdec : decodeFrame frame with
        | none =>
            rw [hdec] at htaken
            exact ih (hskip tr a h ha htaken)
        | some f =>
            obtain ⟨k, r, payload⟩ := f
            rw [hdec] at htaken
            dsimp only at htaken ⊢
            split
            · next hkr =>
                rw [if_pos hkr] at htaken
                exact hmatch tr a payload h ha htaken
            · next hkr =>
                rw [if_neg hkr] at htaken
                exact ih (hskip tr a h ha htaken)
      -- a read that gives nothing ends it
      have hno : ∀ a e, IsRead a → delivered a = none →
          Safe traced C Q (fail e) (tr ++ [a]) := by
        intro a e ha hd
        have hJ' := hskip tr a h ha (by rw [taken, hd]; rfl)
        exact ⟨hJ _ hJ', hfail _ _ hJ'⟩
      rcases hread with rfl | rfl
      · refine ⟨hJ tr h, ?_⟩
        rintro r _ rfl
        cases r with
        | none => exact hno _ _ (.inl rfl) rfl
        | some frame => exact hgo _ frame (.inl rfl) rfl
      · refine ⟨hJ tr h, ?_⟩
        rintro r _ rfl
        cases r with
        | error e => exact hno _ _ (.inr rfl) rfl
        | ok frame => exact hgo _ frame (.inr rfl) rfl

theorem safe_sendFrame {Q : Except Anyhow Unit → HsTrace P → Prop} {frame : Bytes} {tr : HsTrace P}
    (h : C tr) (hC : ∀ r, C (tr ++ [⟨.send frame, r⟩]))
    (hok : Q (.ok ()) (tr ++ [⟨.send frame, .ok ()⟩]))
    (herr : ∀ e, Q (.error e) (tr ++ [⟨.send frame, .error e⟩])) :
    Safe traced C Q (sendFrame frame) tr := by
  refine ⟨h, ?_⟩
  rintro r _ rfl
  cases r with
  | error e => exact ⟨hC _, herr e⟩
  | ok u => exact ⟨hC _, hok⟩

end readers

/-- No confirmation has been computed yet. -/
def NoConfirm (tr : HsTrace P) : Prop :=
  ∀ key role r, (⟨.confirm key role, r⟩ : Action (hsEffects P)) ∉ tr

theorem NoConfirm.append {tr : HsTrace P} (h : NoConfirm tr) {a : Action (hsEffects P)}
    (ha : ∀ key role r, a ≠ ⟨.confirm key role, r⟩) : NoConfirm (tr ++ [a]) := by
  intro key role r hmem
  rcases List.mem_append.mp hmem with hmem | hmem
  · exact h key role r hmem
  · exact ha key role r (List.mem_singleton.mp hmem).symm

theorem NoConfirm.confirmsOwn {x : Instance} {tr : HsTrace P} (h : NoConfirm tr) :
    ConfirmsOwn x tr :=
  fun key role r hmem => absurd hmem (h key role r)

/-- From its derived key on, an instance confirms only under it. -/
theorem ConfirmsOwn.append {x : Instance} {tr : HsTrace P} (h : ConfirmsOwn x tr)
    {key : P.SessionKey} (hkey : keyOf x tr = some key) {a : Action (hsEffects P)}
    (ha : ∀ key' role r, a = ⟨.confirm key' role, r⟩ → key' = key ∧ role = x.role) :
    ConfirmsOwn x (tr ++ [a]) := by
  intro key' role r hmem
  rw [keyOf_append hkey]
  rcases List.mem_append.mp hmem with hmem | hmem
  · obtain ⟨hrole, hkey'⟩ := h key' role r hmem
    exact ⟨hrole, hkey ▸ hkey'⟩
  · obtain ⟨rfl, hrole⟩ := ha key' role r (List.mem_singleton.mp hmem).symm
    exact ⟨hrole, rfl⟩

/-- **The exchange confirms only its own key, and returns it only once it is confirmed.** -/
theorem safe_exchange (x : Instance) {read : HsProg P Bytes}
    (hread : read = nextFrame ∨ read = recvFrame) (elapsed mismatch : Anyhow) (budget : Nat)
    {tr : HsTrace P} (hstart : startMsg tr = none) (hpeer : peerMsg x.role tr = none)
    (hno : NoConfirm tr) :
    Safe traced (ConfirmsOwn x) (Confirmed x)
      (exchange (fun kind role => skipUntil read elapsed kind role budget) mismatch x.context
        x.password x.role) tr := by
  rw [exchange]
  refine Safe.bind ⟨hno.confirmsOwn, ?_⟩
  rintro own _ rfl
  -- the message is sent
  have hstart₁ : startMsg (tr ++ [⟨.start x.password (Pake.identity x.context), own⟩]) = some own := by
    rw [startMsg, List.findSome?_append, ← startMsg, hstart]
    rfl
  have hpeer₁ := peerMsg_append_none hpeer ⟨.start x.password (Pake.identity x.context), own⟩
  have hno₁ := hno.append (a := ⟨.start x.password (Pake.identity x.context), own⟩) (by simp)
  generalize tr ++ [⟨.start x.password (Pake.identity x.context), own⟩] = tr₁ at *
  refine ⟨hno₁.confirmsOwn, ?_⟩
  dsimp only
  refine Safe.bind (safe_sendFrame hno₁.confirmsOwn
    (fun r => (hno₁.append (by simp)).confirmsOwn) ?_ (fun e => confirmed_error x e _))
  have hstart₂ := startMsg_append hstart₁
    [⟨.send (encodeFrame KIND_PAKE x.role own), .ok ()⟩]
  have hpeer₂ := peerMsg_append_none hpeer₁
    ⟨.send (encodeFrame KIND_PAKE x.role own), .ok ()⟩
  have hno₂ := hno₁.append (a := ⟨.send (encodeFrame KIND_PAKE x.role own), .ok ()⟩) (by simp)
  generalize tr₁ ++ [⟨.send (encodeFrame KIND_PAKE x.role own), .ok ()⟩] = tr₂ at *
  -- the peer's is waited for
  refine Safe.bind (safe_skipUntil hread
    (J := fun tr => startMsg tr = some own ∧ peerMsg x.role tr = none ∧ NoConfirm tr)
    (fun _ h => h.2.2.confirmsOwn) ?_ ?_ (fun _ e _ => confirmed_error x e _) budget
    ⟨hstart₂, hpeer₂, hno₂⟩)
  · rintro tr a ⟨h₁, h₂, h₃⟩ ha hnone
    exact ⟨startMsg_append h₁ _, (peerMsg_append_none h₂ a).trans hnone,
      h₃.append fun _ _ _ => ha.ne_confirm⟩
  rintro tr a peer ⟨h₁, h₂, h₃⟩ ha hpeer₃
  have hstart₃ := startMsg_append h₁ [a]
  have hpeer₃ := (peerMsg_append_none h₂ a).trans hpeer₃
  have hno₃ : NoConfirm (tr ++ [a]) := h₃.append fun _ _ _ => ha.ne_confirm
  generalize tr ++ [a] = tr₃ at *
  refine ⟨hno₃.confirmsOwn, ?_⟩
  -- the key is derived and confirmed
  dsimp only
  cases hfin : Pake.finish P x.password x.context own peer with
  | error e => exact ⟨hno₃.confirmsOwn, confirmed_error x e _⟩
  | ok key =>
      have hkey : keyOf x tr₃ = some key := by
        rw [keyOf, hstart₃, Option.bind_some, hpeer₃, Option.bind_some, hfin]
        rfl
      rw [ofExcept_ok, ret_bind]
      refine Safe.bind ⟨hno₃.confirmsOwn, ?_⟩
      rintro tag _ rfl
      have hconf₄ : ConfirmsOwn x (tr₃ ++ [⟨.confirm key x.role, tag⟩]) := by
        refine hno₃.confirmsOwn.append hkey ?_
        intro key' role r he
        cases he
        exact ⟨rfl, rfl⟩
      have hkey₄ := keyOf_append hkey [⟨.confirm key x.role, tag⟩]
      generalize tr₃ ++ [⟨.confirm key x.role, tag⟩] = tr₄ at *
      refine ⟨hconf₄, ?_⟩
      dsimp only
      refine Safe.bind (safe_sendFrame hconf₄ (fun r => hconf₄.append hkey₄ (by simp)) ?_
        (fun e => confirmed_error x e _))
      have hconf₅ := hconf₄.append hkey₄
        (a := ⟨.send (encodeFrame KIND_CONFIRM x.role tag), .ok ()⟩) (by simp)
      have hkey₅ := keyOf_append hkey₄ [⟨.send (encodeFrame KIND_CONFIRM x.role tag), .ok ()⟩]
      generalize tr₄ ++ [⟨.send (encodeFrame KIND_CONFIRM x.role tag), .ok ()⟩] = tr₅ at *
      -- the peer's confirmation is waited for and checked
      have hkeep : ∀ tr a, ConfirmsOwn x tr ∧ keyOf x tr = some key → IsRead a →
          ConfirmsOwn x (tr ++ [a]) ∧ keyOf x (tr ++ [a]) = some key :=
        fun tr a h ha => ⟨h.1.append h.2 fun _ _ _ he => absurd he ha.ne_confirm,
          keyOf_append h.2 [a]⟩
      refine Safe.bind (safe_skipUntil hread
        (J := fun tr => ConfirmsOwn x tr ∧ keyOf x tr = some key)
        (fun _ h => h.1) (fun tr a h ha _ => hkeep tr a h ha) ?_
        (fun _ e _ => confirmed_error x e _) budget ⟨hconf₅, hkey₅⟩)
      rintro tr a mac h ha hmac
      obtain ⟨hconf, hkey₆⟩ := hkeep tr a h ha
      refine ⟨hconf, ?_⟩
      dsimp only
      split
      · next hver =>
          refine ⟨hconf, ?_⟩
          intro key' he
          cases he
          refine ⟨hkey₆, a, by simp, ?_⟩
          rw [hmac, Option.some.injEq]
          exact (beq_iff_eq.mp hver).symm
      · exact ⟨hconf, confirmed_error x mismatch _⟩

/-- The same for either handshake, from its beginning. -/
theorem Instance.safe (x : Instance) :
    Safe traced (ConfirmsOwn x) (Confirmed x) (x.prog P) [] := by
  have hnil : NoConfirm ([] : HsTrace P) := fun _ _ _ h => by cases h
  obtain ⟨transport, role, password, context, budget⟩ := x
  cases transport with
  | channel =>
      exact safe_exchange ⟨.channel, role, password, context, budget⟩ (.inr rfl) _ _ budget rfl rfl
        hnil
  | rendezvous =>
      refine ⟨hnil.confirmsOwn, ?_⟩
      rintro r _ rfl
      have hno : NoConfirm ([] ++ [⟨.subscribe context, r⟩] : HsTrace P) := hnil.append (by simp)
      cases r with
      | error e => exact ⟨hno.confirmsOwn, confirmed_error _ e _⟩
      | ok u =>
          exact safe_exchange ⟨.rendezvous, role, password, context, budget⟩ (.inl rfl) _ _ budget
            rfl rfl hno

/-! ## Many instances -/

/-- The ideal libraries: a key determines the password, the identity and the unordered pair of
messages it comes from, and a tag the key and the text. -/
structure Ideal (P : PakeLib) : Prop where
  finish_inj : ∀ {pw pw' : Bytes} {id id' : String} {m n m' n' : Bytes} {key : P.SessionKey},
    P.finish pw id m n = .ok key → P.finish pw' id' m' n' = .ok key →
      pw = pw' ∧ id = id' ∧ s(m, n) = s(m', n')
  hash_inj : ∀ {key key' : P.SessionKey} {t t' : Bytes},
    P.keyedHash key t = P.keyedHash key' t' → key = key' ∧ t = t'

theorem Ideal.pake_inj (hP : Ideal P) {pw pw' : Bytes} {c c' : String} {m n m' n' : Bytes}
    {key : P.SessionKey} (h : Pake.finish P pw c m n = .ok key)
    (h' : Pake.finish P pw' c' m' n' = .ok key) : pw = pw' ∧ c = c' ∧ s(m, n) = s(m', n') := by
  have hok : ∀ {pw c m n}, Pake.finish P pw c m n = .ok key →
      P.finish pw (Pake.identity c) m n = .ok key := by
    intro pw c m n h
    rw [Pake.finish] at h
    cases hf : P.finish pw (Pake.identity c) m n with
    | error e => rw [hf] at h; cases h
    | ok k => rw [hf] at h; simpa [Except.mapError] using h
  obtain ⟨hpw, hid, hpair⟩ := hP.finish_inj (hok h) (hok h')
  exact ⟨hpw, String.append_right_inj _ |>.mp hid, hpair⟩

theorem Ideal.confirmation_inj (hP : Ideal P) {key key' : P.SessionKey} {r r' : Role}
    (h : Pake.confirmation P key r = Pake.confirmation P key' r') : key = key' ∧ r = r' := by
  obtain ⟨hkey, htag⟩ := hP.hash_inj h
  refine ⟨hkey, ?_⟩
  cases r <;> cases r'
  · rfl
  · exact absurd htag (by decide)
  · exact absurd htag (by decide)
  · rfl

section network

variable {I : Type} [DecidableEq I] (xs : I → Instance)

/-- Deriving the key takes the password of an instance. -/
def Secret (key : P.SessionKey) : Prop :=
  ∃ i own peer, Pake.finish P (xs i).password (xs i).context own peer = .ok key

/-- What may happen next. `start` draws a message not drawn before. A frame an instance is delivered
may be anything, but for a confirmation under a secret key, which an instance must have computed.
Sending and subscribing may fail. -/
def Network (log : List (I × Action (hsEffects P))) : I × Action (hsEffects P) → Prop
  | (_, ⟨.start _ _, m⟩) => ∀ j pw id, (j, ⟨.start pw id, m⟩) ∉ log
  | (_, ⟨.confirm key role, tag⟩) => tag = Pake.confirmation P key role
  | (_, a) => ∀ kind role payload, taken kind role a = some payload → ∀ key r, Secret xs key →
      payload = Pake.confirmation P key r →
      ∃ j key' r' tag, (j, ⟨.confirm key' r', tag⟩) ∈ log ∧ Pake.confirmation P key' r' = payload

variable {xs}

omit [DecidableEq I] in
theorem Network.taken {log : List (I × Action (hsEffects P))} {i : I} {a : Action (hsEffects P)}
    (h : Network xs log (i, a)) {kind role : UInt8} {payload : Bytes}
    (ht : taken kind role a = some payload) {key : P.SessionKey} {r : Role} (hs : Secret xs key)
    (hp : payload = Pake.confirmation P key r) :
    ∃ j key' r' tag, (j, ⟨.confirm key' r', tag⟩) ∈ log ∧
      Pake.confirmation P key' r' = payload := by
  obtain ⟨op, res⟩ := a
  cases op with
  | start pw id => cases ht
  | confirm key role => cases ht
  | subscribe topic => cases ht
  | send frame => cases ht
  | next => exact h kind role payload ht key r hs hp
  | recv => exact h kind role payload ht key r hs hp

variable {log : List (I × Action (hsEffects P))} {qs : I → HsProg P P.SessionKey}

theorem start_mem_of_startMsg {tr : HsTrace P} {m : Bytes} (h : startMsg tr = some m) :
    ∃ pw id, (⟨.start pw id, m⟩ : Action (hsEffects P)) ∈ tr := by
  obtain ⟨a, hmem, ha⟩ := List.exists_of_findSome?_eq_some h
  obtain ⟨op, res⟩ := a
  cases op with
  | start pw id =>
      cases ha
      exact ⟨pw, id, hmem⟩
  | _ => cases ha

/-- No two instances draw the same message. -/
theorem startMsg_inj (hrun : Run (fun i => (xs i).prog P) (Network xs) log qs) {i j : I} {m : Bytes}
    (hi : startMsg (own i log) = some m) (hj : startMsg (own j log) = some m) : i = j := by
  obtain ⟨pw, id, hi⟩ := start_mem_of_startMsg hi
  obtain ⟨pw', id', hj⟩ := start_mem_of_startMsg hj
  rw [mem_own] at hi hj
  obtain ⟨before, later, heq, hfresh⟩ := hrun.allowed_of_mem hi
  rw [heq] at hj
  rcases List.mem_append.mp hj with hj | hj
  · exact absurd hj (hfresh j pw' id')
  rcases List.mem_cons.mp hj with hj | hj
  · exact (congrArg Prod.fst hj).symm
  · -- the later of the two was not fresh
    obtain ⟨l, l', rfl⟩ := List.append_of_mem hj
    have hlog : log = (before ++ (i, ⟨.start pw id, m⟩) :: l) ++ (j, ⟨.start pw' id', m⟩) :: l' := by
      rw [heq]
      simp
    have hlate := hrun.allowed hlog
    exact absurd (by simp) (hlate i pw id)

/-- The messages behind a derived key. -/
theorem keyOf_eq_some {x : Instance} {tr : HsTrace P} {key : P.SessionKey}
    (h : keyOf x tr = some key) : ∃ own peer, startMsg tr = some own ∧
      peerMsg x.role tr = some peer ∧ Pake.finish P x.password x.context own peer = .ok key := by
  obtain ⟨own, hown, h⟩ := Option.bind_eq_some_iff.mp h
  obtain ⟨peer, hpeer, h⟩ := Option.bind_eq_some_iff.mp h
  refine ⟨own, peer, hown, hpeer, ?_⟩
  cases hf : Pake.finish P x.password x.context own peer with
  | error e => rw [hf] at h; cases h
  | ok k =>
      rw [hf] at h
      exact congrArg _ (Option.some.inj h)

/-- Two instances of one run with the same key, but not one of them twice, have the same password
and context and consumed each other's messages. -/
theorem keyOf_inj (hP : Ideal P) (hrun : Run (fun i => (xs i).prog P) (Network xs) log qs) {i j : I}
    {key : P.SessionKey} (hi : keyOf (xs i) (own i log) = some key)
    (hj : keyOf (xs j) (own j log) = some key) (hne : i ≠ j) :
    (xs j).password = (xs i).password ∧ (xs j).context = (xs i).context ∧
      peerMsg (xs j).role (own j log) = startMsg (own i log) ∧
      startMsg (own j log) = peerMsg (xs i).role (own i log) := by
  obtain ⟨a, m, ha, hm, hfin⟩ := keyOf_eq_some hi
  obtain ⟨b, n, hb, hn, hfin'⟩ := keyOf_eq_some hj
  obtain ⟨hpw, hc, hpair⟩ := hP.pake_inj hfin' hfin
  refine ⟨hpw, hc, ?_⟩
  rw [ha, hb, hm, hn]
  rcases Sym2.eq_iff.mp hpair with ⟨rfl, rfl⟩ | ⟨rfl, rfl⟩
  · exact absurd (startMsg_inj hrun ha hb) hne
  · exact ⟨rfl, rfl⟩

/-- An instance that returns was confirmed by one of the opposite role, under the same key. -/
theorem exists_confirmer (hP : Ideal P)
    (hrun : Run (fun i => (xs i).prog P) (Network xs) log qs) {i : I} {key : P.SessionKey}
    (hret : qs i = .ret key) :
    keyOf (xs i) (own i log) = some key ∧
      ∃ j, (xs j).role = other (xs i).role ∧ keyOf (xs j) (own j log) = some key := by
  have hsafe := hrun.safe i (xs i).safe
  rw [hret] at hsafe
  obtain ⟨hkey, a, hmem, hmac⟩ := hsafe.2 key rfl
  refine ⟨hkey, ?_⟩
  obtain ⟨own₀, peer₀, -, -, hfin⟩ := keyOf_eq_some hkey
  obtain ⟨before, later, heq, hnet⟩ := hrun.allowed_of_mem (mem_own.mp hmem)
  obtain ⟨j, key', r', tag, hconf, htag⟩ := hnet.taken hmac ⟨i, own₀, peer₀, hfin⟩ rfl
  obtain ⟨rfl, rfl⟩ := hP.confirmation_inj htag
  have hj : (⟨.confirm key' (other (xs i).role), tag⟩ : Action (hsEffects P)) ∈ own j log := by
    rw [mem_own, heq]
    exact List.mem_append_left _ hconf
  obtain ⟨hrole, hkey'⟩ := (hrun.safe j (xs j).safe).here _ _ _ hj
  exact ⟨j, hrole.symm, hkey'⟩

theorem other_ne (r : Role) : other r ≠ r := by
  cases r <;> decide

/-- **Agreement.** An instance that returns `key` has exactly one partner: an instance of the
opposite role with the same password and context, that derived `key` and consumed its message. It
consumed that partner's message, so never one of an instance with another password or context, nor
its own; and the confirmation it accepted is not its own. -/
theorem agreement (hP : Ideal P) (hrun : Run (fun i => (xs i).prog P) (Network xs) log qs) :
    ∀ i key, qs i = .ret key →
      (∃! j, (xs j).role = other (xs i).role ∧ (xs j).password = (xs i).password ∧
        (xs j).context = (xs i).context ∧ keyOf (xs j) (own j log) = some key ∧
        peerMsg (xs j).role (own j log) = startMsg (own i log)) ∧
      (∀ j, peerMsg (xs i).role (own i log) = startMsg (own j log) →
        (xs j).password = (xs i).password ∧ (xs j).context = (xs i).context ∧ j ≠ i) ∧
      ∀ key' tag, (⟨.confirm key' (xs i).role, tag⟩ : Action (hsEffects P)) ∈ own i log →
        tag ≠ Pake.confirmation P key (other (xs i).role) := by
  intro i key hret
  obtain ⟨hkey, j, hrole, hkey'⟩ := exists_confirmer hP hrun hret
  have hne : ∀ j', (xs j').role = other (xs i).role → i ≠ j' := by
    rintro j' hr rfl
    exact other_ne _ hr.symm
  -- one key on both ends, so one password and one context
  obtain ⟨hpw, hc, hpeer, hstart⟩ := keyOf_inj hP hrun hkey hkey' (hne j hrole)
  obtain ⟨b, n, hb, -, -⟩ := keyOf_eq_some hkey'
  refine ⟨⟨j, ⟨hrole, hpw, hc, hkey', hpeer⟩, ?_⟩, ?_, ?_⟩
  · rintro j' ⟨hrole', -, -, hkey'', -⟩
    obtain ⟨-, -, -, hstart'⟩ := keyOf_inj hP hrun hkey hkey'' (hne j' hrole')
    exact startMsg_inj hrun ((hstart'.trans hstart.symm).trans hb) hb
  · intro j' hpeer'
    have hj' : j' = j := startMsg_inj hrun ((hpeer'.symm.trans hstart.symm).trans hb) hb
    subst hj'
    exact ⟨hpw, hc, (hne j' hrole).symm⟩
  · intro key' tag hmem htag
    obtain ⟨before, later, heq, hnet⟩ := hrun.allowed_of_mem (mem_own.mp hmem)
    -- its own tag names its own role, not the other
    have htag' : tag = Pake.confirmation P key' (xs i).role := hnet
    exact other_ne _ (hP.confirmation_inj (htag.symm.trans htag')).2

end network

/-! ## One such run -/

instance : Countable (Sym2 Bytes) := Quot.mk_surjective.countable

/-- A number for a key and a text. -/
noncomputable def tagNumber : (Bytes × String × Sym2 Bytes) × Bytes → Nat :=
  (exists_injective_nat ((Bytes × String × Sym2 Bytes) × Bytes)).choose

theorem tagNumber_injective : Function.Injective tagNumber :=
  (exists_injective_nat ((Bytes × String × Sym2 Bytes) × Bytes)).choose_spec

/-- Libraries as ideal as can be: a key is what it was derived from, and a tag is the number of the
key and the text, in unary. -/
noncomputable def idealLib : PakeLib where
  SessionKey := Bytes × String × Sym2 Bytes
  finish pw id own peer := .ok (pw, id, s(own, peer))
  keyedHash key text := List.replicate (tagNumber (key, text)) 0

theorem ideal_idealLib : Ideal idealLib where
  finish_inj h h' := by
    have heq := Except.ok.inj (h.trans h'.symm)
    rw [Prod.mk.injEq, Prod.mk.injEq] at heq
    exact heq
  hash_inj h := by
    have hlen := congrArg List.length h
    simp only [idealLib, List.length_replicate] at hlen
    have heq := tagNumber_injective hlen
    exact ⟨congrArg Prod.fst heq, congrArg Prod.snd heq⟩

/-- A receiver and a sender with the same password and context. -/
def pair : Bool → Instance
  | false => ⟨.channel, .receiver, [1], "t", 1⟩
  | true => ⟨.channel, .sender, [1], "t", 1⟩

/-- The key one of them derives. -/
noncomputable def keyFrom (own peer : Bytes) : idealLib.SessionKey :=
  ([1], Pake.identity "t", s(own, peer))

theorem keyFrom_comm (own peer : Bytes) : keyFrom own peer = keyFrom peer own := by
  rw [keyFrom, Sym2.eq_swap, keyFrom]

/-- The key they agree on, when they draw `[10]` and `[20]`. -/
noncomputable def pairKey : idealLib.SessionKey := keyFrom [10] [20]

/-- The log in which each is delivered the other's frames. -/
noncomputable def pairLog : List (Bool × Action (hsEffects idealLib)) :=
  let tag := Pake.confirmation idealLib pairKey
  [(false, ⟨.start [1] (Pake.identity "t"), [10]⟩),
    (true, ⟨.start [1] (Pake.identity "t"), [20]⟩),
    (false, ⟨.send (encodeFrame KIND_PAKE .receiver [10]), .ok ()⟩),
    (true, ⟨.send (encodeFrame KIND_PAKE .sender [20]), .ok ()⟩),
    (false, ⟨.recv, .ok (encodeFrame KIND_PAKE .sender [20])⟩),
    (true, ⟨.recv, .ok (encodeFrame KIND_PAKE .receiver [10])⟩),
    (false, ⟨.confirm pairKey .receiver, tag .receiver⟩),
    (true, ⟨.confirm pairKey .sender, tag .sender⟩),
    (false, ⟨.send (encodeFrame KIND_CONFIRM .receiver (tag .receiver)), .ok ()⟩),
    (true, ⟨.send (encodeFrame KIND_CONFIRM .sender (tag .sender)), .ok ()⟩),
    (false, ⟨.recv, .ok (encodeFrame KIND_CONFIRM .sender (tag .sender))⟩),
    (true, ⟨.recv, .ok (encodeFrame KIND_CONFIRM .receiver (tag .receiver))⟩)]

theorem verify_confirmation (key : idealLib.SessionKey) (role : Role) :
    Pake.verifyConfirmation idealLib key role (Pake.confirmation idealLib key role) = true :=
  beq_self_eq_true _

/-- A frame with a byte other than zero in its payload holds no tag. -/
theorem ne_confirmation {b : UInt8} (hb : b ≠ 0) (key : idealLib.SessionKey) (role : Role) :
    [b] ≠ Pake.confirmation idealLib key role := by
  intro h
  have hmem : b ∈ Pake.confirmation idealLib key role := by rw [← h]; exact List.mem_singleton_self b
  exact hb (List.eq_of_mem_replicate hmem)

theorem eq_of_taken {k : UInt8} {r : Role} {p payload : Bytes} {kind role : UInt8}
    (h : taken kind role (⟨.recv, .ok (encodeFrame k r p)⟩ : Action (hsEffects idealLib))
      = some payload) : payload = p := by
  simp only [taken, delivered, Option.bind_some, encodeFrame, decodeFrame,
    Option.ite_none_right_eq_some, Option.some.injEq] at h
  exact h.2.symm

theorem follows_pairLog (i : Bool) :
    Follows ((pair i).prog idealLib) (own i pairLog) (.ret pairKey) := by
  cases i with
  | false =>
      refine .cons (.cons (.cons (.cons (.cons (.cons ?_)))))
      show Follows (if Pake.verifyConfirmation idealLib pairKey .sender
        (Pake.confirmation idealLib pairKey .sender) then ret pairKey else _) [] _
      rw [if_pos (verify_confirmation _ _)]
      exact .nil _
  | true =>
      rw [pairLog, pairKey, keyFrom_comm]
      refine .cons (.cons (.cons (.cons (.cons (.cons ?_)))))
      show Follows (if Pake.verifyConfirmation idealLib (keyFrom [20] [10]) .receiver
        (Pake.confirmation idealLib (keyFrom [20] [10]) .receiver) then ret _ else _) [] _
      rw [if_pos (verify_confirmation _ _)]
      exact .nil _

theorem run_pairLog :
    Run (fun i => (pair i).prog idealLib) (Network pair) pairLog (fun _ => .ret pairKey) := by
  refine ⟨follows_pairLog, ?_⟩
  refine ⟨?_, ?_, ?_, ?_, ?_, ?_, ?_, ?_, ?_, ?_, ?_, ?_, trivial⟩
  · simp [Network]
  · simp [Network]
  · rintro kind role payload ht
    cases ht
  · rintro kind role payload ht
    cases ht
  · intro kind role payload ht key r _ hp
    exact absurd ((eq_of_taken ht).symm.trans hp) (ne_confirmation (by decide) key r)
  · intro kind role payload ht key r _ hp
    exact absurd ((eq_of_taken ht).symm.trans hp) (ne_confirmation (by decide) key r)
  · rfl
  · rfl
  · rintro kind role payload ht
    cases ht
  · rintro kind role payload ht
    cases ht
  · intro kind role payload ht key r _ _
    exact ⟨true, pairKey, .sender, Pake.confirmation idealLib pairKey .sender, by simp,
      (eq_of_taken ht).symm⟩
  · intro kind role payload ht key r _ _
    exact ⟨false, pairKey, .receiver, Pake.confirmation idealLib pairKey .receiver, by simp,
      (eq_of_taken ht).symm⟩

/-- In that run the receiver has exactly one partner. -/
theorem agreement_pairLog : ∃! j, (pair j).role = other (pair false).role ∧
    (pair j).password = (pair false).password ∧ (pair j).context = (pair false).context ∧
    keyOf (pair j) (own j pairLog) = some pairKey ∧
    peerMsg (pair j).role (own j pairLog) = startMsg (own false pairLog) :=
  (agreement ideal_idealLib run_pairLog false pairKey rfl).1

end Handshake
end B2p
