import B2p.Session.Whole
import B2p.Relay.Fifo

/-!
# Two calls over the relay channel

`send_relay` and `receive_relay` are written against `dyn MsgChannel`; what they are given is a
`RelayChannel`. Here each program holds the application's end of one, and what runs beside the two programs
is both their `io_task`s, the two websockets and the relay between them: frames are queued, packed,
cut, delivered and acknowledged, the window closes and opens, tasks end and sockets drop, in any order.

* `Stack`, `Stack.Step` — the two programs, their hosts and the network, and one step of any of them.
* `Refines` — what the stack has done is a run of the two programs over a lossy queue of frames; each step
  keeps it.
* `stack_refines` — so what is known of such runs holds of the stack.
-/

namespace B2p

open Interaction Prog
open B2p.Stream (streamManifest)

namespace Session

variable {P : PakeLib}

/-! ## The stack -/

/-- Two programs, each with its host and its end of the network; `log` is what the programs have done. -/
structure Stack (P : PakeLib) where
  progs : Side → OverProg P String
  hosts : Side → End
  net : Net
  log : List (Side × OverAction P)

/-- Side `s` has performed `a`, goes on with `q`, and leaves the network as `net`. -/
def Stack.did (t : Stack P) (s : Side) (a : OverAction P) (q : OverProg P String) (net : Net) : Stack P where
  progs := Function.update t.progs s q
  hosts := t.hosts
  net := net
  log := t.log ++ [(s, a)]

/-- The steps of `io_task`. -/
def ofIoTask : RelayChannel.Act → Prop
  | .send _ _ => False
  | .recv => False
  | .close => False
  | .drop => False
  | _ => True

/-- A local operation that has nothing to do with the channel. -/
def OffChannel : CallOp P → Prop
  | .linger => False
  | .close => False
  | _ => True

/-- One step of a program, of an `io_task`, or of the relay. -/
inductive Stack.Step (X : Externals) (t : Stack P) : Stack P → Prop where
  /-- `ch.send` returns `r`. -/
  | send {s : Side} {m : Bytes} {k : Except Anyhow Unit → OverProg P String} {stalled : Bool}
      {r : Except Anyhow Unit} {e : RelayChannel} {net : Net} (hp : t.progs s = .step (.send m) k)
      (hr : (t.net.ends s).send m stalled = some (r, e))
      (hs : t.net.step (.move s (.send m stalled)) = some net) :
      Step X t (t.did s ⟨.send m, r⟩ (k r) net)
  /-- `ch.recv` returns `r`. -/
  | recv {s : Side} {k : Except Anyhow Bytes → OverProg P String} {r : Except Anyhow Bytes}
      {e : RelayChannel} {net : Net} (hp : t.progs s = .step .recv k)
      (hr : (t.net.ends s).recv = some (r, e)) (hs : t.net.step (.move s .recv) = some net) :
      Step X t (t.did s ⟨.recv, r⟩ (k r) net)
  | work {s : Side} {o : CallOp P} {k : o.Res → OverProg P String} (hp : t.progs s = .step (.loc o) k)
      (ho : OffChannel o) :
      Step X t { t.did s ⟨.loc o, (End.handle X o (t.hosts s)).1⟩ (k (End.handle X o (t.hosts s)).1) t.net with
        hosts := Function.update t.hosts s (End.handle X o (t.hosts s)).2 }
  /-- The `recv` of the lingering receiver, whose outcome is dropped; or its ten seconds are over. -/
  | linger {s : Side} {k : Unit → OverProg P String} {net : Net} (hp : t.progs s = .step (.loc .linger) k)
      (hs : net = t.net ∨ t.net.step (.move s .recv) = some net) :
      Step X t (t.did s ⟨.loc .linger, ()⟩ (k ()) net)
  | close {s : Side} {k : Unit → OverProg P String} {net : Net} (hp : t.progs s = .step (.loc .close) k)
      (hs : t.net.step (.move s .close) = some net) : Step X t (t.did s ⟨.loc .close, ()⟩ (k ()) net)
  /-- A call that has ended drops its channel. -/
  | drop {s : Side} {net : Net} (hp : IsLeaf (t.progs s)) (hs : t.net.step (.move s .drop) = some net) :
      Step X t { t with net := net }
  | io {s : Side} {a : RelayChannel.Act} {net : Net} (ha : ofIoTask a)
      (hs : t.net.step (.move s a) = some net) : Step X t { t with net := net }
  | relay {s : Side} {n : RelayNotice} {net : Net} (hs : t.net.step (.relay s n) = some net) :
      Step X t { t with net := net }

/-- Both sides have just been told that the other is there. -/
def Meeting.stack (X : Externals) (streamKey : P.SessionKey → Key) (x : Meeting) (fs : Fs) : Stack P where
  progs := x.party X streamKey
  hosts := x.start fs
  net := .init
  log := []

/-- What can come of the two calls. -/
abbrev Meeting.Reaches (X : Externals) (streamKey : P.SessionKey → Key) (x : Meeting) (fs : Fs)
    (t : Stack P) : Prop :=
  Relation.ReflTransGen (Stack.Step X) (x.stack X streamKey fs) t

end Session

/-! ## What a step does to the histories -/

namespace RelayChannel

variable {e e' : RelayChannel} {incoming incoming' out : List WsMessage}

/-- Same application end, and the same frames through it. -/
structure SameHistory (e e' : RelayChannel) : Prop where
  app : e'.app = e.app
  accepted : e'.accepted = e.accepted
  received : e'.received = e.received

theorem sameHistory_handle (e : RelayChannel) (m : WsMessage) : SameHistory e (e.handle m) := by
  cases m with
  | binary b =>
      rw [handle]
      split
      · exact ⟨rfl, rfl, rfl⟩
      · exact ⟨rfl, rfl, rfl⟩
  | text c => cases c <;> exact ⟨rfl, rfl, rfl⟩
  | close => exact ⟨rfl, rfl, rfl⟩

/-- `io_task` neither accepts frames nor returns any. -/
theorem sameHistory_ioStep {a : Act} (h : e.ioStep incoming a = some (e', incoming', out)) :
    SameHistory e e' := by
  cases a with
  | flush res =>
      obtain ⟨⟨e₁, out₁⟩, hf, heq⟩ := Option.map_eq_some_iff.mp h
      cases heq
      rw [flush] at hf
      split at hf
      · cases res <;> cases hf <;> exact ⟨rfl, rfl, rfl⟩
      · cases hf
  | shut =>
      obtain ⟨e₁, hf, heq⟩ := Option.map_eq_some_iff.mp h
      cases heq
      obtain ⟨-, hf⟩ := Option.ite_none_right_eq_some.mp hf
      cases hf
      exact ⟨rfl, rfl, rfl⟩
  | take =>
      obtain ⟨e₁, hf, heq⟩ := Option.map_eq_some_iff.mp h
      cases heq
      obtain ⟨-, hf⟩ := Option.ite_none_right_eq_some.mp hf
      split at hf
      · cases hf
        exact ⟨rfl, rfl, rfl⟩
      · cases hf
        exact ⟨rfl, rfl, rfl⟩
      · obtain ⟨-, hf⟩ := Option.ite_none_right_eq_some.mp hf
        cases hf
        exact ⟨rfl, rfl, rfl⟩
  | tryRecv =>
      obtain ⟨e₁, hf, heq⟩ := Option.map_eq_some_iff.mp h
      cases heq
      obtain ⟨-, hf⟩ := Option.ite_none_right_eq_some.mp hf
      split at hf <;> cases hf <;> exact ⟨rfl, rfl, rfl⟩
  | ping ok =>
      obtain ⟨e₁, hf, heq⟩ := Option.map_eq_some_iff.mp h
      cases heq
      obtain ⟨-, hf⟩ := Option.ite_none_right_eq_some.mp hf
      split at hf <;> cases hf <;> exact ⟨rfl, rfl, rfl⟩
  -- even a message that ends the task adds nothing to what was returned
  | next =>
      obtain ⟨⟨e₁, rest₁⟩, hf, heq⟩ := Option.map_eq_some_iff.mp h
      cases heq
      unfold next at hf
      split at hf
      · cases hf
      · obtain ⟨-, hf⟩ := Option.ite_none_right_eq_some.mp hf
        cases hf
        exact sameHistory_handle e _
  | hangUp err =>
      obtain ⟨e₁, hf, heq⟩ := Option.map_eq_some_iff.mp h
      cases heq
      obtain ⟨-, hf⟩ := Option.ite_none_right_eq_some.mp hf
      split at hf <;> cases hf <;> exact ⟨rfl, rfl, rfl⟩
  | count =>
      obtain ⟨e₁, hf, heq⟩ := Option.map_eq_some_iff.mp h
      cases heq
      rw [count] at hf
      split at hf <;> cases hf
      exact ⟨rfl, rfl, rfl⟩
  | offer =>
      obtain ⟨e₁, hf, heq⟩ := Option.map_eq_some_iff.mp h
      cases heq
      rw [offer] at hf
      split at hf
      · split at hf
        · cases hf
          exact ⟨rfl, rfl, rfl⟩
        · obtain ⟨-, hf⟩ := Option.ite_none_right_eq_some.mp hf
          cases hf
          exact ⟨rfl, rfl, rfl⟩
      · cases hf
  | ack ok =>
      obtain ⟨⟨e₁, out₁⟩, hf, heq⟩ := Option.map_eq_some_iff.mp h
      cases heq
      obtain ⟨-, hf⟩ := Option.ite_none_right_eq_some.mp hf
      split at hf
      · split at hf <;> cases hf <;> exact ⟨rfl, rfl, rfl⟩
      · cases hf
        exact ⟨rfl, rfl, rfl⟩
  | _ => cases h

theorem history_send {m : Bytes} {stalled : Bool} {r : Except Anyhow Unit}
    (h : e.send m stalled = some (r, e')) :
    e'.received = e.received ∧
      (r = .ok () ∧ e'.accepted = e.accepted ++ [m] ∨ (∃ err, r = .error err) ∧ e'.accepted = e.accepted) := by
  rw [send] at h
  split at h
  · cases h
    exact ⟨rfl, .inr ⟨⟨_, rfl⟩, rfl⟩⟩
  split at h
  · split at h
    · cases h
      exact ⟨rfl, .inr ⟨⟨_, rfl⟩, rfl⟩⟩
    · cases h
      exact ⟨rfl, .inl ⟨rfl, rfl⟩⟩
  split at h
  · cases h
    exact ⟨rfl, .inr ⟨⟨_, rfl⟩, rfl⟩⟩
  split at h
  · cases h
    exact ⟨rfl, .inr ⟨⟨_, rfl⟩, rfl⟩⟩
  · cases h

theorem history_recv {r : Except Anyhow Bytes} (h : e.recv = some (r, e')) :
    e'.accepted = e.accepted ∧
      ((∃ f, r = .ok f ∧ e'.received = e.received ++ [f]) ∨
        (∃ err, r = .error err) ∧ e'.received = e.received) := by
  rw [recv] at h
  split at h
  · cases h
    exact ⟨rfl, .inl ⟨_, rfl, rfl⟩⟩
  split at h
  · cases h
    exact ⟨rfl, .inr ⟨⟨_, rfl⟩, rfl⟩⟩
  · cases h

/-- Closing a channel and dropping it leave the histories. -/
theorem history_leave {a : Act} (ha : a = .close ∨ a = .drop) (h : e.appStep a = some e') :
    e'.accepted = e.accepted ∧ e'.received = e.received := by
  rcases ha with rfl | rfl
  · obtain ⟨-, h⟩ := Option.ite_none_right_eq_some.mp h
    cases h
    exact ⟨rfl, rfl⟩
  · obtain ⟨-, h⟩ := Option.ite_none_right_eq_some.mp h
    cases h
    exact ⟨rfl, rfl⟩

end RelayChannel

namespace Net

variable {net net' : Net} {s : Side}

/-- A step of one side leaves the other's endpoint as it is. -/
theorem ends_move {a : RelayChannel.Act} (hs : net.step (.move s a) = some net') :
    ∃ e, net'.ends = Function.update net.ends s e ∧
      ((net.ends s).appStep a = some e ∨
        (net.ends s).appStep a = none ∧
          ∃ inc out, (net.ends s).ioStep (net.wire s) a = some (e, inc, out)) := by
  obtain ⟨⟨e, inc, out⟩, hstep, rfl⟩ := Option.map_eq_some_iff.mp hs
  refine ⟨e, rfl, ?_⟩
  rw [RelayChannel.step] at hstep
  split at hstep
  · next e₁ happ =>
      cases hstep
      exact .inl happ
  · next happ =>
      obtain ⟨-, hio⟩ := Option.ite_none_right_eq_some.mp hstep
      exact .inr ⟨happ, inc, out, hio⟩

/-- `send` as the application called it. -/
theorem ends_send {m : Bytes} {stalled : Bool} {r : Except Anyhow Unit} {e : RelayChannel}
    (hr : (net.ends s).send m stalled = some (r, e)) (hs : net.step (.move s (.send m stalled)) = some net') :
    net'.ends = Function.update net.ends s e ∧ (net.ends s).app = .live := by
  obtain ⟨e₁, hends, happ | ⟨-, inc, out, hio⟩⟩ := ends_move hs
  · obtain ⟨hlive, happ⟩ := Option.ite_none_right_eq_some.mp happ
    rw [hr] at happ
    cases happ
    exact ⟨hends, hlive⟩
  · cases hio

theorem ends_recv {r : Except Anyhow Bytes} {e : RelayChannel} (hr : (net.ends s).recv = some (r, e))
    (hs : net.step (.move s .recv) = some net') :
    net'.ends = Function.update net.ends s e ∧ (net.ends s).app = .live := by
  obtain ⟨e₁, hends, happ | ⟨-, inc, out, hio⟩⟩ := ends_move hs
  · obtain ⟨hlive, happ⟩ := Option.ite_none_right_eq_some.mp happ
    rw [hr] at happ
    cases happ
    exact ⟨hends, hlive⟩
  · cases hio

/-- A step that is not of the programs leaves the histories. -/
theorem history_move {a : RelayChannel.Act} (ha : a = .close ∨ a = .drop ∨ Session.ofIoTask a)
    (hs : net.step (.move s a) = some net') (p : Side) :
    (net'.ends p).accepted = (net.ends p).accepted ∧ (net'.ends p).received = (net.ends p).received := by
  obtain ⟨e, hends, h⟩ := ends_move hs
  rw [hends]
  by_cases hp : p = s
  swap
  · rw [Function.update_of_ne hp]
    exact ⟨rfl, rfl⟩
  subst hp
  rw [Function.update_self]
  rcases h with happ | ⟨-, inc, out, hio⟩
  · rcases ha with rfl | rfl | ha
    · exact RelayChannel.history_leave (.inl rfl) happ
    · exact RelayChannel.history_leave (.inr rfl) happ
    · cases a <;> first | cases happ | exact ha.elim
  · exact ⟨(RelayChannel.sameHistory_ioStep hio).accepted, (RelayChannel.sameHistory_ioStep hio).received⟩

end Net

namespace Session

variable {P : PakeLib}

/-! ## The stack refines a lossy queue -/

/-- Nothing is received any more. -/
def Hushed : OverProg P String → Prop := Only (· ≠ .recv)

/-- Once a program has lingered, it receives nothing any more. -/
def LingersLast : OverProg P String → Prop
  | .ret _ => True
  | .fail _ => True
  | .step o k => ∀ r, (o = .loc .linger → Hushed (k r)) ∧ LingersLast (k r)

/-- An operation that is neither the lingering nor the closing. -/
def Working : Comm Bytes (callEffects P) → Prop
  | .loc o => OffChannel o
  | _ => True

theorem LingersLast.bind {α : Type} {p : Prog (overEffects P) Anyhow α} {f : α → OverProg P String}
    (hp : Only Working p) (hf : ∀ a, LingersLast (f a)) : LingersLast (p >>= f) := by
  induction p with
  | ret a => exact hf a
  | fail e => trivial
  | step o k ih =>
      refine fun r => ⟨?_, ih r (hp.2 r)⟩
      rintro rfl
      exact hp.1.elim

theorem working_handshakeOver (budget : Nat) (topic : String) (password : Bytes) (role : Pake.Role) :
    Only Working (handshakeOver (P := P) budget topic password role) := by
  refine Only.interp (fun o => ?_) _
  cases o <;> first | trivial | exact ⟨trivial, fun _ => trivial⟩

theorem working_within {α : Type} (sk : Key) (p : StreamProg α) :
    Only Working (p.within (hosted (P := P) sk)) := by
  induction p with
  | ret a => trivial
  | fail e => trivial
  | step o k ih => cases o <;> exact ⟨trivial, fun r => ih _⟩

/-- The receiver lingers when the transfer is over, the sender not at all. -/
theorem lingersLast_party (X : Externals) (streamKey : P.SessionKey → Key) (x : Meeting) (s : Side) :
    LingersLast (x.party X streamKey s) := by
  cases s with
  | left =>
      show LingersLast ((Call.sendRelay x.source).over X streamKey _ x.topic x.passwordS)
      rw [sendRelay_over]
      refine LingersLast.bind (working_handshakeOver _ x.topic x.passwordS .sender).attempt fun r => ?_
      cases r with
      | error e => trivial
      | ok key =>
          show LingersLast ((Stream.sendSource X (streamKey key) x.source).within (hosted (streamKey key)) >>=
            afterSend)
          -- the sender closes at once
          exact LingersLast.bind (working_within ..) fun _ _ => ⟨by simp, trivial⟩
  | right =>
      show LingersLast ((Call.receiveRelay x.outDir).over X streamKey _ x.topic x.passwordR)
      rw [receiveRelay_over]
      refine LingersLast.bind (working_handshakeOver _ x.topic x.passwordR .receiver).attempt fun r => ?_
      cases r with
      | error e => trivial
      | ok key =>
          show LingersLast ((Stream.recvInto X (streamKey key) x.outDir).within (hosted (streamKey key)) >>=
            afterReceive)
          refine LingersLast.bind (working_within ..) fun _ _ => ⟨fun _ => ?_, fun _ => ⟨by simp, trivial⟩⟩
          exact ⟨by simp, fun _ => trivial⟩

section refinement

variable {X : Externals} {ps : Side → OverProg P String} {h₀ : Side → End} {t t' : Stack P}

variable (X) in
/-- **The stack as a run of the two programs over a lossy queue of frames**: what `send` has accepted is
what was sent, and what `recv` has returned is what was taken, up to frames that a lingering receiver
dropped. -/
structure Refines (ps : Side → OverProg P String) (h₀ : Side → End) (t : Stack P) : Prop where
  run : Run ps (Prog.Fifo True (fun _ => End.handle X) h₀) t.log t.progs
  hosts : ∀ s, t.hosts s = after (End.handle X) (h₀ s) (own s t.log)
  net : t.net.Reachable
  accepted : ∀ s, (t.net.ends s).accepted = sent (own s t.log)
  received : ∀ s, (t.net.ends s).received = got (own s t.log) ∨ Hushed (t.progs s)
  last : ∀ s, LingersLast (t.progs s)

theorem Refines.did (hr : Refines X ps h₀ t) {s : Side} {o : Comm Bytes (callEffects P)}
    {k : Comm.Res Anyhow o → OverProg P String} {r : Comm.Res Anyhow o} {net : Net}
    (hp : t.progs s = .step o k) (hR : Prog.Fifo True (fun _ => End.handle X) h₀ t.log (s, ⟨o, r⟩))
    (hnet : net.Reachable) (hother : ∀ p, p ≠ s → net.ends p = t.net.ends p)
    (hacc : (net.ends s).accepted = (t.net.ends s).accepted ++ sent [(⟨o, r⟩ : OverAction P)])
    (hrec : (net.ends s).received = (t.net.ends s).received ++ got [(⟨o, r⟩ : OverAction P)] ∨ Hushed (k r))
    {hosts : Side → End}
    (hhosts : ∀ p, hosts p = after (End.handle X) (h₀ p) (own p (t.log ++ [(s, ⟨o, r⟩)]))) :
    Refines X ps h₀ { t.did s ⟨o, r⟩ (k r) net with hosts := hosts } := by
  have hlast := hr.last s
  rw [hp] at hlast
  refine ⟨hr.run.extend hp hR, hhosts, hnet, ?_, ?_, ?_⟩
  · intro p
    by_cases hps : p = s
    · subst hps
      show (net.ends p).accepted = sent (own p (t.log ++ [(p, ⟨o, r⟩)]))
      rw [own_snoc_self, sent_append, ← hr.accepted, hacc]
    · show (net.ends p).accepted = sent (own p (t.log ++ [(s, ⟨o, r⟩)]))
      rw [own_snoc_of_ne (Ne.symm hps), ← hr.accepted, hother p hps]
  · intro p
    by_cases hps : p = s
    · subst hps
      show (net.ends p).received = got (own p (t.log ++ [(p, ⟨o, r⟩)])) ∨
        Hushed (Function.update t.progs p (k r) p)
      rw [own_snoc_self, got_append, Function.update_self]
      -- what it has received is what it took, or it listens no more
      rcases hr.received p with hsame | hhush
      · rw [← hsame]
        exact hrec
      · rw [hp] at hhush
        exact .inr (hhush.2 r)
    · show (net.ends p).received = got (own p (t.log ++ [(s, ⟨o, r⟩)])) ∨
        Hushed (Function.update t.progs s (k r) p)
      rw [own_snoc_of_ne (Ne.symm hps), Function.update_of_ne hps, hother p hps]
      exact hr.received p
  · intro p
    show LingersLast (Function.update t.progs s (k r) p)
    by_cases hps : p = s
    · subst hps
      rw [Function.update_self]
      exact (hlast r).2
    · rw [Function.update_of_ne hps]
      exact hr.last p

/-- A step of the network alone. -/
theorem Refines.move (hr : Refines X ps h₀ t) {net : Net} (hnet : net.Reachable)
    (hsame : ∀ p, (net.ends p).accepted = (t.net.ends p).accepted ∧
      (net.ends p).received = (t.net.ends p).received) : Refines X ps h₀ { t with net := net } := by
  refine ⟨hr.run, hr.hosts, hnet, fun p => ?_, fun p => ?_, hr.last⟩
  · rw [(hsame p).1]
    exact hr.accepted p
  · rw [(hsame p).2]
    exact hr.received p

/-- Talking and closing leave the hosts. -/
theorem Refines.hosts_snoc (hr : Refines X ps h₀ t) {s : Side} {a : OverAction P}
    (ha : ∀ σ, after (End.handle X) σ [a] = σ) (p : Side) :
    t.hosts p = after (End.handle X) (h₀ p) (own p (t.log ++ [(s, a)])) := by
  by_cases hps : p = s
  · subst hps
    rw [own_snoc_self, after_append, ha]
    exact hr.hosts p
  · rw [own_snoc_of_ne (Ne.symm hps)]
    exact hr.hosts p

/-- **Every step of the stack keeps the refinement.** -/
theorem Refines.step (hr : Refines X ps h₀ t) (hs : Stack.Step X t t') : Refines X ps h₀ t' := by
  cases hs with
  | @send s m k stalled r e net hp hsend hs =>
      obtain ⟨hends, -⟩ := Net.ends_send hsend hs
      obtain ⟨hrec, hacc⟩ := RelayChannel.history_send hsend
      refine hr.did hp ?_ (.step hr.net hs) (fun p hps => by rw [hends, Function.update_of_ne hps]) ?_ ?_
        (hr.hosts_snoc fun _ => rfl)
      · cases r <;> trivial
      · rw [hends, Function.update_self]
        -- accepted if `send` gave `Ok`
        rcases hacc with ⟨rfl, hacc⟩ | ⟨⟨err, rfl⟩, hacc⟩
        · exact hacc
        · exact hacc.trans (List.append_nil _).symm
      · refine .inl ?_
        rw [hends, Function.update_self, hrec]
        exact (List.append_nil _).symm
  | @recv s k r e net hp hrecv hs =>
      obtain ⟨hends, -⟩ := Net.ends_recv hrecv hs
      obtain ⟨hacc, hrec⟩ := RelayChannel.history_recv hrecv
      have hnet : net.Reachable := .step hr.net hs
      -- it is still listening, so what was returned so far is what it took
      have hsame : (t.net.ends s).received = got (own s t.log) := by
        refine (hr.received s).resolve_right fun hh => ?_
        rw [hp] at hh
        exact hh.1 rfl
      refine hr.did hp ?_ hnet (fun p hps => by rw [hends, Function.update_of_ne hps]) ?_ ?_
        (hr.hosts_snoc fun _ => rfl)
      · rcases hrec with ⟨f, rfl, hrec⟩ | ⟨⟨err, rfl⟩, -⟩
        swap
        · trivial
        -- what is returned next is the next the peer has sent: the channel is a queue
        have hpre := hnet.received s.peer
        have hpeer : s.peer ≠ s := by cases s <;> decide
        rw [show s.peer.peer = s by cases s <;> rfl, hends, Function.update_self,
          Function.update_of_ne hpeer, hrec, hsame, hr.accepted] at hpre
        show (sent (own s.peer t.log))[(got (own s t.log)).length]? = some f
        exact getElem?_of_prefix hpre (by
          rw [List.getElem?_append_right le_rfl, Nat.sub_self]
          rfl)
      · rw [hends, Function.update_self, hacc]
        exact (List.append_nil _).symm
      · refine .inl ?_
        rw [hends, Function.update_self]
        rcases hrec with ⟨f, rfl, hrec⟩ | ⟨⟨err, rfl⟩, hrec⟩
        · exact hrec
        · exact hrec.trans (List.append_nil _).symm
  | @work s o k hp ho =>
      refine hr.did hp ?_ hr.net (fun _ _ => rfl) (List.append_nil _).symm (.inl (List.append_nil _).symm) ?_
      · show _ = (End.handle X o (after (End.handle X) (h₀ s) (own s t.log))).1
        rw [← hr.hosts]
      · intro p
        by_cases hps : p = s
        · subst hps
          rw [Function.update_self, own_snoc_self, after_append, ← hr.hosts]
          rfl
        · rw [Function.update_of_ne hps, own_snoc_of_ne (Ne.symm hps)]
          exact hr.hosts p
  | @linger s k net hp hs =>
      -- after lingering there is only the close
      have hhush : Hushed (k ()) := by
        have hlast := hr.last s
        rw [hp] at hlast
        exact (hlast ()).1 rfl
      have hnet : net.Reachable ∧ (∀ p, p ≠ s → net.ends p = t.net.ends p) ∧
          (net.ends s).accepted = (t.net.ends s).accepted := by
        rcases hs with rfl | hs
        · exact ⟨hr.net, fun _ _ => rfl, rfl⟩
        obtain ⟨e, hends, happ | ⟨-, inc, out, hio⟩⟩ := Net.ends_move hs
        · refine ⟨.step hr.net hs, fun p hps => by rw [hends, Function.update_of_ne hps], ?_⟩
          obtain ⟨-, happ⟩ := Option.ite_none_right_eq_some.mp happ
          obtain ⟨⟨r, e₁⟩, hrecv, rfl⟩ := Option.map_eq_some_iff.mp happ
          rw [hends, Function.update_self]
          exact (RelayChannel.history_recv hrecv).1
        · cases hio
      exact hr.did hp rfl hnet.1 hnet.2.1 (hnet.2.2.trans (List.append_nil _).symm) (.inr hhush)
        (hr.hosts_snoc fun _ => rfl)
  | @close s k net hp hs =>
      obtain ⟨e, hends, -⟩ := Net.ends_move hs
      have hhist := Net.history_move (.inl rfl) hs s
      refine hr.did hp rfl (.step hr.net hs) (fun p hps => by rw [hends, Function.update_of_ne hps])
        (hhist.1.trans (List.append_nil _).symm) (.inl (hhist.2.trans (List.append_nil _).symm))
        (hr.hosts_snoc fun _ => rfl)
  | drop _ hs => exact hr.move (.step hr.net hs) (Net.history_move (.inr (.inl rfl)) hs)
  | io ha hs => exact hr.move (.step hr.net hs) (Net.history_move (.inr (.inr ha)) hs)
  | relay hs =>
      refine hr.move (.step hr.net hs) fun p => ?_
      cases hs
      exact ⟨rfl, rfl⟩

theorem Refines.reaches (hr : Refines X ps h₀ t) (hs : Relation.ReflTransGen (Stack.Step X) t t') :
    Refines X ps h₀ t' := by
  induction hs with
  | refl => exact hr
  | tail _ hs ih => exact ih.step hs

end refinement

/-! ## What the stack comes to -/

section stack

variable {X : Externals} {streamKey : P.SessionKey → Key} {x : Meeting} {keyS keyR : P.SessionKey}
  {fs : Fs} {t : Stack P}

theorem refines_start : Refines X (x.party X streamKey) (x.start fs) (x.stack X streamKey fs) where
  run := ⟨fun _ => .nil _, trivial⟩
  hosts _ := rfl
  net := .init
  accepted _ := rfl
  received _ := .inl rfl
  last := lingersLast_party X streamKey x

theorem Meeting.Reaches.refines (h : x.Reaches X streamKey fs t) :
    Refines X (x.party X streamKey) (x.start fs) t := refines_start.reaches h

variable (X streamKey) in
/-- An attempt at the call of `x` on a stack of its own: the two draw anew and may mistake the password, and
the network does what it likes. -/
def StackAttempt (x : Meeting) (fs fs' : Fs) : Prop :=
  ∃ (y : Meeting) (keyS keyR : P.SessionKey) (t : Stack P), y.source = x.source ∧ y.content = x.content ∧
    y.outDir = x.outDir ∧ y.Exchanged P keyS keyR ∧ y.Reaches X streamKey fs t ∧ IsLeaf (t.progs .right) ∧
    fs' = (t.hosts .right).host.disk

theorem StackAttempt.call {fs' : Fs} (h : StackAttempt X streamKey x fs fs') :
    CallAttempt X streamKey x fs fs' := by
  obtain ⟨y, keyS, keyR, t, hys, hyc, hyo, hy, ht, hleaf, rfl⟩ := h
  refine ⟨y, keyS, keyR, t.log, t.progs, hys, hyc, hyo, hy, ht.refines.run, hleaf, ?_⟩
  rw [ht.refines.hosts]
  rfl

/-- **Over the relay channel, too, `Ok` means delivered.** Both calls run on their own `RelayChannel`, with
their `io_task`s, the sockets and the relay between them taking steps in any order and failing at any time.
What the programs have done is a run over a lossy queue of frames; so if either call has returned `Ok`, they
had the same password, the file is in place and nothing is staged; and with two passwords the receiver's disk
is as it was. -/
theorem stack_refines {name transferId : String} {entries : List Entry} {fs₀ : Fs}
    (hsource : x.source = Stream.fileSource name entries x.content transferId) (hwf : fs₀.Wf)
    (hnone : fs₀.dirs (stagingDir (Stream.safeName name)) = false)
    (hattempts : Relation.ReflTransGen (StackAttempt X streamKey x) fs₀ fs) (hx : x.Exchanged P keyS keyR)
    (ht : x.Reaches X streamKey fs t) :
    x.Calls X streamKey True fs t.log t.progs ∧
      (∀ s desc, t.progs s = .ret desc → x.passwordS = x.passwordR ∧ x.Placed (t.hosts .right).host.disk) ∧
      (x.passwordS ≠ x.passwordR → (t.hosts .right).host.disk = fs) := by
  have hr := ht.refines
  have hcalls : Relation.ReflTransGen (CallAttempt X streamKey x) fs₀ fs :=
    hattempts.lift id fun _ _ h => StackAttempt.call h
  have hdisk : (t.hosts .right).host.disk = x.diskAfter X fs t.log := by
    rw [hr.hosts]
    rfl
  rw [hdisk]
  have hready := (stays_callAttempts hsource hwf hnone hcalls).ready
  exact ⟨hr.run, fun s desc hok => Meeting.placed_of_ret hsource hready hx hr.run hok,
    fun hne => Meeting.diskAfter_mismatch hx hne hr.run⟩

end stack

end Session
end B2p
