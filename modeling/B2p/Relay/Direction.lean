import B2p.Relay.Channel

/-!
# One direction of a paired session

The frames of one direction pass through the sending half of one endpoint, the relay, and the receiving
half of the other; acknowledgments come back the other way. A step of an endpoint does one thing to its
sending half and one to its receiving half (`RelayChannel.moves`), so that each direction of a `Net` is
a system of its own (`Net.direction_step`), and what holds of it is proved on eleven plain rules and not
on the program.

* `SendHalf.Step`, `RecvHalf.Step` — the rules.
* `Direction` — a sending half, the payloads on the way, a receiving half, the acknowledgments on the
  way back.
* `Net.reachable_direction` — what every step of a direction keeps holds in every reachable state.
-/

namespace B2p

open Interaction Framing

/-- What an endpoint keeps about the frames it sends. -/
structure SendHalf where
  dead : Option String
  sent : Nat
  outQueue : List OutMsg
  acked : Nat
  pending : List Bytes
  accepted : List Bytes

/-- What an endpoint keeps about the frames it receives. -/
structure RecvHalf where
  dead : Option String
  app : AppEnd
  inQueue : List Bytes
  debatch : Debatcher
  consumed : Nat
  ackedOut : Nat
  closing : Bool
  phase : IoPhase
  taken : List Bytes
  received : List Bytes

@[reducible] def RelayChannel.sendHalf (e : RelayChannel) : SendHalf :=
  ⟨e.dead, e.sent, e.outQueue, e.acked, e.pending, e.accepted⟩

@[reducible] def RelayChannel.recvHalf (e : RelayChannel) : RecvHalf :=
  ⟨e.dead, e.app, e.inQueue, e.debatch, e.consumed, e.ackedOut, e.closing, e.phase, e.taken, e.received⟩

/-- The payloads among some messages. -/
def payloads (l : List WsMessage) : List Bytes :=
  l.filterMap fun
    | .binary b => some b
    | _ => none

/-- The acknowledgments among some messages. -/
def acks (l : List WsMessage) : List Nat :=
  l.filterMap fun
    | .text (.ack n) => some n
    | _ => none

theorem payloads_append (l l' : List WsMessage) : payloads (l ++ l') = payloads l ++ payloads l' :=
  List.filterMap_append

theorem acks_append (l l' : List WsMessage) : acks (l ++ l') = acks l ++ acks l' :=
  List.filterMap_append

/-- `SendHalf.Step h as h' as' ps`: a step from `h` with the acknowledgments `as` on the way to it, which
leaves `h'` and `as'` and puts the payloads `ps` on the way. -/
inductive SendHalf.Step (h : SendHalf) : List Nat → SendHalf → List Nat → List Bytes → Prop where
  | stutter (as) : Step h as h as []
  | accept (as) (f : Bytes) (hlen : f.length ≤ MAX_LOGICAL_FRAME) (hdead : h.dead = none)
      (hopen : h.sent - h.acked + f.length ≤ WINDOW ∨ h.sent - h.acked < ACK_EVERY) :
      Step h as { h with
        sent := h.sent + f.length
        outQueue := h.outQueue ++ [.frame f]
        accepted := h.accepted ++ [f] } as []
  | refuse (as) (f : Bytes) (hdead : h.dead ≠ none) :
      Step h as { h with sent := h.sent + f.length } as []
  | close (as) : Step h as { h with outQueue := h.outQueue ++ [.close] } as []
  | flush (as) {payload : Bytes} {rest : List Bytes}
      (hpack : packFrames h.pending = (some payload, rest)) :
      Step h as { h with pending := rest } as [payload]
  | take (as) {f : Bytes} {rest : List OutMsg} (hq : h.outQueue = .frame f :: rest) :
      Step h as { h with outQueue := rest, pending := h.pending ++ [f] } as []
  | takeClose (as) {rest : List OutMsg} (hq : h.outQueue = .close :: rest) :
      Step h as { h with outQueue := rest } as []
  | acked (n : Nat) (as) : Step h (n :: as) { h with acked := n } as []
  | die (as) (reason : String) (hdead : h.dead = none) :
      Step h as { h with dead := some reason } as []

/-- `RecvHalf.Step h ps h' ps' as`: a step from `h` with the payloads `ps` on the way to it, which leaves
`h'` and `ps'` and puts the acknowledgments `as` on the way back. -/
inductive RecvHalf.Step (h : RecvHalf) : List Bytes → RecvHalf → List Bytes → List Nat → Prop where
  | stutter (ps) : Step h ps h ps []
  | recv (ps) {f : Bytes} {rest : List Bytes} (hq : h.inQueue = f :: rest) (happ : h.app = .live) :
      Step h ps { h with inQueue := rest, received := h.received ++ [f] } ps []
  | close (ps) (happ : h.app = .live) : Step h ps { h with app := .closing } ps []
  | drop (ps) : Step h ps { h with app := .dropped, inQueue := [] } ps []
  | turn (ps) (phase : IoPhase) (c : Bool) (hphase : h.phase = .top ∨ h.phase = .draining)
      (hphase' : phase = .top ∨ phase = .draining ∧ c = false) (hc : h.closing = true → c = true) :
      Step h ps { h with phase := phase, closing := c } ps []
  | next {p : Bytes} (ps) {frames : List Bytes} {d : Debatcher} (hphase : h.phase = .top)
      (hclosing : h.closing = false) (hpush : h.debatch.push p = (.ok frames, d)) :
      Step h (p :: ps) { h with debatch := d, phase := .delivering frames } ps []
  | bad {p : Bytes} (ps) (reason : String) {err : Anyhow} {d : Debatcher} (hclosing : h.closing = false)
      (hpush : h.debatch.push p = (.error err, d)) :
      Step h (p :: ps) { h with dead := some reason } ps []
  | count (ps) {f : Bytes} {rest : List Bytes} (hphase : h.phase = .delivering (f :: rest)) :
      Step h ps { h with
        consumed := h.consumed + f.length
        phase := .offering f rest
        taken := h.taken ++ [f] } ps []
  | offer (ps) {f : Bytes} {rest : List Bytes} (hphase : h.phase = .offering f rest)
      (happ : h.app ≠ .dropped) :
      Step h ps { h with inQueue := h.inQueue ++ [f], phase := .delivering rest } ps []
  | gone (ps) {f : Bytes} {rest : List Bytes} (hphase : h.phase = .offering f rest)
      (happ : h.app = .dropped) :
      Step h ps { h with closing := true, phase := .delivering [] } ps []
  | ack (ps) (hphase : h.phase = .delivering []) (hdue : h.consumed - h.ackedOut ≥ ACK_EVERY) :
      Step h ps { h with ackedOut := h.consumed, phase := .top } ps [h.consumed]
  | noAck (ps) (hphase : h.phase = .delivering []) (hdue : ¬ h.consumed - h.ackedOut ≥ ACK_EVERY) :
      Step h ps { h with phase := .top } ps []
  | die (ps) (reason : String) : Step h ps { h with dead := some reason } ps []

namespace RelayChannel

/-! ## What a step of an endpoint does to its two halves -/

/-- A step of an endpoint, as a step of each half. -/
structure Moves (e : RelayChannel) (incoming : List WsMessage) (e' : RelayChannel)
    (incoming' out : List WsMessage) : Prop where
  send : e.sendHalf.Step (acks incoming) e'.sendHalf (acks incoming') (payloads out)
  recv : e.recvHalf.Step (payloads incoming) e'.recvHalf (payloads incoming') (acks out)

variable {e e' : RelayChannel} {incoming incoming' out : List WsMessage}

theorem moves_refl (e : RelayChannel) (incoming : List WsMessage) : Moves e incoming e incoming [] :=
  ⟨.stutter _, .stutter _⟩

theorem moves_die (hdead : e.dead = none) (reason : String) :
    Moves e incoming (e.die reason) incoming [] :=
  ⟨.die _ reason hdead, .die _ reason⟩

theorem moves_send {f : Bytes} {stalled : Bool} {res : Except Anyhow Unit}
    (h : e.send f stalled = some (res, e')) : Moves e incoming e' incoming [] := by
  rw [send] at h
  split at h
  · cases h
    exact moves_refl _ _
  · next hlen =>
      split at h
      · next hopen =>
          split at h
          -- the task is gone
          · next hdead =>
              cases h
              exact ⟨.refuse _ f (Option.isSome_iff_ne_none.mp hdead), .stutter _⟩
          · next hdead =>
              cases h
              exact ⟨.accept _ f (Nat.le_of_not_lt hlen) (by simpa using hdead) hopen, .stutter _⟩
      · split at h
        · cases h
          exact moves_refl _ _
        · split at h
          · cases h
            exact moves_refl _ _
          · cases h

theorem moves_recv {res : Except Anyhow Bytes} (happ : e.app = .live) (h : e.recv = some (res, e')) :
    Moves e incoming e' incoming [] := by
  rw [recv] at h
  split at h
  · next f rest hq =>
      cases h
      exact ⟨.stutter _, .recv _ hq happ⟩
  · split at h
    · cases h
      exact moves_refl _ _
    · cases h

theorem moves_appStep {a : Act} (h : e.appStep a = some e') : Moves e incoming e' incoming [] := by
  cases a with
  | send f stalled =>
      rw [appStep] at h
      split at h
      · obtain ⟨⟨res, e₁⟩, hsend, rfl⟩ := Option.map_eq_some_iff.mp h
        exact moves_send hsend
      · cases h
  | recv =>
      rw [appStep] at h
      split at h
      · next happ =>
          obtain ⟨⟨res, e₁⟩, hrecv, rfl⟩ := Option.map_eq_some_iff.mp h
          exact moves_recv happ hrecv
      · cases h
  | close =>
      rw [appStep] at h
      split at h
      · next happ =>
          cases h
          refine ⟨?_, .close _ happ⟩
          -- a close goes nowhere once the task is gone, but the program is done either way
          by_cases hdead : e.dead.isSome
          · simp only [sendHalf, hdead, if_true]
            exact .stutter _
          · simp only [sendHalf, hdead]
            exact .close _
      · cases h
  | drop =>
      rw [appStep] at h
      split at h
      · cases h
        exact ⟨.stutter _, .drop _⟩
      · cases h
  | _ => cases h

section io

variable (hdead : e.dead = none)

include hdead

theorem moves_flush {res : Except String Unit} (h : e.flush res = some (e', out)) :
    Moves e incoming e' incoming out := by
  rw [flush] at h
  split at h
  · next payload rest _ hpack =>
      cases res with
      | ok u =>
          cases h
          exact ⟨.flush _ hpack, .stutter _⟩
      | error err =>
          cases h
          exact moves_die hdead _
  · cases h

omit hdead in
theorem moves_take (h : e.take = some e') : Moves e incoming e' incoming [] := by
  rw [take] at h
  split at h
  · next hsel =>
      obtain ⟨hphase, -, hclosing⟩ := hsel
      split at h
      · next f rest hq =>
          cases h
          refine ⟨.take _ hq, ?_⟩
          -- for the receiving half, `io_task` only turns to draining
          have hturn := RecvHalf.Step.turn (h := e.recvHalf) (payloads incoming) .draining e.closing
            (.inl hphase) (.inr ⟨rfl, hclosing⟩) (fun h => h)
          exact hturn
      · next rest hq =>
          cases h
          have hturn := RecvHalf.Step.turn (h := e.recvHalf) (payloads incoming) e.phase true
            (.inl hphase) (.inl hphase) (fun _ => rfl)
          exact ⟨.takeClose _ hq, hturn⟩
      · split at h
        · cases h
          have hturn := RecvHalf.Step.turn (h := e.recvHalf) (payloads incoming) e.phase true
            (.inl hphase) (.inl hphase) (fun _ => rfl)
          exact ⟨.stutter _, hturn⟩
        · cases h
  · cases h

omit hdead in
theorem moves_tryRecv (h : e.tryRecv = some e') : Moves e incoming e' incoming [] := by
  rw [tryRecv] at h
  split at h
  · next hphase =>
      split at h
      · next f rest hq =>
          cases h
          exact ⟨.take _ hq, .stutter _⟩
      · next rest hq =>
          cases h
          have hturn := RecvHalf.Step.turn (h := e.recvHalf) (payloads incoming) .top true
            (.inr hphase) (.inl rfl) (fun _ => rfl)
          exact ⟨.takeClose _ hq, hturn⟩
      · cases h
        have hturn := RecvHalf.Step.turn (h := e.recvHalf) (payloads incoming) .top e.closing
          (.inr hphase) (.inl rfl) (fun h => h)
        exact ⟨.stutter _, hturn⟩
  · cases h

theorem moves_next (h : e.next incoming = some (e', incoming')) : Moves e incoming e' incoming' [] := by
  unfold next at h
  split at h
  · cases h
  · next m rest =>
      split at h
      · next hsel =>
          obtain ⟨hphase, -, hclosing⟩ := hsel
          cases h
          cases m with
          | binary b =>
              rw [handle]
              split
              · next frames d hpush => exact ⟨.stutter _, .next _ hphase hclosing hpush⟩
              · next err d hpush => exact ⟨.die _ _ hdead, .bad _ _ hclosing hpush⟩
          | text c =>
              cases c with
              | ack n => exact ⟨.acked n _, .stutter _⟩
              | peerLeft => exact ⟨.die _ _ hdead, .die _ _⟩
              | peerJoined => exact ⟨.stutter _, .stutter _⟩
              | pong => exact ⟨.stutter _, .stutter _⟩
          | close => exact ⟨.die _ _ hdead, .die _ _⟩
      · cases h

theorem moves_hangUp {err : Option String} (h : e.hangUp err = some e') :
    Moves e incoming e' incoming [] := by
  unfold hangUp at h
  split at h
  · cases err with
    | some err =>
        cases h
        exact moves_die hdead _
    | none =>
        cases h
        exact moves_die hdead _
  · cases h

omit hdead in
theorem moves_count (h : e.count = some e') : Moves e incoming e' incoming [] := by
  rw [count] at h
  split at h
  · next f rest hphase =>
      cases h
      exact ⟨.stutter _, .count _ hphase⟩
  · cases h

omit hdead in
theorem moves_offer (h : e.offer = some e') : Moves e incoming e' incoming [] := by
  rw [offer] at h
  split at h
  · next f rest hphase =>
      split at h
      · next happ =>
          cases h
          exact ⟨.stutter _, .gone _ hphase happ⟩
      · next happ =>
          split at h
          · cases h
            exact ⟨.stutter _, .offer _ hphase happ⟩
          · cases h
  · cases h

theorem moves_ack {ok : Bool} (h : e.ack ok = some (e', out)) : Moves e incoming e' incoming out := by
  rw [ack] at h
  split at h
  · next hphase =>
      split at h
      · next hdue =>
          split at h
          · cases h
            exact ⟨.stutter _, .ack _ hphase hdue⟩
          · cases h
            exact moves_die hdead _
      · next hdue =>
          cases h
          exact ⟨.stutter _, .noAck _ hphase hdue⟩
  · cases h

theorem moves_ioStep {a : Act} (h : e.ioStep incoming a = some (e', incoming', out)) :
    Moves e incoming e' incoming' out := by
  cases a with
  | flush res =>
      obtain ⟨⟨e₁, out₁⟩, h₁, heq⟩ := Option.map_eq_some_iff.mp h
      cases heq
      exact moves_flush hdead h₁
  | shut =>
      obtain ⟨e₁, h₁, heq⟩ := Option.map_eq_some_iff.mp h
      cases heq
      rw [shut] at h₁
      split at h₁
      · cases h₁
        exact moves_die hdead _
      · cases h₁
  | take =>
      obtain ⟨e₁, h₁, heq⟩ := Option.map_eq_some_iff.mp h
      cases heq
      exact moves_take h₁
  | tryRecv =>
      obtain ⟨e₁, h₁, heq⟩ := Option.map_eq_some_iff.mp h
      cases heq
      exact moves_tryRecv h₁
  | ping ok =>
      obtain ⟨e₁, h₁, heq⟩ := Option.map_eq_some_iff.mp h
      cases heq
      rw [ping] at h₁
      split at h₁
      · split at h₁
        · cases h₁
          exact moves_refl _ _
        · cases h₁
          exact moves_die hdead _
      · cases h₁
  | next =>
      obtain ⟨⟨e₁, inc₁⟩, h₁, heq⟩ := Option.map_eq_some_iff.mp h
      cases heq
      exact moves_next hdead h₁
  | hangUp err =>
      obtain ⟨e₁, h₁, heq⟩ := Option.map_eq_some_iff.mp h
      cases heq
      exact moves_hangUp hdead h₁
  | count =>
      obtain ⟨e₁, h₁, heq⟩ := Option.map_eq_some_iff.mp h
      cases heq
      exact moves_count h₁
  | offer =>
      obtain ⟨e₁, h₁, heq⟩ := Option.map_eq_some_iff.mp h
      cases heq
      exact moves_offer h₁
  | ack ok =>
      obtain ⟨⟨e₁, out₁⟩, h₁, heq⟩ := Option.map_eq_some_iff.mp h
      cases heq
      exact moves_ack hdead h₁
  | _ => cases h

end io

/-- **Every step of an endpoint is one step of each of its halves.** -/
theorem moves {a : Act} (h : e.step incoming a = some (e', incoming', out)) :
    Moves e incoming e' incoming' out := by
  rw [step] at h
  split at h
  · next e₁ happ =>
      cases h
      exact moves_appStep happ
  · split at h
    · next hdead => exact moves_ioStep hdead h
    · cases h

end RelayChannel

/-! ## Directions -/

/-- The frames of one side on their way to the other. -/
structure Direction where
  tx : SendHalf
  payloads : List Bytes
  rx : RecvHalf
  acks : List Nat

/-- One of the two halves steps. -/
inductive Direction.Step (d : Direction) : Direction → Prop where
  | tx {tx' : SendHalf} {as' : List Nat} {ps : List Bytes} (h : d.tx.Step d.acks tx' as' ps) :
      Step d ⟨tx', d.payloads ++ ps, d.rx, as'⟩
  | rx {rx' : RecvHalf} {ps' : List Bytes} {as : List Nat} (h : d.rx.Step d.payloads rx' ps' as) :
      Step d ⟨d.tx, ps', rx', d.acks ++ as⟩

theorem Direction.Step.refl (d : Direction) : d.Step d := by
  have h := Direction.Step.tx (SendHalf.Step.stutter (h := d.tx) d.acks)
  rwa [List.append_nil] at h

namespace Net

/-- The direction from side `s` to its peer. -/
def direction (net : Net) (s : Side) : Direction :=
  ⟨(net.ends s).sendHalf, payloads (net.wire s.peer), (net.ends s.peer).recvHalf, acks (net.wire s)⟩

theorem peer_peer (s : Side) : s.peer.peer = s := by cases s <;> rfl

theorem peer_ne (s : Side) : s.peer ≠ s := by cases s <;> decide

theorem eq_or_eq_peer (s t : Side) : s = t ∨ s = t.peer := by
  cases s <;> cases t <;> decide

@[simp] theorem payloads_notice (n : RelayNotice) : payloads [n.toMessage] = [] := by cases n <;> rfl

@[simp] theorem acks_notice (n : RelayNotice) : acks [n.toMessage] = [] := by cases n <;> rfl

/-- **Each direction of a session is a system of its own.** -/
theorem direction_step {net net' : Net} {a : Act} (h : net.step a = some net') (s : Side) :
    (net.direction s).Step (net'.direction s) := by
  cases a with
  | move t a =>
      obtain ⟨⟨e', incoming', out⟩, hstep, rfl⟩ := Option.map_eq_some_iff.mp h
      have hmoves := RelayChannel.moves hstep
      rcases eq_or_eq_peer s t with rfl | rfl
      · -- the side that steps is the sending one
        have htx := Direction.Step.tx (d := net.direction s) hmoves.send
        simp only [direction, Function.update_self, Function.update_of_ne (peer_ne s),
          Function.update_of_ne (peer_ne s).symm, payloads_append] at htx ⊢
        exact htx
      · -- the side that steps is the receiving one
        have hrx := Direction.Step.rx (d := net.direction t.peer) (by
          rw [direction, peer_peer]
          exact hmoves.recv)
        simp only [direction, peer_peer, Function.update_self, Function.update_of_ne (peer_ne t),
          Function.update_of_ne (peer_ne t).symm, acks_append] at hrx ⊢
        exact hrx
  | relay t n =>
      cases h
      have hsame : (⟨net.ends, Function.update net.wire t (net.wire t ++ [n.toMessage])⟩ : Net).direction s
          = net.direction s := by
        rcases eq_or_eq_peer s t with rfl | rfl
        · simp [direction, acks_append, Function.update_of_ne (peer_ne s)]
        · simp [direction, payloads_append, peer_peer, Function.update_of_ne (peer_ne t)]
      rw [hsame]
      exact .refl _

/-- **What every step of a direction keeps holds in every reachable state.** -/
theorem reachable_direction {P : Direction → Prop} {net : Net} (h : net.Reachable)
    (hinit : ∀ s, P (Net.init.direction s)) (hstep : ∀ d d', P d → Direction.Step d d' → P d') (s : Side) :
    P (net.direction s) := by
  induction h with
  | init => exact hinit s
  | step _ hs ih => exact hstep _ _ ih (direction_step hs s)

end Net

end B2p
