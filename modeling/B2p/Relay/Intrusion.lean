import B2p.Relay.Standby

/-!
# A stranger in the sender's place

A socket that joins the sender's role gets the receiver's ear: from then on the receiver's channel returns
the frames that this socket sends. In a transfer the first one of them ends the attempt, and the loop with
it: a frame that does not open is no `TransportLost`.

* `Idle` — a receiver on a channel with nothing on the way, and the socket that it hears.
* `Idle.takeOver`, `Idle.deliver` — another socket takes the place, and what it sends is returned.
* `intruder_stops` — so a receiver that waits for a manifest can be stopped by anybody.
* `stranger_stops_receiver` — a whole run, from the first dial.
-/

namespace B2p

open Interaction Prog Framing

/-! ## A channel with nothing to do -/

/-- A channel with nothing in it, for which `n` bytes have been sent. -/
structure RelayChannel.Ready (ch : RelayChannel) (n : Nat) : Prop where
  app : ch.app = .live
  dead : ch.dead = none
  phase : ch.phase = .top
  pending : ch.pending = []
  closing : ch.closing = false
  debatch : ch.debatch = .empty
  inQueue : ch.inQueue = []
  sent : ch.sent = n

theorem RelayChannel.Ready.selecting {ch : RelayChannel} {n : Nat} (h : ch.Ready n) : ch.Selecting := by
  refine ⟨h.phase, ?_, h.closing⟩
  rw [h.pending]
  rfl

section

variable {ch : RelayChannel} {f : Bytes} {rest : List Bytes}

theorem RelayChannel.count_of_delivering (h : ch.phase = .delivering (f :: rest)) :
    ch.count = some { ch with
      consumed := ch.consumed + f.length
      phase := .offering f rest
      taken := ch.taken ++ [f] } := by
  simp [RelayChannel.count, h]

theorem RelayChannel.offer_of_offering (h : ch.phase = .offering f rest) (happ : ch.app = .live)
    (hroom : ch.inQueue.length < IN_CAPACITY) :
    ch.offer = some { ch with inQueue := ch.inQueue ++ [f], phase := .delivering rest } := by
  simp [RelayChannel.offer, h, happ, hroom]

/-- An acknowledgment that is due is sent. -/
theorem RelayChannel.ack_of_delivered (h : ch.phase = .delivering []) :
    ∃ n out, ch.ack true = some ({ ch with ackedOut := n, phase := .top }, out) := by
  unfold RelayChannel.ack
  rw [if_pos h]
  split
  · exact ⟨_, _, rfl⟩
  · exact ⟨ch.ackedOut, _, rfl⟩

end

namespace Visit

/-- What happens without the client's program, any number of times. -/
abbrev Outside (parse : String → Option Control) : Visit → Visit → Prop :=
  Relation.ReflTransGen fun v v' => ∃ e, Standby.Elsewhere e ∧ v.step parse .recv e = some v'

/-- The client is up on an idle channel, and hears the socket `o`. -/
structure Idle (v : Visit) (o n : Nat) : Prop where
  up : ∃ ws ch, v.client = .up ws ch ∧ ch.Ready n ∧ (v.room.sockets .recv).head? = some ⟨ws, false⟩ ∧
    ws < v.room.next
  wire : v.wire = []
  listed : v.room.Listed .send o

section

variable {v v' : Visit} {parse : String → Option Control} {o n : Nat}

/-- A step of `io_task` that takes no message. -/
theorem outside_io {ws : Nat} {ch ch' : RelayChannel} (hc : v.client = .up ws ch) (hdead : ch.dead = none)
    {a : RelayChannel.Act} {out : List WsMessage}
    (h : ch.ioStep (v.wire.map Delivery.msg) a = some (ch', v.wire.map Delivery.msg, out))
    (ha : Standby.Elsewhere (.chan a)) (hnext : a ≠ .next) :
    Outside parse v { v with client := .up ws ch' } := by
  -- the action is one of the task
  have happ : ch.appStep a = none := by
    cases a with
    | send f stalled => exact ha.elim
    | recv => exact ha.elim
    | close => exact ha.elim
    | drop => exact ha.elim
    | _ => rfl
  have hstep : ch.step (v.wire.map Delivery.msg) a = some (ch', v.wire.map Delivery.msg, out) := by
    rw [RelayChannel.step, happ, ← h]
    exact if_pos hdead
  refine .single ⟨.chan a, ha, ?_⟩
  rw [step, hc]
  dsimp only
  unfold chanStep
  rw [hstep, Option.map_some]
  dsimp only
  rw [List.length_map, Nat.sub_self, List.drop_zero]
  split
  · exact absurd rfl hnext
  · rfl

variable (parse) in
/-- What the peer's socket sends is forwarded. -/
theorem posted_message {r : Room} {ws : Nat} (hl : r.Listed .send o)
    (hh : (r.sockets .recv).head? = some ⟨ws, false⟩) (b : Bytes) :
    (r.step (.message .send o (.binary b))).sockets = r.sockets ∧
      (r.step (.message .send o (.binary b))).next = r.next ∧
      posted parse r (.message .send o (.binary b)) ws = [⟨some o, .binary b⟩] := by
  have hstep : r.step (.message .send o (.binary b)) =
      { r with sent := (ws, .forwarded (.binary b)) :: r.sent } := by
    have hother : (r.sockets Role.send.other).head? = some ⟨ws, false⟩ := hh
    rw [Room.step, Room.handle_message hl, hother]
    rfl
  have hsent : (r.step (.message .send o (.binary b))).sent = [(ws, .forwarded (.binary b))] ++ r.sent := by
    rw [hstep]
    rfl
  exact ⟨by rw [hstep], by rw [hstep], posted_one parse hsent⟩

variable (parse) in
/-- `io_task` hands a frame on: it is counted, offered and, when that is due, acknowledged. -/
theorem outside_deliver {ws : Nat} {ch : RelayChannel} (hc : v.client = .up ws ch) {f : Bytes}
    (happ : ch.app = .live) (hdead : ch.dead = none) (hphase : ch.phase = .delivering [f])
    (hqueue : ch.inQueue = []) : ∃ consumed ackedOut taken, Outside parse v { v with
      client := .up ws { ch with
        consumed := consumed
        ackedOut := ackedOut
        taken := taken
        inQueue := [f]
        phase := .top } } := by
  -- `io_task` counts the frame, …
  have hcount := RelayChannel.count_of_delivering hphase
  obtain ⟨ch₁, hch₁⟩ : ∃ ch₁, some ch₁ = ch.count := ⟨_, hcount.symm⟩
  rw [hcount, Option.some.injEq] at hch₁
  have hphase₁ : ch₁.phase = .offering f [] := by rw [hch₁]
  have happ₁ : ch₁.app = .live := by rw [hch₁, happ]
  have hdead₁ : ch₁.dead = none := by rw [hch₁, hdead]
  have hqueue₁ : ch₁.inQueue = [] := by rw [hch₁, hqueue]
  -- … puts it into the queue, …
  obtain ⟨ch₂, hch₂⟩ : ∃ ch₂, ch₂ = { ch₁ with inQueue := [f], phase := .delivering [] } := ⟨_, rfl⟩
  have hoffer : ch₁.offer = some ch₂ := by
    rw [RelayChannel.offer_of_offering hphase₁ happ₁ (by rw [hqueue₁]; decide), hch₂, hqueue₁]
    rfl
  -- … and acknowledges it, if enough has come
  have hphase₂ : ch₂.phase = .delivering [] := by rw [hch₂]
  have hdead₂ : ch₂.dead = none := by rw [hch₂, hdead₁]
  obtain ⟨ackedOut, out, hack⟩ := RelayChannel.ack_of_delivered hphase₂
  have hio₁ : ch.ioStep (v.wire.map Delivery.msg) .count = some (ch₁, v.wire.map Delivery.msg, []) := by
    rw [RelayChannel.ioStep, hcount, hch₁]
    rfl
  have hio₂ : ch₁.ioStep (v.wire.map Delivery.msg) .offer = some (ch₂, v.wire.map Delivery.msg, []) := by
    rw [RelayChannel.ioStep, hoffer]
    rfl
  have hio₃ : ch₂.ioStep (v.wire.map Delivery.msg) (.ack true) =
      some ({ ch₂ with ackedOut := ackedOut, phase := .top }, v.wire.map Delivery.msg, out) := by
    rw [RelayChannel.ioStep, hack]
    rfl
  -- three steps in a row
  have h₁ : Outside parse v { v with client := .up ws ch₁ } :=
    outside_io hc hdead hio₁ trivial (fun h => by cases h)
  have h₂ : Outside parse { v with client := .up ws ch₁ } { v with client := .up ws ch₂ } :=
    outside_io (v := { v with client := .up ws ch₁ }) rfl hdead₁ hio₂ trivial (fun h => by cases h)
  have h₃ : Outside parse { v with client := .up ws ch₂ } { v with
      client := .up ws { ch₂ with ackedOut := ackedOut, phase := .top } } :=
    outside_io (v := { v with client := .up ws ch₂ }) rfl hdead₂ hio₃ trivial (fun h => by cases h)
  have hall := (h₁.trans h₂).trans h₃
  rw [hch₂, hch₁] at hall
  exact ⟨_, _, _, hall⟩

variable (parse) in
/-- What is left when `io_task` has taken a message that is one frame. -/
theorem outside_next {ws : Nat} {ch : RelayChannel} (hc : v.client = .up ws ch) (hready : ch.Ready n)
    {f : Bytes} (hf : f.length ≤ MAX_LOGICAL_FRAME)
    (hwire : v.wire = [⟨some o, .binary (encode [⟨false, f⟩])⟩]) :
    ∃ opened frames, Outside parse v { v with
      client := .up ws { ch with phase := .delivering [f] }
      wire := []
      frames := frames
      opened := opened } := by
  -- the message is one frame, uncut
  have hpush : ch.debatch.push (encode [⟨false, f⟩]) = (.ok [f], .empty) := by
    rw [hready.debatch]
    refine (push_encode ?_ ?_).trans ?_
    · intro p hp
      rw [List.mem_singleton.mp hp]
      exact Nat.lt_of_le_of_lt hf (by decide)
    · exact ⟨by simpa [Debatcher.empty] using hf, trivial⟩
    · simp [Debatcher.empty]
  have hnext : v.chanStep ws ch .next = some _ :=
    chanStep_binary hwire hready.dead hready.selecting hpush
  have hsame : { ch with debatch := .empty, phase := .delivering [f] } =
      { ch with phase := .delivering [f] } := by
    rw [← hready.debatch]
  rw [hsame] at hnext
  have hstep : v.step parse .recv (.chan .next) = v.chanStep ws ch .next := by rw [step, hc]
  exact ⟨_, _, .single ⟨.chan .next, trivial, hstep.trans hnext⟩⟩

variable (parse) in
/-- **The socket that is heard can make the channel return any frame**, and goes on being heard. -/
theorem Idle.deliver (h : Idle v o n) {f : Bytes} (hf : f.length ≤ MAX_LOGICAL_FRAME) :
    ∃ v₁ v₂, Outside parse v v₁ ∧ v₁.recv = some (.ok f, v₂) ∧ Idle v₂ o n := by
  obtain ⟨ws, ch, hc, hready, hh, hlt⟩ := h.up
  obtain ⟨hsockets, hnext, hposted⟩ := posted_message parse h.listed hh (encode [⟨false, f⟩])
  obtain ⟨va, hva⟩ : ∃ va : Visit, va = { v with
      room := v.room.step (.message .send o (.binary (encode [⟨false, f⟩])))
      wire := [⟨some o, .binary (encode [⟨false, f⟩])⟩] } := ⟨_, rfl⟩
  -- the stranger sends the frame, and the room forwards it
  have hsend : Outside parse v va := by
    refine .single ⟨.room (.message .send o (.binary (encode [⟨false, f⟩]))), trivial, ?_⟩
    rw [step, hva, h.wire, hc]
    dsimp only [Client.socket]
    rw [hposted]
    rfl
  have hca : va.client = .up ws ch := by rw [hva, hc]
  obtain ⟨opened, frames, htaken⟩ := outside_next parse hca hready hf (by rw [hva])
  obtain ⟨consumed, ackedOut, taken, hdelivered⟩ := outside_deliver parse
    (v := { va with
      client := .up ws { ch with phase := .delivering [f] }
      wire := []
      frames := frames
      opened := opened }) rfl hready.app hready.dead rfl hready.inQueue
  -- `io_task` has put it into the queue, and `recv` returns it
  refine ⟨_, _, (hsend.trans htaken).trans hdelivered, rfl, ?_⟩
  refine ⟨⟨ws, _, rfl, ?_, ?_, ?_⟩, rfl, ?_⟩
  · exact ⟨hready.app, hready.dead, rfl, hready.pending, hready.closing, hready.debatch, rfl, hready.sent⟩
  · show (va.room.sockets .recv).head? = some ⟨ws, false⟩
    rw [hva, hsockets, hh]
  · show ws < va.room.next
    rw [hva, hnext]
    exact hlt
  · show va.room.Listed .send o
    rw [Room.Listed, hva, hsockets]
    exact h.listed

/-- What the client sends is queued. -/
theorem Idle.send (h : Idle v o n) {f : Bytes} (hf : f.length ≤ MAX_LOGICAL_FRAME) (hn : n < ACK_EVERY) :
    ∃ v', v.send f false = some (.ok (), v') ∧ Idle v' o (n + f.length) := by
  obtain ⟨ws, ch, hc, hready, hh, hlt⟩ := h.up
  have hopen : ch.WindowOpen f.length := .inr (by rw [hready.sent]; omega)
  have hsend : ch.send f false = some (.ok (), { ch with
      sent := ch.sent + f.length
      outQueue := ch.outQueue ++ [.frame f]
      accepted := ch.accepted ++ [f] }) := by
    rw [RelayChannel.send, if_neg (Nat.not_lt.mpr hf), if_pos hopen, hready.dead]
    rfl
  refine ⟨_, by rw [Visit.send, hc]; dsimp only; rw [hsend]; rfl, ?_⟩
  refine ⟨⟨ws, _, rfl, ?_, hh, hlt⟩, h.wire, h.listed⟩
  exact ⟨hready.app, hready.dead, hready.phase, hready.pending, hready.closing, hready.debatch,
    hready.inQueue, by rw [← hready.sent]⟩

variable (parse) in
/-- **Anybody can take the sender's place**: a new socket of its role is the one that is heard. -/
theorem Idle.takeOver (h : Idle v o n) : ∃ v' o', Outside parse v v' ∧ Idle v' o' n := by
  obtain ⟨ws, ch, hc, hready, hh, hlt⟩ := h.up
  have hjoin : Room.joinRole (some "websocket") (some (roleText .send)) = some .send := rfl
  have hstep : v.room.step (joinEvent .send) = { v.room.joined .send with
      sent := (ws, .notice .peerJoined) :: (v.room.next, .notice .peerJoined) :: v.room.sent
      alarm := false } := by
    have hother : (v.room.sockets Role.send.other).head? = some ⟨ws, false⟩ := hh
    rw [Room.step, joinEvent, Room.handle_join v.room hjoin, hother]
    rfl
  have hsent : (v.room.step (joinEvent .send)).sent =
      [(ws, .notice .peerJoined), (v.room.next, .notice .peerJoined)] ++ v.room.sent := by
    rw [hstep]
    rfl
  have hposted : posted parse v.room (joinEvent .send) ws = [⟨none, .text .peerJoined⟩] :=
    posted_pair parse (Nat.ne_of_lt hlt).symm hsent
  obtain ⟨va, hva⟩ : ∃ va : Visit, va = { v with
      room := v.room.step (joinEvent .send)
      wire := [⟨none, .text .peerJoined⟩] } := ⟨_, rfl⟩
  -- a second sender joins, and both are told
  have hjoined : Outside parse v va := by
    refine .single ⟨.room (joinEvent .send), trivial, ?_⟩
    rw [step, hva, h.wire, hc]
    dsimp only [Client.socket]
    rw [hposted]
    rfl
  -- `io_task` ignores the notice
  have hnext : va.step parse .recv (.chan .next) = some { va with told := true, wire := [] } := by
    have hch : ch.step [.text .peerJoined] .next = some (ch, [], []) := by
      simp [RelayChannel.step, RelayChannel.appStep, RelayChannel.ioStep, RelayChannel.next, hready.dead,
        hready.selecting, RelayChannel.handle]
    rw [step, hva, hc]
    show Option.map _ (ch.step [.text .peerJoined] .next) = _
    rw [hch]
    rfl
  refine ⟨_, v.room.next, hjoined.trans (.single ⟨.chan .next, trivial, hnext⟩), ?_⟩
  have hsockets : va.room.sockets .recv = v.room.sockets .recv := by
    rw [hva, hstep]
    exact Room.joined_other v.room .send
  -- the receiver is as idle as before, with the newcomer for its peer
  refine ⟨⟨ws, ch, ?_, hready, ?_, ?_⟩, rfl, ?_⟩
  · rw [hva, hc]
  · rw [hsockets, hh]
  · show ws < va.room.next
    rw [hva, hstep]
    exact Nat.lt_succ_of_lt hlt
  · show va.room.Listed .send v.room.next
    refine ⟨⟨v.room.next, false⟩, ?_, rfl⟩
    rw [hva, hstep]
    show _ ∈ (v.room.joined .send).sockets .send
    rw [Room.joined_self]
    exact List.mem_append_right _ List.mem_cons_self

end

end Visit

/-! ## The end of the loop -/

namespace Standby

open Session

section

variable {c : Setup} {s : Standby c.P} {o n : Nat}

theorem outside_steps {v : Visit} (h : Visit.Outside c.parse s.visit v) :
    Relation.ReflTransGen (Step c) s { s with visit := v } := by
  induction h with
  | refl => exact .refl
  | tail _ hs ih =>
      obtain ⟨e, he, hv⟩ := hs
      exact ih.tail (.outside (s := { s with visit := _ }) he hv)

/-- What `recv_into` reports of a first frame that does not open. -/
def wrongCode : Anyhow :=
  .context "could not decrypt the manifest (wrong code?)" (.msg "frame failed to decrypt")

/-- It is none of the errors the loop may stop with. -/
theorem not_stops_wrongCode (s : Standby c.P) : ¬ Stops s wrongCode := by
  intro h
  cases h with
  | transfer hs hf hx =>
      cases hx with
      | disk hd =>
          obtain ⟨err, hd | ⟨text, hd⟩⟩ := hd
          · cases hd
          · cases hd

/-- A first frame that does not open ends the transfer. -/
theorem recvInto_of_closed {X : Externals} {sk : Key} (outDir : String) {f : Bytes}
    (h : X.cipher.open_ sk .streamToReceiver 0 [] f = none) :
    ∃ k, Stream.recvInto X sk outDir = .step .recv k ∧ k (.ok f) = .fail wrongCode := by
  have hopen : Stream.openVal X sk X.manifestJson .streamToReceiver 0 f
      = .error (.msg "frame failed to decrypt") := by
    rw [Stream.openVal, h]
  refine ⟨_, rfl, ?_⟩
  show ((ofExcept (Stream.withContext _ (Stream.openVal _ _ _ _ _ f)) >>= _) >>= _ : StreamProg String) = _
  rw [hopen]
  rfl

/-- **Anybody can stop a receiver that waits for a manifest**: whoever takes the sender's place sends a frame
that does not open, and the loop returns an error. -/
theorem intruder_stops (hidle : s.visit.Idle o n) {sk : Key}
    (hp : s.phase = .calling (transfer sk (Stream.recvInto c.X sk c.outDir) >>= ending)) {f : Bytes}
    (hf : f.length ≤ MAX_LOGICAL_FRAME) (hopen : ∀ d i, c.X.cipher.open_ sk d i [] f = none) :
    ∃ s', Relation.ReflTransGen (Step c) s s' ∧ s'.phase = .returned (.error wrongCode) := by
  obtain ⟨v₁, o', hout₁, hidle₁⟩ := hidle.takeOver c.parse
  obtain ⟨v₂, v₃, hout₂, hrecv, -⟩ := hidle₁.deliver c.parse hf
  -- another socket in the sender's place, and its frame in the receiver's channel
  have hout := outside_steps (s := s) (hout₁.trans hout₂)
  obtain ⟨k, hk, hfail⟩ := recvInto_of_closed c.outDir (hopen .streamToReceiver 0)
  have hp₂ : s.phase = .calling (.step (.stream sk .recv) fun r => transfer sk (k r) >>= ending) := by
    rw [hp, hk]
    rfl
  have hauthentic : ∀ ct, (.ok f : Except Anyhow Bytes) = .ok ct →
      Authentic c { s with visit := v₂ } sk ct := by
    rintro _ ⟨⟩ d i pt - hpt
    rw [hopen] at hpt
    cases hpt
  have htake := Step.answer (s := { s with visit := v₂ }) hp₂ (.received (r := .ok f) hrecv hauthentic)
  rw [hfail] at htake
  have hend := (hout.tail htake).tail (.finish (r := .error wrongCode) rfl)
  exact ⟨_, hend, rfl⟩

end

/-! ## From the first dial -/

section

variable {c : Setup} {s : Standby c.P} {o n : Nat} {f : Bytes}
  {k : Except Anyhow c.P.SessionKey → SessionProg c.P String}

variable (s) in
/-- In the handshake, about to do `p`, with nothing of a transfer done yet. -/
structure ShakingAt (p : HsProg c.P c.P.SessionKey) (k : Except Anyhow c.P.SessionKey → SessionProg c.P String)
    (o n : Nat) : Prop where
  phase : s.phase = .shaking p k
  idle : s.visit.Idle o n
  receiving : ∀ sk, s.receiving sk = []
  sending : ∀ sk, s.sending sk = none

theorem ShakingAt.send {q : Except Anyhow Unit → HsProg c.P c.P.SessionKey}
    (h : ShakingAt s (.step (.send f) q) k o n) (hf : f.length ≤ MAX_LOGICAL_FRAME) (hn : n < ACK_EVERY) :
    ∃ s', Relation.ReflTransGen (Step c) s s' ∧ ShakingAt s' (q (.ok ())) k o (n + f.length) := by
  obtain ⟨v, hsend, hidle⟩ := h.idle.send hf hn
  exact ⟨_, .single (.hsAnswer h.phase (.sent hsend)), rfl, hidle, h.receiving, h.sending⟩

theorem ShakingAt.recv {q : Except Anyhow Bytes → HsProg c.P c.P.SessionKey}
    (h : ShakingAt s (.step .recv q) k o n) (hf : f.length ≤ MAX_LOGICAL_FRAME) :
    ∃ s', Relation.ReflTransGen (Step c) s s' ∧ ShakingAt s' (q (.ok f)) k o n := by
  obtain ⟨v₁, v₂, hout, hrecv, hidle⟩ := h.idle.deliver c.parse hf
  have htake := Step.hsAnswer (s := { s with visit := v₁ }) h.phase (.received (r := .ok f) hrecv)
  exact ⟨_, (outside_steps hout).tail htake, rfl, hidle, h.receiving, h.sending⟩

theorem ShakingAt.start {password : Bytes} {identity : String} {q : Bytes → HsProg c.P c.P.SessionKey}
    (h : ShakingAt s (.step (.start password identity) q) k o n) (msg : Bytes) :
    ∃ s', Relation.ReflTransGen (Step c) s s' ∧ ShakingAt s' (q msg) k o n :=
  ⟨_, .single (.hsAnswer h.phase (.started password identity msg)), rfl, h.idle, h.receiving, h.sending⟩

theorem ShakingAt.confirm {key : c.P.SessionKey} {role : Pake.Role} {q : Bytes → HsProg c.P c.P.SessionKey}
    (h : ShakingAt s (.step (.confirm key role) q) k o n) :
    ∃ s', Relation.ReflTransGen (Step c) s s' ∧ ShakingAt s' (q (Pake.confirmation c.P key role)) k o n :=
  ⟨_, .single (.hsAnswer h.phase (.tagged key role)), rfl, h.idle, h.receiving, h.sending⟩

end

theorem easy_shakes {s : Standby easy.P} {k : Except Anyhow Unit → SessionProg easy.P String} {o : Nat}
    (h : ShakingAt (c := easy) s (Handshake.handshakeChannelInner 1 easy.topic easy.password .receiver) k o 0) :
    ∃ s', Relation.ReflTransGen (Step easy) s s' ∧ ShakingAt (c := easy) s' (.ret ()) k o 4 := by
  obtain ⟨s₁, h₁, hs₁⟩ := ShakingAt.start h []
  obtain ⟨s₂, h₂, hs₂⟩ := ShakingAt.send hs₁ (by decide) (by decide)
  obtain ⟨s₃, h₃, hs₃⟩ := ShakingAt.recv (f := [1, 1]) hs₂ (by decide)
  obtain ⟨s₄, h₄, hs₄⟩ := ShakingAt.confirm hs₃
  obtain ⟨s₅, h₅, hs₅⟩ := ShakingAt.send hs₄ (by decide) (by decide)
  obtain ⟨s₆, h₆, hs₆⟩ := ShakingAt.recv (f := [2, 1]) hs₅ (by decide)
  exact ⟨s₆, ((((h₁.trans h₂).trans h₃).trans h₄).trans h₅).trans h₆, hs₆⟩

/-- The receiver dials, hears of a sender, and begins its handshake. -/
theorem easy_pairs : ∃ s, Relation.ReflTransGen (Step easy) (start easy) s ∧ ShakingAt (c := easy) s
    (Handshake.handshakeChannelInner 1 easy.topic easy.password .receiver) (resume easy) 1 0 := by
  have h₁ : Step easy (start easy) _ := .dial rfl rfl rfl
  have h₂ := (Relation.ReflTransGen.single h₁).tail (.outside (e := Visit.senderJoins) trivial rfl)
  have h₃ := h₂.tail (.answer rfl (.paired rfl rfl))
  have h₄ := h₃.tail (.shake 1 rfl)
  have hup : RelayChannel.spawn.Ready 0 := ⟨rfl, rfl, rfl, rfl, rfl, rfl, rfl, rfl⟩
  refine ⟨_, h₄, rfl, ⟨⟨0, .spawn, rfl, hup, rfl, Nat.zero_lt_two⟩, rfl, ?_⟩, fun _ => rfl, fun _ => rfl⟩
  exact ⟨⟨1, false⟩, List.mem_singleton.mpr rfl, rfl⟩

/-- A frame that opens nowhere. -/
theorem garbage_closed (d : Domain) (i : Nat) : easy.X.cipher.open_ [] d i [] [7] = none :=
  Cipher.ideal_decrypt_of_short (by decide)

/-- **A stranger that takes the sender's role over stops the receiver**: a sender has confirmed the key, and
before its manifest arrives another socket takes its place and sends a byte. -/
theorem stranger_stops_receiver : ∃ s e, Relation.ReflTransGen (Step easy) (start easy) s ∧
    s.phase = .returned (.error e) ∧ ¬ Stops s e := by
  obtain ⟨s₁, h₁, hs₁⟩ := easy_pairs
  obtain ⟨s₂, h₂, hs₂⟩ := easy_shakes hs₁
  -- the sender has confirmed the key, and so has the receiver
  have hconfirmed := (h₁.trans h₂).tail (.confirmed Stream.greeting (hs₂.sending []))
  have hsome : (Function.update s₂.sending [] (some ⟨Stream.greeting, []⟩) []).isSome = true := by
    rw [Function.update_self]
    rfl
  have hshaken := hconfirmed.tail (.shaken hs₂.phase hsome (hs₂.receiving []))
  obtain ⟨s₃, h₃, hs₃⟩ := intruder_stops (c := easy) (s := { s₂ with
    sending := Function.update s₂.sending [] (some ⟨Stream.greeting, []⟩)
    phase := .calling (resume easy (.ok ())) }) hs₂.idle rfl (f := [7]) (by decide) garbage_closed
  exact ⟨s₃, wrongCode, hshaken.trans h₃, hs₃, not_stops_wrongCode s₃⟩

end Standby
end B2p
