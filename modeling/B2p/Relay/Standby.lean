import B2p.Stream.Order
import B2p.Relay.Takeover

/-!
# A receiver that waits among strangers

The whole of `receive_relay_cli`: the loop, one call of `receive_relay` after the other, each with its
channel, in a room in which anybody may do anything. The strangers are the events of the room: they join
either role, take a role over, send what they like and leave, at any time. They cannot confirm a key and
cannot make a frame that opens under one. A sender that has confirmed a key runs `send_source` under it.

* `Standby`, `Standby.Step` — the loop, the room and the senders.
* `Undisturbed` — a transfer takes the sender's own frames, in order.
* `stops_only_excused` — the loop then returns an error only when its wait is over, or for a reason at its
  own end of a transfer with a sender that confirmed the key.
* `stranger_stops_receiver` — a stranger that takes the sender's role over ends it.
-/

namespace B2p

open Interaction Prog

/-! ## The channel of a visit -/

namespace Visit

/-- `ch.send`, on the client's channel. -/
def send (s : Visit) (f : Bytes) (stalled : Bool) : Option (Except Anyhow Unit × Visit) :=
  match s.client with
  | .up ws ch => (ch.send f stalled).map fun r => (r.1, { s with client := .up ws r.2 })
  | _ => none

/-- `ch.recv`, on the client's channel. -/
def recv (s : Visit) : Option (Except Anyhow Bytes × Visit) :=
  match s.client with
  | .up ws ch => ch.recv.map fun r => (r.1, { s with client := .up ws r.2 })
  | _ => none

variable {s v : Visit}

/-- What a channel returns is first in its queue. -/
theorem recv_eq_ok {f : Bytes} (h : s.recv = some (.ok f, v)) :
    ∃ ws ch rest, s.client = .up ws ch ∧ ch.inQueue = f :: rest := by
  unfold recv at h
  split at h
  · next ws ch hc =>
      obtain ⟨r, hr, heq⟩ := Option.map_eq_some_iff.mp h
      unfold RelayChannel.recv at hr
      split at hr
      · next f' rest hq =>
          cases hr
          cases heq
          exact ⟨ws, ch, rest, hc, hq⟩
      · split at hr
        · cases hr
          cases heq
        · cases hr
  · cases h

/-- A channel that has nothing to return any more is lost. -/
theorem recv_eq_error {e : Anyhow} (h : s.recv = some (.error e, v)) : ∃ cause, e = .transportLost cause := by
  unfold recv at h
  split at h
  · next ws ch hc =>
      obtain ⟨r, hr, heq⟩ := Option.map_eq_some_iff.mp h
      unfold RelayChannel.recv at hr
      split at hr
      · cases hr
        cases heq
      · split at hr
        · cases hr
          cases heq
          exact ⟨_, rfl⟩
        · cases hr
  · cases h

/-- A channel that refuses a frame is lost, or the frame is longer than the relay takes. -/
theorem send_eq_error {f : Bytes} {stalled : Bool} {e : Anyhow} (h : s.send f stalled = some (.error e, v)) :
    (∃ cause, e = .transportLost cause) ∨ MAX_LOGICAL_FRAME < f.length ∧ ∃ text, e = .msg text := by
  unfold send at h
  split at h
  · next ws ch hc =>
      obtain ⟨r, hr, heq⟩ := Option.map_eq_some_iff.mp h
      unfold RelayChannel.send at hr
      by_cases hf : f.length > MAX_LOGICAL_FRAME
      · rw [if_pos hf] at hr
        cases hr
        cases heq
        -- too long a frame is refused; every other error is a lost transport
        exact .inr ⟨hf, _, rfl⟩
      · rw [if_neg hf] at hr
        left
        repeat' split at hr
        all_goals cases hr
        all_goals cases heq
        all_goals exact ⟨_, rfl⟩
  · cases h

end Visit

/-! ## The loop -/

/-- What an invocation is given, and the libraries it runs on. -/
structure Setup where
  X : Externals
  P : PakeLib
  streamKey : P.SessionKey → Key
  parse : String → Option Control
  topic : String
  password : Bytes
  outDir : String

/-- What `receive_relay_cli` is doing. -/
inductive Standby.Phase (P : PakeLib) where
  /-- In `receive_relay`. -/
  | calling (p : Session.SessionProg P String)
  /-- In `handshake_over_channel`, from which `receive_relay` goes on with `k`. -/
  | shaking (p : HsProg P P.SessionKey) (k : Except Anyhow P.SessionKey → Session.SessionProg P String)
  | returned (out : Except Anyhow String)

/-- A sender under a key it has confirmed: what it sends, and what it has done so far. -/
structure Standby.Sending where
  source : Source
  done : List StreamAction

/-- The loop in its room. `receiving` is what it has done in a transfer under each stream key, `sending`
the sender that has confirmed this key. -/
structure Standby (P : PakeLib) where
  visit : Visit
  busyRetries : Nat
  phase : Standby.Phase P
  receiving : Key → List StreamAction
  sending : Key → Option Standby.Sending

namespace Standby

open Session

/-- What `connect` reports when `wait_peer` is over. -/
def timedOut : Anyhow := .msg "timed out waiting for the other side — is it running with the same code?"

/-- What `handshake_over_channel` reports when its deadline passes. -/
def elapsed : Anyhow := .msg "timed out during the key exchange — the other side stopped responding"

/-- What happens without the client's program: in the room, on the way, or in `io_task`. -/
def Elsewhere : VisitEvent → Prop
  | .room _ => True
  | .platform _ => True
  | .chan (.send _ _) => False
  | .chan .recv => False
  | .chan .close => False
  | .chan .drop => False
  | .chan _ => True
  | _ => False

section

variable (c : Setup)

/-- One attempt. -/
def attempt : SessionProg c.P String := receiveRelay c.X c.streamKey c.outDir

/-- Nobody has joined yet. -/
def start : Standby c.P where
  visit := .start
  busyRetries := 0
  phase := .calling (attempt c)
  receiving _ := []
  sending _ := none

/-- All that has been done under a key, on either side. -/
def under {P : PakeLib} (s : Standby P) (sk : Key) : List StreamAction :=
  s.receiving sk ++ ((s.sending sk).map Sending.done).getD []

/-- The frame opens at no nonce but one that it was sealed under. -/
def Authentic {P : PakeLib} (s : Standby P) (sk : Key) (ct : Bytes) : Prop :=
  ∀ d i pt, i < 2 ^ 64 → c.X.cipher.open_ sk d i [] ct = some pt →
    ∃ pt', (⟨.loc (.seal_ d i pt'), ct⟩ : StreamAction) ∈ s.under sk

/-- The answers to the operations of `receive_relay`. The handshake is answered by its own program. -/
inductive Answers (s : Standby c.P) : (o : Session.Op c.P) → Session.Op.Res o → Visit → Prop
  | paired {v : Visit} {ws : Nat} {ch : RelayChannel} (hv : s.visit.step c.parse .recv .wait = some v)
      (hc : v.client = .up ws ch) : Answers s .connect (.ok ()) v
  | closed {v : Visit} (hv : s.visit.step c.parse .recv .wait = some v) (hc : v.client = .gone) :
      Answers s .connect (.error (.waitClosed "room expired or relay restarted")) v
  /-- A socket error, the end of the stream, or a ping that cannot be sent. -/
  | dropped {v : Visit} (reason : String) (hv : s.visit.step c.parse .recv .giveUp = some v) :
      Answers s .connect (.error (.waitClosed reason)) v
  | expired {v : Visit} (hv : s.visit.step c.parse .recv .giveUp = some v) :
      Answers s .connect (.error timedOut) v
  | host {sk : Key} {o : HostOp} (r : o.Res) (hr : Stream.Hosts c.X sk ⟨.loc o, r⟩) :
      Answers s (.stream sk (.loc o)) r s.visit
  | sent {sk : Key} {f : Bytes} {stalled : Bool} {r : Except Anyhow Unit} {v : Visit}
      (hv : s.visit.send f stalled = some (r, v)) : Answers s (.stream sk (.send f)) r v
  | received {sk : Key} {r : Except Anyhow Bytes} {v : Visit} (hv : s.visit.recv = some (r, v))
      (ha : ∀ ct, r = .ok ct → s.Authentic c sk ct) : Answers s (.stream sk .recv) r v
  /-- Another frame, the end of the channel, or neither for ten seconds. -/
  | lingered {v : Visit} (hv : v = s.visit ∨ ∃ r, s.visit.recv = some (r, v)) : Answers s .linger () v
  | closing {v : Visit} (hv : s.visit.step c.parse .recv (.chan .close) = some v) :
      Answers s .close () v

/-- The answers to the operations of the handshake. What is drawn at random may be anything. -/
inductive HsAnswers (s : Standby c.P) : (o : HsOp c.P) → HsOp.Res o → Visit → Prop
  | started (password : Bytes) (identity : String) (msg : Bytes) :
      HsAnswers s (.start password identity) msg s.visit
  | tagged (key : c.P.SessionKey) (role : Pake.Role) :
      HsAnswers s (.confirm key role) (Pake.confirmation c.P key role) s.visit
  | sent {f : Bytes} {stalled : Bool} {r : Except Anyhow Unit} {v : Visit}
      (hv : s.visit.send f stalled = some (r, v)) : HsAnswers s (.send f) r v
  | received {r : Except Anyhow Bytes} {v : Visit} (hv : s.visit.recv = some (r, v)) :
      HsAnswers s .recv r v

variable {c}

/-- What a transfer does is kept under its key. -/
def record {P : PakeLib} (receiving : Key → List StreamAction) :
    (o : Session.Op P) → Session.Op.Res o → Key → List StreamAction
  | .stream sk o, r => Function.update receiving sk (receiving sk ++ [⟨o, r⟩])
  | _, _ => receiving

/-- The `match` of `receive_relay_cli`: return, or drop the channel and go round again. -/
def finish (s : Standby c.P) (r : Except Anyhow String) : Standby c.P :=
  match Receive.next s.busyRetries r with
  | .done desc => { s with phase := .returned (.ok desc) }
  | .again busyRetries _ => { s with
      visit := { Visit.start with room := s.visit.room }
      busyRetries := busyRetries
      phase := .calling (attempt c) }
  | .stop e => { s with phase := .returned (.error e) }

variable (c) in
/-- One step. A dial of the receiver's succeeds. A handshake yields only keys that a sender has confirmed,
and never the key of an earlier transfer. -/
inductive Step : Standby c.P → Standby c.P → Prop
  | outside {s : Standby c.P} {e : VisitEvent} {v : Visit} (he : Elsewhere e)
      (hv : s.visit.step c.parse .recv e = some v) : Step s { s with visit := v }
  | dial {s : Standby c.P} {k : Except Anyhow Unit → SessionProg c.P String} {v : Visit} {ws : Nat}
      (hp : s.phase = .calling (.step .connect k)) (hv : s.visit.step c.parse .recv .dial = some v)
      (hc : v.client = .waiting ws) : Step s { s with visit := v }
  /-- `connect` goes on waiting. -/
  | wait {s : Standby c.P} {k : Except Anyhow Unit → SessionProg c.P String} {v : Visit} {ws : Nat}
      (hp : s.phase = .calling (.step .connect k)) (hv : s.visit.step c.parse .recv .wait = some v)
      (hc : v.client = .waiting ws) : Step s { s with visit := v }
  | answer {s : Standby c.P} {o : Session.Op c.P} {k : Session.Op.Res o → SessionProg c.P String}
      {r : Session.Op.Res o} {v : Visit} (hp : s.phase = .calling (.step o k)) (h : Answers c s o r v) :
      Step s { s with visit := v, phase := .calling (k r), receiving := record s.receiving o r }
  | shake {s : Standby c.P} {k : Except Anyhow c.P.SessionKey → SessionProg c.P String} (budget : Nat)
      (hp : s.phase = .calling (.step .handshake k)) : Step s { s with
        phase := .shaking (Handshake.handshakeChannelInner budget c.topic c.password .receiver) k }
  | hsAnswer {s : Standby c.P} {o : HsOp c.P} {q : HsOp.Res o → HsProg c.P c.P.SessionKey}
      {k : Except Anyhow c.P.SessionKey → SessionProg c.P String} {r : HsOp.Res o} {v : Visit}
      (hp : s.phase = .shaking (.step o q) k) (h : HsAnswers c s o r v) :
      Step s { s with visit := v, phase := .shaking (q r) k }
  /-- The deadline of the handshake passes. -/
  | stalled {s : Standby c.P} {o : HsOp c.P} {q : HsOp.Res o → HsProg c.P c.P.SessionKey}
      {k : Except Anyhow c.P.SessionKey → SessionProg c.P String} (hp : s.phase = .shaking (.step o q) k) :
      Step s { s with phase := .calling (k (.error elapsed)) }
  | shaken {s : Standby c.P} {key : c.P.SessionKey}
      {k : Except Anyhow c.P.SessionKey → SessionProg c.P String}
      (hp : s.phase = .shaking (.ret key) k) (hconfirmed : (s.sending (c.streamKey key)).isSome)
      (hnew : s.receiving (c.streamKey key) = []) : Step s { s with phase := .calling (k (.ok key)) }
  | notShaken {s : Standby c.P} {e : Anyhow} {k : Except Anyhow c.P.SessionKey → SessionProg c.P String}
      (hp : s.phase = .shaking (.fail e) k) : Step s { s with phase := .calling (k (.error e)) }
  | finish {s : Standby c.P} {r : Except Anyhow String} (hp : s.phase = .calling (ofExcept r)) :
      Step s (s.finish r)
  /-- A sender has confirmed a key. -/
  | confirmed {s : Standby c.P} {sk : Key} (source : Source) (hnew : s.sending sk = none) :
      Step s { s with sending := Function.update s.sending sk (some ⟨source, []⟩) }
  /-- `send_source` goes on. -/
  | sends {s : Standby c.P} {sk : Key} {snd : Sending} {o : streamEffects.Op}
      {q : streamEffects.Res o → StreamProg String} {r : streamEffects.Res o} (hs : s.sending sk = some snd)
      (hf : Follows (Stream.sendSource c.X sk snd.source) snd.done (.step o q))
      (hr : Stream.Hosts c.X sk ⟨o, r⟩)
      (ha : ∀ ct, (⟨o, r⟩ : StreamAction) = ⟨.recv, .ok ct⟩ → s.Authentic c sk ct) : Step s { s with
        sending := Function.update s.sending sk (some { snd with done := snd.done ++ [⟨o, r⟩] }) }

end

/-! ## What the loop may stop with -/

section

variable {c : Setup} {s s' : Standby c.P}

/-- **Nobody breaks into a transfer**: the frame that it takes next is the next one of its sender. -/
def Undisturbed (s : Standby c.P) : Prop :=
  ∀ sk k ws ch f rest, s.phase = .calling (.step (.stream sk .recv) k) →
    s.visit.client = .up ws ch → ch.inQueue = f :: rest →
    ∃ snd, s.sending sk = some snd ∧ got (s.receiving sk) ++ [f] <+: sent snd.done

/-- **The errors that a waiting receiver may stop with**: the end of the wait, and what a sender that has
confirmed the key has brought about, at the receiver's own end of their transfer. -/
inductive Stops (s : Standby c.P) : Anyhow → Prop
  | timedOut : Stops s (.establish timedOut)
  | transfer {sk : Key} {snd : Sending} {e : Anyhow} (hs : s.sending sk = some snd)
      (hf : Follows (Stream.recvInto c.X sk c.outDir) (s.receiving sk) (.fail e)) (hx : Stream.Excused e) :
      Stops s e
  /-- The reply to this sender is longer than the relay takes. -/
  | tooLong {sk : Key} {snd : Sending} {f : Bytes} {text : String} (hs : s.sending sk = some snd)
      (hlong : MAX_LOGICAL_FRAME < f.length)
      (hsend : (⟨.send f, .error (.msg text)⟩ : StreamAction) ∈ s.receiving sk) : Stops s (.msg text)

/-- An error after which the loop goes round again. -/
def Rearms (e : Anyhow) : Prop := ∀ n, ∃ m pause, Receive.next n (.error e) = .again m pause

theorem rearms_transportLost {e cause : Anyhow} (h : e.root = .transportLost cause) : Rearms e := by
  intro n
  refine ⟨0, 0, ?_⟩
  simp [Receive.next, h]

theorem rearms_waitClosed {e : Anyhow} {reason : String} (h : e.root = .waitClosed reason) : Rearms e := by
  intro n
  refine ⟨0, 0, ?_⟩
  simp [Receive.next, h]

theorem rearms_codeMismatch {e : Anyhow} (h : e.root = .codeMismatch) : Rearms e := by
  intro n
  refine ⟨0, 2, ?_⟩
  simp [Receive.next, h]

/-- **A handshake never ends the loop**, whatever it fails with. -/
theorem rearms_peersDoing (e : Anyhow) : Rearms (peersDoing e) := by
  unfold peersDoing
  split
  · next h => exact rearms_codeMismatch h
  · next cause h => exact rearms_transportLost h
  · exact rearms_transportLost rfl

/-- The loop stops with the error of the attempt. -/
theorem next_eq_stop {n : Nat} {r : Except Anyhow String} {e : Anyhow} (h : Receive.next n r = .stop e) :
    r = .error e := by
  cases r with
  | ok desc => cases h
  | error e' =>
      unfold Receive.next at h
      dsimp only at h
      repeat' split at h
      all_goals cases h
      all_goals rfl

/-! ## Under one key -/

/-- Only a lost channel refuses, or one that is given too long a frame. -/
def LostOnly : StreamAction → Prop
  | ⟨.send f, .error e⟩ =>
      (∃ cause, e = .transportLost cause) ∨ MAX_LOGICAL_FRAME < f.length ∧ ∃ text, e = .msg text
  | ⟨.recv, .error e⟩ => ∃ cause, e = .transportLost cause
  | _ => True

theorem lost_of_brokenOff {tr : List StreamAction} {e : Anyhow} (h : Stream.BrokenOff tr e)
    (hl : ∀ a ∈ tr, LostOnly a) : (∃ cause, e = .transportLost cause) ∨
      ∃ f text, MAX_LOGICAL_FRAME < f.length ∧ e = .msg text ∧ (⟨.send f, .error e⟩ : StreamAction) ∈ tr := by
  rcases h with h | ⟨f, h⟩
  · exact .inl (hl _ h)
  · rcases hl _ h with hlost | ⟨hlong, text, htext⟩
    · exact .inl hlost
    · exact .inr ⟨f, text, hlong, htext, h⟩

variable (c) in
/-- A sender beside what the receiver has done under its key. -/
structure Paired (sk : Key) (rtr : List StreamAction) (snd : Sending) : Prop where
  follows : ∃ q, Follows (Stream.sendSource c.X sk snd.source) snd.done q
  hosts : ∀ a ∈ snd.done, Stream.Hosts c.X sk a
  replies : ∀ ct pt, Stream.Took ct snd.done → c.X.cipher.open_ sk .streamToSender 0 [] ct = some pt →
    Stream.Sealed .streamToSender 0 pt rtr
  inOrder : got rtr <+: sent snd.done

variable (c) in
/-- What the receiver has done under a key, and whom it had as its sender. -/
structure Keyed (sk : Key) (rtr : List StreamAction) (snd? : Option Sending) : Prop where
  follows : ∃ q, Follows (Stream.recvInto c.X sk c.outDir) rtr q
  hosts : ∀ a ∈ rtr, Stream.Hosts c.X sk a
  lost : ∀ a ∈ rtr, LostOnly a
  idle : snd? = none → rtr = []
  paired : ∀ snd, snd? = some snd → Paired c sk rtr snd

section Keyed

variable {sk : Key} {rtr : List StreamAction} {snd : Sending}

theorem keyed_start (sk : Key) : Keyed c sk [] none := by
  refine ⟨⟨_, .nil _⟩, ?_, ?_, fun _ => rfl, ?_⟩
  · intro a ha
    cases ha
  · intro a ha
    cases ha
  · intro snd hs
    cases hs

/-- A sender confirms the key. -/
theorem Keyed.confirm (h : Keyed c sk rtr none) (source : Source) : Keyed c sk rtr (some ⟨source, []⟩) := by
  obtain rfl := h.idle rfl
  refine ⟨h.follows, h.hosts, h.lost, fun hs => ?_, ?_⟩
  · cases hs
  · rintro snd ⟨⟩
    refine ⟨⟨_, .nil _⟩, fun a ha => ?_, fun ct pt htook => ?_, List.nil_prefix⟩
    · cases ha
    · cases htook

/-- The receiver does one thing more. -/
theorem Keyed.receive (h : Keyed c sk rtr (some snd)) {a : StreamAction} {q : StreamProg String}
    (hf : Follows (Stream.recvInto c.X sk c.outDir) (rtr ++ [a]) q) (ha : Stream.Hosts c.X sk a)
    (hl : LostOnly a) (hin : got (rtr ++ [a]) <+: sent snd.done) : Keyed c sk (rtr ++ [a]) (some snd) := by
  refine ⟨⟨q, hf⟩, ?_, ?_, fun hs => ?_, ?_⟩
  · intro b hb
    rcases List.mem_append.mp hb with hb | hb
    · exact h.hosts b hb
    · rwa [List.mem_singleton.mp hb]
  · intro b hb
    rcases List.mem_append.mp hb with hb | hb
    · exact h.lost b hb
    · rwa [List.mem_singleton.mp hb]
  · cases hs
  · rintro _ ⟨⟩
    have hp := h.paired snd rfl
    exact ⟨hp.follows, hp.hosts,
      fun ct pt htook hopen => (hp.replies ct pt htook hopen).mono (List.subset_append_left _ _), hin⟩

/-- What the sender seals is for the receiver. -/
theorem not_mem_of_sender {source : Source} {tr : List StreamAction} {q : StreamProg String} {i : Nat}
    {pt ct : Bytes} (h : Follows (Stream.sendSource c.X sk source) tr q) :
    (⟨.loc (.seal_ .streamToSender i pt), ct⟩ : StreamAction) ∉ tr := by
  intro hmem
  have hbelow := (h.safe (Stream.keepsBelow_sendSource c.X sk source)).here
  have hdomain := (hbelow.sealed (.streamToSender, i) (List.mem_filterMap.mpr ⟨_, hmem, rfl⟩)).1
  cases hdomain

/-- The sender does one thing more. -/
theorem Keyed.send (h : Keyed c sk rtr (some snd)) {o : streamEffects.Op}
    {q : streamEffects.Res o → StreamProg String} {r : streamEffects.Res o}
    (hf : Follows (Stream.sendSource c.X sk snd.source) snd.done (.step o q))
    (hr : Stream.Hosts c.X sk ⟨o, r⟩)
    (ha : ∀ ct, (⟨o, r⟩ : StreamAction) = ⟨.recv, .ok ct⟩ → ∀ d i pt, i < 2 ^ 64 →
      c.X.cipher.open_ sk d i [] ct = some pt →
      ∃ pt', (⟨.loc (.seal_ d i pt'), ct⟩ : StreamAction) ∈ rtr ++ snd.done) :
    Keyed c sk rtr (some { snd with done := snd.done ++ [⟨o, r⟩] }) := by
  have hp := h.paired snd rfl
  refine ⟨h.follows, h.hosts, h.lost, fun hs => ?_, ?_⟩
  · cases hs
  -- what the sender has done grows by this action
  rintro _ ⟨⟩
  refine ⟨⟨q r, hf.append (.cons (.nil _))⟩, ?_, ?_, ?_⟩
  · intro a hmem
    rcases List.mem_append.mp hmem with hmem | hmem
    · exact hp.hosts a hmem
    · rwa [List.mem_singleton.mp hmem]
  · intro ct pt htook hopen
    rcases List.mem_append.mp htook with htook | htook
    · exact hp.replies ct pt htook hopen
    -- the reply opens, so one of the two has sealed it, and the sender seals nothing for itself
    obtain ⟨pt', hmem⟩ := ha ct (List.mem_singleton.mp htook).symm _ 0 pt (by decide) hopen
    rcases List.mem_append.mp hmem with hmem | hmem
    · have hct : ct = c.X.cipher.seal_ sk .streamToSender 0 [] pt' := h.hosts _ hmem
      rw [hct, Cipher.open_seal_, Option.some.injEq] at hopen
      exact ⟨ct, hopen ▸ hmem⟩
    · exact absurd hmem (not_mem_of_sender hf)
  · show got rtr <+: sent (snd.done ++ [⟨o, r⟩])
    rw [sent_append]
    exact hp.inOrder.trans (List.prefix_append _ _)

/-- **A transfer that fails under these terms** fails with the channel, or at the receiver's own end. -/
theorem Keyed.fails (h : Keyed c sk (s.receiving sk) (some snd)) (hs : s.sending sk = some snd) {e : Anyhow}
    (hf : Follows (Stream.recvInto c.X sk c.outDir) (s.receiving sk) (.fail e)) : Rearms e ∨ Stops s e := by
  have hp := h.paired snd rfl
  obtain ⟨q, hq⟩ := hp.follows
  rcases Stream.excused_of_inOrder hf hq h.hosts hp.hosts hp.replies hp.inOrder with hb | hx
  · rcases lost_of_brokenOff hb h.lost with ⟨cause, rfl⟩ | ⟨f, text, hlong, rfl, hsend⟩
    · exact .inl (rearms_transportLost rfl)
    · exact .inr (.tooLong hs hlong hsend)
  · exact .inr (.transfer hs hf hx)

end Keyed

/-! ## Where an attempt is -/

/-- What follows a transfer: nothing that can fail. -/
def ending {P : PakeLib} (desc : String) : SessionProg P String :=
  .step .linger fun _ => .step .close fun _ => .ret desc

/-- The operations of this part. -/
def Closing {P : PakeLib} : Session.Op P → Prop
  | .linger => True
  | .close => True
  | _ => False

variable (c) in
def afterHandshake (key : c.P.SessionKey) : SessionProg c.P String :=
  transfer (c.streamKey key) (Stream.recvInto c.X (c.streamKey key) c.outDir) >>= ending

variable (c) in
/-- What `receive_relay` does with the outcome of the handshake. -/
def resume (r : Except Anyhow c.P.SessionKey) : SessionProg c.P String :=
  ofExcept (r.mapError peersDoing) >>= afterHandshake c

variable (c) in
def afterConnect : SessionProg c.P String := .step .handshake (resume c)

variable (c) in
theorem attempt_eq : attempt c =
    .step .connect fun r => ofExcept (r.mapError unlessWaitClosed) >>= fun _ => afterConnect c := rfl

variable (s) in
/-- The points of an attempt, each with what is known there. -/
inductive Point (p : SessionProg c.P String) : Prop
  | connecting (h : p = attempt c)
  | paired (h : p = afterConnect c)
  | moving (sk : Key) (m : StreamProg String) (h : p = transfer sk m >>= ending)
      (hm : Follows (Stream.recvInto c.X sk c.outDir) (s.receiving sk) m) (snd : Sending)
      (hs : s.sending sk = some snd)
  | closing (ho : Only Closing p) (hf : FailsWith (fun _ => False) p)
  | failed (e : Anyhow) (h : p = .fail e) (he : Rearms e ∨ Stops s e)

variable (s) in
/-- What is known of the loop. -/
def At : Phase c.P → Prop
  | .calling p => Point s p
  | .shaking _ k => k = resume c
  | .returned out => ∀ e, out = .error e → Stops s e

theorem only_ending {P : PakeLib} (desc : String) :
    Only Closing (ending desc : SessionProg P String) :=
  ⟨trivial, fun _ => ⟨trivial, fun _ => trivial⟩⟩

theorem failsWith_ending {P : PakeLib} (desc : String) :
    FailsWith (fun _ => False) (ending desc : SessionProg P String) := fun _ _ => trivial

/-- Senders only go on. -/
def Onward (s s' : Standby c.P) : Prop :=
  ∀ sk snd, s.sending sk = some snd → ∃ snd', s'.sending sk = some snd'

theorem Stops.onward {e : Anyhow} (h : Stops s e) (hr : s'.receiving = s.receiving) (hs : Onward s s') :
    Stops s' e := by
  cases h with
  | timedOut => exact .timedOut
  | transfer hsnd hf hx =>
      obtain ⟨snd', hsnd'⟩ := hs _ _ hsnd
      exact .transfer hsnd' (hr ▸ hf) hx
  | tooLong hsnd hlong hsend =>
      obtain ⟨snd', hsnd'⟩ := hs _ _ hsnd
      exact .tooLong hsnd' hlong (hr ▸ hsend)

theorem Point.onward {p : SessionProg c.P String} (h : Point s p) (hr : s'.receiving = s.receiving)
    (hs : Onward s s') : Point s' p := by
  cases h with
  | connecting h => exact .connecting h
  | paired h => exact .paired h
  | moving sk m h hm snd hsnd =>
      obtain ⟨snd', hsnd'⟩ := hs _ _ hsnd
      exact .moving sk m h (hr ▸ hm) snd' hsnd'
  | closing ho hf => exact .closing ho hf
  | failed e h he => exact .failed e h (he.imp_right fun he => he.onward hr hs)

/-- What the others do leaves the loop where it is. -/
theorem At.onward {ph : Phase c.P} (h : At s ph) (hr : s'.receiving = s.receiving) (hs : Onward s s') :
    At s' ph := by
  cases ph with
  | calling p => exact Point.onward h hr hs
  | shaking p k => exact h
  | returned out => exact fun e he => (h e he).onward hr hs

/-! ## The invariant -/

/-- What holds of the loop as long as nobody breaks into a transfer. -/
structure Inv (s : Standby c.P) : Prop where
  keyed : ∀ sk, Keyed c sk (s.receiving sk) (s.sending sk)
  at_ : At s s.phase

theorem inv_start : Inv (start c) := ⟨keyed_start, Point.connecting rfl⟩

/-- A transfer does one thing more. -/
theorem Inv.transfer (h : Inv s) (hu : Undisturbed s) {sk : Key} {o : streamEffects.Op}
    {m : streamEffects.Res o → StreamProg String}
    (hp : s.phase = .calling (.step (.stream sk o) fun r => Session.transfer sk (m r) >>= ending))
    (hm : Follows (Stream.recvInto c.X sk c.outDir) (s.receiving sk) (.step o m)) {snd : Sending}
    (hs : s.sending sk = some snd) {r : streamEffects.Res o} {v : Visit}
    (ha : Answers c s (.stream sk o) r v) : Inv (c := c) { s with
      visit := v
      phase := .calling (Session.transfer sk (m r) >>= ending)
      receiving := Function.update s.receiving sk (s.receiving sk ++ [⟨o, r⟩]) } := by
  have hkey : Keyed c sk (s.receiving sk) (some snd) := hs ▸ h.keyed sk
  have hpaired := hkey.paired snd rfl
  have hfollows : Follows (Stream.recvInto c.X sk c.outDir) (s.receiving sk ++ [⟨o, r⟩]) (m r) :=
    hm.append (.cons (.nil _))
  -- what this answer adds to the trace of the key
  have hadds : Stream.Hosts c.X sk ⟨o, r⟩ ∧ LostOnly ⟨o, r⟩ ∧
      got (s.receiving sk ++ [⟨o, r⟩]) <+: sent snd.done := by
    have hsame : got [(⟨o, r⟩ : StreamAction)] = [] → got (s.receiving sk ++ [⟨o, r⟩]) <+: sent snd.done := by
      intro hgot
      rw [got_append, hgot, List.append_nil]
      exact hpaired.inOrder
    cases ha with
    | host r hr => exact ⟨hr, trivial, hsame rfl⟩
    | @sent _ f stalled r _ hv =>
        refine ⟨trivial, ?_, hsame rfl⟩
        cases r with
        | ok u => trivial
        | error e => exact Visit.send_eq_error hv
    -- a frame is the next of the sender's: nobody disturbs the transfer
    | @received _ r _ hv _ =>
        cases r with
        | error e => exact ⟨trivial, Visit.recv_eq_error hv, hsame rfl⟩
        | ok f =>
            obtain ⟨ws, ch, rest, hc, hq⟩ := Visit.recv_eq_ok hv
            obtain ⟨snd', hsnd', hin⟩ := hu sk _ ws ch f rest hp hc hq
            obtain rfl : snd = snd' := Option.some.inj (hs.symm.trans hsnd')
            exact ⟨trivial, trivial, (got_append _ _).symm ▸ hin⟩
  -- only the trace of this key has grown
  refine ⟨fun sk' => ?_, Point.moving sk (m r) rfl ?_ snd hs⟩
  · by_cases hsk : sk' = sk
    · subst hsk
      show Keyed c sk' (Function.update s.receiving sk' _ sk') (s.sending sk')
      rw [Function.update_self, hs]
      exact hkey.receive hfollows hadds.1 hadds.2.1 hadds.2.2
    · show Keyed c sk' (Function.update s.receiving sk _ sk') (s.sending sk')
      rw [Function.update_of_ne hsk]
      exact h.keyed sk'
  · show Follows _ (Function.update s.receiving sk _ sk) _
    rw [Function.update_self]
    exact hfollows

/-- A step outside a transfer. -/
theorem Inv.moved (h : Inv s) (hr : s'.receiving = s.receiving) (hs : s'.sending = s.sending)
    (hat : At s' s'.phase) : Inv s' := by
  refine ⟨fun sk => ?_, hat⟩
  rw [hr, hs]
  exact h.keyed sk

/-- What `receive_relay` does next. -/
theorem Inv.point (h : Inv s) {p : SessionProg c.P String} (hp : s.phase = .calling p) : Point s p := by
  have hat := h.at_
  rwa [hp] at hat

/-- **An answer to `receive_relay`.** -/
theorem Inv.answer (h : Inv s) (hu : Undisturbed s) {o : Session.Op c.P}
    {k : Session.Op.Res o → SessionProg c.P String} {r : Session.Op.Res o} {v : Visit}
    (hp : s.phase = .calling (.step o k)) (ha : Answers c s o r v) : Inv (c := c) { s with
      visit := v
      phase := .calling (k r)
      receiving := record s.receiving o r } := by
  cases h.point hp with
  -- the wait for a sender: paired, or one of the failures that re-arm
  | connecting hat =>
      rw [attempt_eq] at hat
      cases hat
      cases ha with
      | paired => exact h.moved rfl rfl (Point.paired rfl)
      | closed => exact h.moved rfl rfl (Point.failed (.waitClosed _) rfl (.inl (rearms_waitClosed rfl)))
      | dropped => exact h.moved rfl rfl (Point.failed (.waitClosed _) rfl (.inl (rearms_waitClosed rfl)))
      | expired => exact h.moved rfl rfl (Point.failed (.establish timedOut) rfl (.inr .timedOut))
  | paired hat =>
      rw [afterConnect] at hat
      cases hat
      cases ha
  | moving sk m hat hm snd hs =>
      cases m with
      | ret desc =>
          -- the transfer is over, and what comes after it cannot fail
          cases hat
          exact h.moved rfl rfl (Point.closing ((only_ending desc).2 r) (failsWith_ending desc r))
      | fail e => cases hat
      | step o m =>
          cases hat
          exact h.transfer hu hp hm hs ha
  -- lingering and closing
  | closing ho hf =>
      have hsame : record s.receiving o r = s.receiving := by
        cases o with
        | stream sk o => exact ho.1.elim
        | _ => rfl
      exact h.moved hsame rfl (Point.closing (ho.2 r) (hf r))
  | failed e hat => cases hat

/-- Where an attempt fails, the loop goes round again or has a reason to stop. -/
theorem Point.of_fail {e : Anyhow} (hkeyed : ∀ sk, Keyed c sk (s.receiving sk) (s.sending sk))
    (h : Point s (.fail e)) : Rearms e ∨ Stops s e := by
  cases h with
  | failed e' hat he =>
      cases hat
      exact he
  | moving sk m hat hm snd hs =>
      cases m with
      | fail e' =>
          cases hat
          have hkey : Keyed c sk (s.receiving sk) (some snd) := hs ▸ hkeyed sk
          exact hkey.fails hs hm
      | ret desc => cases hat
      | step o m => cases hat
  | closing ho hf => exact hf.elim
  | connecting hat => cases hat
  | paired hat => cases hat

/-- **The end of an attempt**: the loop goes round again, or stops with an error it may stop with. -/
theorem Inv.finish (h : Inv s) {r : Except Anyhow String} (hp : s.phase = .calling (ofExcept r)) :
    Inv (s.finish r) := by
  cases hnext : Receive.next s.busyRetries r with
  | done desc =>
      rw [Standby.finish, hnext]
      refine h.moved rfl rfl fun e he => ?_
      cases he
  | again busyRetries pause =>
      rw [Standby.finish, hnext]
      exact h.moved rfl rfl (Point.connecting rfl)
  | stop e =>
      obtain rfl := next_eq_stop hnext
      rw [Standby.finish, hnext]
      refine h.moved rfl rfl fun e' he => ?_
      cases he
      -- an error that rearms would not have stopped it
      rcases (h.point hp).of_fail h.keyed with hr | hstops
      · obtain ⟨m, pause, hagain⟩ := hr s.busyRetries
        rw [hagain] at hnext
        cases hnext
      · exact hstops.onward rfl fun _ snd hs => ⟨snd, hs⟩

/-- The handshake is asked for once. -/
theorem Point.of_handshake {k : Except Anyhow c.P.SessionKey → SessionProg c.P String}
    (h : Point s (.step .handshake k)) : k = resume c := by
  cases h with
  | paired hat =>
      rw [afterConnect] at hat
      cases hat
      rfl
  | connecting hat =>
      rw [attempt_eq] at hat
      cases hat
  | moving sk m hat =>
      cases m with
      | ret desc => cases hat
      | fail e => cases hat
      | step o m => cases hat
  | closing ho => exact ho.1.elim
  | failed e hat => cases hat

/-- Where the handshake leaves off, `receive_relay` marks its errors and goes on to the transfer. -/
theorem Inv.of_shaking (h : Inv s) {p : HsProg c.P c.P.SessionKey}
    {k : Except Anyhow c.P.SessionKey → SessionProg c.P String} (hp : s.phase = .shaking p k) :
    k = resume c := by
  have hat := h.at_
  rwa [hp] at hat

/-- What a sender does under its key. -/
theorem Inv.sender (h : Inv s) {sk : Key} {snd : Sending} (hkey : Keyed c sk (s.receiving sk) (some snd)) :
    Inv (c := c) { s with sending := Function.update s.sending sk (some snd) } := by
  have hupdate : ∀ sk', (Function.update s.sending sk (some snd)) sk' =
      if sk' = sk then some snd else s.sending sk' := fun sk' => Function.update_apply _ _ _ _
  refine ⟨fun sk' => ?_, h.at_.onward rfl fun sk' snd' hs => ?_⟩
  · show Keyed c sk' (s.receiving sk') (Function.update s.sending sk (some snd) sk')
    rw [hupdate]
    split
    · next hsk =>
        subst hsk
        exact hkey
    · exact h.keyed sk'
  · show ∃ snd', Function.update s.sending sk (some snd) sk' = some snd'
    rw [hupdate]
    split
    · exact ⟨snd, rfl⟩
    · exact ⟨snd', hs⟩

/-- **One step keeps the invariant.** -/
theorem Inv.step (h : Inv s) (hu : Undisturbed s) (hs : Step c s s') : Inv s' := by
  have hstay : ∀ v : Visit, Inv (c := c) { s with visit := v } := fun v =>
    h.moved rfl rfl (h.at_.onward rfl fun _ snd hs => ⟨snd, hs⟩)
  cases hs with
  -- what the relay and strangers do moves only the visit
  | outside he hv => exact hstay _
  | dial hp hv hc => exact hstay _
  | wait hp hv hc => exact hstay _
  | answer hp ha => exact h.answer hu hp ha
  | shake budget hp =>
      obtain rfl := (h.point hp).of_handshake
      exact h.moved rfl rfl rfl
  | hsAnswer hp ha =>
      obtain rfl := h.of_shaking hp
      exact h.moved rfl rfl rfl
  -- a handshake that fails, or takes too long, re-arms
  | stalled hp =>
      obtain rfl := h.of_shaking hp
      exact h.moved rfl rfl (Point.failed (peersDoing elapsed) rfl (.inl (rearms_peersDoing _)))
  | @notShaken e k hp =>
      obtain rfl := h.of_shaking hp
      exact h.moved rfl rfl (Point.failed (peersDoing e) rfl (.inl (rearms_peersDoing _)))
  | @shaken key k hp hconfirmed hnew =>
      obtain rfl := h.of_shaking hp
      obtain ⟨snd, hsnd⟩ := Option.isSome_iff_exists.mp hconfirmed
      -- a transfer begins, under a key that nothing has been received under
      refine h.moved rfl rfl (Point.moving (c.streamKey key) _ rfl ?_ snd hsnd)
      show Follows _ (s.receiving (c.streamKey key)) _
      rw [hnew]
      exact .nil _
  | finish hp => exact h.finish hp
  | @confirmed sk source hnew =>
      have hkey := h.keyed sk
      rw [hnew] at hkey
      exact h.sender (hkey.confirm source)
  -- what it received under the key was sealed by one of the two
  | @sends sk snd o q r hsnd hf hr ha =>
      have hkey := h.keyed sk
      rw [hsnd] at hkey
      refine h.sender (hkey.send hf hr fun ct hct d i pt hi hopen => ?_)
      have hmem := ha ct hct d i pt hi hopen
      rwa [under, hsnd] at hmem

variable (c) in
/-- A run that nobody disturbs. -/
abbrev UndisturbedRun : Standby c.P → Standby c.P → Prop :=
  Relation.ReflTransGen fun s s' => Undisturbed s ∧ Step c s s'

theorem inv_of_undisturbedRun (h : UndisturbedRun c (start c) s) : Inv s := by
  induction h with
  | refl => exact inv_start
  | tail _ hs ih => exact ih.step hs.1 hs.2

/-- **A stranger does not stop a waiting receiver**, as long as nobody breaks into a transfer: whatever
happens in the room, the loop returns an error only when its wait is over, or for a reason at its own end
of a transfer with a sender that has confirmed the key. -/
theorem stops_only_excused {e : Anyhow} (hrun : UndisturbedRun c (start c) s)
    (hret : s.phase = .returned (.error e)) : Stops s e := by
  have hat := (inv_of_undisturbedRun hrun).at_
  rw [hret] at hat
  exact hat e rfl

/-- Outside a transfer there is nothing to disturb. -/
theorem undisturbed_of_phase (h : ∀ sk o k, s.phase ≠ .calling (.step (.stream sk o) k)) : Undisturbed s := by
  intro sk k ws ch f rest hp
  exact absurd hp (h sk .recv k)

end

/-! ## An invocation -/

/-- A handshake that any message passes. -/
def easyLib : PakeLib := ⟨Unit, fun _ _ _ _ => .ok (), fun _ _ => []⟩

def easy : Setup where
  X := Stream.quietWorld
  P := easyLib
  streamKey _ := []
  parse _ := none
  topic := "otter"
  password := []
  outDir := "out"

/-- Somebody joins as the sender and stays silent; the receiver goes round again, and its wait is over. -/
theorem stops_only_excused_silent : ∃ s : Standby easy.P, UndisturbedRun easy (start easy) s ∧
    s.phase = .returned (.error (.establish timedOut)) ∧ Stops (c := easy) s (.establish timedOut) := by
  have hcalm : ∀ s : Standby easy.P, (∀ sk o k, s.phase ≠ .calling (.step (.stream sk o) k)) →
      Undisturbed (c := easy) s := fun s => undisturbed_of_phase
  have h₁ : UndisturbedRun easy (start easy) _ :=
    .single ⟨hcalm _ (fun _ _ _ h => by cases h), .dial rfl rfl rfl⟩
  have h₂ := h₁.tail ⟨hcalm _ (fun _ _ _ h => by cases h), .outside (e := Visit.senderJoins) trivial rfl⟩
  have h₃ := h₂.tail ⟨hcalm _ (fun _ _ _ h => by cases h), .answer rfl (.paired rfl rfl)⟩
  have h₄ := h₃.tail ⟨hcalm _ (fun _ _ _ h => by cases h), .shake 1 rfl⟩
  have h₅ := h₄.tail ⟨hcalm _ (fun _ _ _ h => by cases h), .stalled rfl⟩
  have h₆ := h₅.tail ⟨hcalm _ (fun _ _ _ h => by cases h), .finish (r := .error (peersDoing elapsed)) rfl⟩
  have h₇ := h₆.tail ⟨hcalm _ (fun _ _ _ h => by cases h), .dial rfl rfl rfl⟩
  have h₈ := h₇.tail ⟨hcalm _ (fun _ _ _ h => by cases h), .answer rfl (.expired rfl)⟩
  have h₉ := h₈.tail ⟨hcalm _ (fun _ _ _ h => by cases h), .finish (r := .error (.establish timedOut)) rfl⟩
  exact ⟨_, h₉, rfl, stops_only_excused h₉ rfl⟩

end Standby
end B2p
