import B2p.Session
import B2p.Lib.Stages
import B2p.Stream.Resume

/-!
# Two calls over one channel (`session.rs`)

`receive_relay` and `send_relay` from the moment both hold a channel: the handshake and the transfer over
it, one after the other, as programs that send, receive and work on their own host.

* `Call.over` — the program of a call over its channel; `receiveRelay_over`, `sendRelay_over` — the two,
  the transfer within them as it is on its own.
* `End`, `End.handle` — what a party starts with, and its local operations.
* `Meeting` — the two calls, their passwords and what they draw; `Meeting.Calls` — a run of them.
* `Meeting.reached_greeting` — the handshake of two honest ends runs to its end.
-/

namespace B2p

open Interaction Prog
open B2p.Stream (streamManifest)

namespace Session

/-! ## The calls over a channel -/

/-- What a call does besides talking. -/
inductive CallOp (P : PakeLib) where
  | start (password : Bytes) (identity : String)
  | confirm (key : P.SessionKey) (role : Pake.Role)
  /-- A local operation of the transfer under the stream key. -/
  | host (sk : Key) (o : HostOp)
  | linger
  | close

@[reducible] def CallOp.Res {P : PakeLib} : CallOp P → Type
  | .start _ _ => Bytes
  | .confirm _ _ => Bytes
  | .host _ o => o.Res
  | .linger => Unit
  | .close => Unit

abbrev callEffects (P : PakeLib) : Effects := ⟨CallOp P, CallOp.Res⟩

abbrev overEffects (P : PakeLib) : Effects := commEffects Bytes Anyhow (callEffects P)

abbrev OverProg (P : PakeLib) := Prog (overEffects P) Anyhow

abbrev OverAction (P : PakeLib) := CommAction Bytes Anyhow (callEffects P)

variable {P : PakeLib}

/-- An operation of the handshake over the channel. It neither subscribes nor reads from a stream. -/
def overHs : (o : HsOp P) → OverProg P o.Res
  | .subscribe _ => .ret (.ok ())
  | .start password identity => .step (.loc (.start password identity)) .ret
  | .confirm key role => .step (.loc (.confirm key role)) .ret
  | .send frame => .step (.send frame) .ret
  | .next => .ret none
  | .recv => .step .recv .ret

/-- `handshake_over_channel`. -/
def handshakeOver (budget : Nat) (topic : String) (password : Bytes) (role : Pake.Role) :
    OverProg P P.SessionKey :=
  (Handshake.handshakeChannelInner budget topic password role).interp overHs

/-- An operation of a call over its channel, which is there. -/
def overChannel (budget : Nat) (topic : String) (password : Bytes) (role : Pake.Role) :
    (o : Op P) → OverProg P o.Res
  | .connect => .ret (.ok ())
  | .handshake => (handshakeOver budget topic password role).attempt
  | .stream _ (.send msg) => .step (.send msg) .ret
  | .stream _ .recv => .step .recv .ret
  | .stream sk (.loc o) => .step (.loc (.host sk o)) .ret
  | .linger => .step (.loc .linger) .ret
  | .close => .step (.loc .close) .ret

/-- A call from the moment it has its channel. -/
def Call.over (X : Externals) (streamKey : P.SessionKey → Key) (budget : Nat) (topic : String)
    (password : Bytes) (c : Call) : OverProg P String :=
  (c.prog X streamKey).interp (overChannel budget topic password c.role)

/-- The transfer's local operations under the stream key. -/
def hosted (sk : Key) : Inside hostEffects (callEffects P) where
  op := .host sk
  res _ := Equiv.refl _

/-- A transfer within a call is the transfer. -/
theorem transfer_over {α : Type} (budget : Nat) (topic : String) (password : Bytes) (role : Pake.Role)
    (sk : Key) (p : StreamProg α) :
    (transfer sk p).interp (overChannel (P := P) budget topic password role) = p.within (hosted sk) := by
  induction p with
  | ret a => rfl
  | fail e => rfl
  | step o k ih =>
      cases o with
      | send m =>
          exact congrArg (Prog.step (E := overEffects P) (Comm.send m)) (funext fun r => ih r)
      | recv => exact congrArg (Prog.step (E := overEffects P) Comm.recv) (funext fun r => ih r)
      | loc o =>
          exact congrArg (Prog.step (E := overEffects P) (Comm.loc (CallOp.host sk o)))
            (funext fun r => ih r)

section calls

variable (X : Externals) (streamKey : P.SessionKey → Key) (budget : Nat) (topic : String)
  (password : Bytes)

/-- The end of `receive_relay`. -/
def afterReceive (desc : String) : OverProg P String :=
  .step (.loc .linger) fun _ => .step (.loc .close) fun _ => .ret desc

/-- The end of `send_relay`. -/
def afterSend (desc : String) : OverProg P String := .step (.loc .close) fun _ => .ret desc

theorem receiveRelay_over (outDir : String) :
    (Call.receiveRelay outDir).over X streamKey budget topic password =
      ((handshakeOver budget topic password .receiver).attempt >>= fun r =>
        ofExcept (r.mapError peersDoing) >>= fun key =>
          (Stream.recvInto X (streamKey key) outDir).within (hosted (streamKey key)) >>= afterReceive) := by
  show ((handshakeOver budget topic password .receiver).attempt >>= fun r =>
    ((ofExcept (r.mapError peersDoing) >>= fun key => transfer (streamKey key)
      (Stream.recvInto X (streamKey key) outDir) >>= fun desc => _) : SessionProg P String).interp _) = _
  refine congrArg (_ >>= ·) (funext fun r => ?_)
  rw [interp_bind, interp_ofExcept]
  refine congrArg (_ >>= ·) (funext fun key => ?_)
  rw [interp_bind, transfer_over]
  rfl

theorem sendRelay_over (source : Source) :
    (Call.sendRelay source).over X streamKey budget topic password =
      ((handshakeOver budget topic password .sender).attempt >>= fun r =>
        ofExcept (r.mapError establishUnlessRearmed) >>= fun key =>
          (Stream.sendSource X (streamKey key) source).within (hosted (streamKey key)) >>= afterSend) := by
  show ((handshakeOver budget topic password .sender).attempt >>= fun r =>
    ((ofExcept (r.mapError establishUnlessRearmed) >>= fun key => transfer (streamKey key)
      (Stream.sendSource X (streamKey key) source) >>= fun desc => _) : SessionProg P String).interp _) = _
  refine congrArg (_ >>= ·) (funext fun r => ?_)
  rw [interp_bind, interp_ofExcept]
  refine congrArg (_ >>= ·) (funext fun key => ?_)
  rw [interp_bind, transfer_over]
  rfl

end calls

/-! ## The handshake, end by end -/

/-- What a party starts with: the message it will draw, and its host. -/
structure End where
  draw : Bytes
  host : Host

/-- Its local operations. -/
def End.handle (X : Externals) : Handler (callEffects P) End
  | .start _ _, s => (s.draw, s)
  | .confirm key role, s => (Pake.confirmation P key role, s)
  | .host sk o, s => ((Host.handle X sk o s.host).1, { s with host := (Host.handle X sk o s.host).2 })
  | .linger, s => ((), s)
  | .close, s => ((), s)

theorem hosted_under (X : Externals) (sk : Key) :
    (hosted (P := P) sk).Under (Host.handle X sk) (End.handle X) End.host :=
  ⟨fun _ _ => rfl, fun _ _ => rfl⟩

open Handshake (KIND_PAKE KIND_CONFIRM roleByte other encodeFrame decodeFrame skipUntil recvKind sendFrame)

/-- What the readers report when their time is up. -/
def elapsed : Anyhow :=
  .msg "timed out during the key exchange — the other side stopped responding"

variable (P) in
/-- The exchange from the peer's message on. -/
def afterStart (budget : Nat) (topic : String) (password : Bytes) (role : Pake.Role) (own : Bytes) :
    HsProg P P.SessionKey := do
  let peerMsg ← recvKind elapsed budget KIND_PAKE (roleByte (other role))
  let key ← (ofExcept (Pake.finish P password topic own peerMsg) : HsProg P P.SessionKey)
  let tag ← (.step (.confirm key role) .ret : HsProg P Bytes)
  sendFrame (encodeFrame KIND_CONFIRM role tag)
  let peerConf ← recvKind elapsed budget KIND_CONFIRM (roleByte (other role))
  if Pake.verifyConfirmation P key (other role) peerConf then return key
  else .fail .codeMismatch

/-- The exchange from the peer's confirmation on. -/
def afterConfirm (budget : Nat) (role : Pake.Role) (key : P.SessionKey) : HsProg P P.SessionKey := do
  let peerConf ← recvKind elapsed budget KIND_CONFIRM (roleByte (other role))
  if Pake.verifyConfirmation P key (other role) peerConf then return key
  else .fail .codeMismatch

/-- How a handshake ends with the peer's confirmation. -/
def verified (key : P.SessionKey) (peerRole : Pake.Role) (mac : Bytes) : Except Anyhow P.SessionKey :=
  if Pake.verifyConfirmation P key peerRole mac then .ok key else .error .codeMismatch

section handshake

variable (X : Externals) (s : End) (budget : Nat)

theorem does_recvKind (role : Pake.Role) (kind : UInt8) {r : UInt8} (payload : Bytes)
    (hrole : r = roleByte (other role)) :
    Does (End.handle X) s [kind :: r :: payload]
      ((recvKind elapsed (budget + 1) kind (roleByte (other role)) : HsProg P Bytes).interp overHs)
      [⟨.recv, .ok (kind :: r :: payload)⟩] (.ret payload) s := by
  refine .recv ?_
  show Does _ _ _ ((if kind = kind ∧ r = roleByte (other role) then (.ret payload : HsProg P Bytes)
    else _).interp overHs) _ _ _
  rw [if_pos ⟨rfl, hrole⟩]
  exact .nil _ _

theorem does_start (topic : String) (password : Bytes) (role : Pake.Role) :
    Does (End.handle X) s [] (handshakeOver (P := P) budget topic password role)
      [⟨.loc (.start password (Pake.identity topic)), s.draw⟩,
        ⟨.send (encodeFrame KIND_PAKE role s.draw), .ok ()⟩]
      ((afterStart P budget topic password role s.draw).interp overHs) s :=
  .loc (.send (.nil _ _))

theorem does_confirm (role : Pake.Role) {topic : String} {password own peer : Bytes} {key : P.SessionKey}
    (hfin : Pake.finish P password topic own peer = .ok key) :
    Does (End.handle X) s [encodeFrame KIND_PAKE (other role) peer]
      ((afterStart P (budget + 1) topic password role own).interp overHs)
      [⟨.recv, .ok (encodeFrame KIND_PAKE (other role) peer)⟩,
        ⟨.loc (.confirm key role), Pake.confirmation P key role⟩,
        ⟨.send (encodeFrame KIND_CONFIRM role (Pake.confirmation P key role)), .ok ()⟩]
      ((afterConfirm (budget + 1) role key).interp overHs) s := by
  have hread := does_recvKind (P := P) X s budget role KIND_PAKE peer rfl
  rw [afterStart, interp_bind]
  refine hread.bind.append ?_
  show Does _ _ _ ((ofExcept (Pake.finish P password topic own peer) >>= fun key => _
    : HsProg P P.SessionKey).interp overHs) _ _ _
  rw [hfin]
  exact .loc (.send (.nil _ _))

theorem does_verify (role : Pake.Role) (key : P.SessionKey) (mac : Bytes) :
    Does (End.handle X) s [encodeFrame KIND_CONFIRM (other role) mac]
      ((afterConfirm (budget + 1) role key).interp overHs)
      [⟨.recv, .ok (encodeFrame KIND_CONFIRM (other role) mac)⟩]
      (ofExcept (verified key (other role) mac)) s := by
  have hread := does_recvKind (P := P) X s budget role KIND_CONFIRM mac rfl
  rw [afterConfirm, interp_bind]
  refine hread.bind.append ?_
  show Does _ _ _ ((if Pake.verifyConfirmation P key (other role) mac then .ret key
    else .fail .codeMismatch : HsProg P P.SessionKey).interp overHs) _ _ _
  rw [verified]
  split
  · exact .nil _ _
  · exact .nil _ _

end handshake

/-! ## Both ends of it -/

/-- The two calls, on one topic, each with its password; and the messages they draw. -/
structure Meeting where
  topic : String
  source : Source
  outDir : String
  content : Bytes
  /-- The sender's password and message … -/
  passwordS : Bytes
  drawS : Bytes
  /-- … and the receiver's. -/
  passwordR : Bytes
  drawR : Bytes
  /-- There is time for so many frames and one more. -/
  budgetS : Nat
  budgetR : Nat

variable (P) in
/-- What SPAKE2 makes of two messages honestly drawn: a key at either end, one and the same for one
password; for two passwords, keys that do not confirm each other. -/
structure Meeting.Exchanged (x : Meeting) (keyS keyR : P.SessionKey) : Prop where
  sender : Pake.finish P x.passwordS x.topic x.drawS x.drawR = .ok keyS
  receiver : Pake.finish P x.passwordR x.topic x.drawR x.drawS = .ok keyR
  same : x.passwordS = x.passwordR → keyS = keyR
  apart : x.passwordS ≠ x.passwordR →
    ∀ role, Pake.confirmation P keyS role ≠ Pake.confirmation P keyR role

section meeting

variable (X : Externals) (streamKey : P.SessionKey → Key) (x : Meeting)

/-- The two programs, the sender on the left. -/
def Meeting.party : Side → OverProg P String :=
  pick (β := fun _ => OverProg P String)
    ((Call.sendRelay x.source).over X streamKey (x.budgetS + 1) x.topic x.passwordS)
    ((Call.receiveRelay x.outDir).over X streamKey (x.budgetR + 1) x.topic x.passwordR)

/-- What they start with, the receiver on the disk `fs`. -/
def Meeting.start (fs : Fs) : Side → End :=
  pick (β := fun _ => End) ⟨x.drawS, ⟨x.content, fs⟩⟩ ⟨x.drawR, ⟨x.content, fs⟩⟩

/-- A run of the two calls. -/
abbrev Meeting.Calls (lossy : Prop) (fs : Fs) (log : List (Side × OverAction P))
    (qs : Side → OverProg P String) : Prop :=
  Run (x.party X streamKey) (Prog.Fifo lossy (fun _ => End.handle X) (x.start fs)) log qs

/-- The receiver's disk after it. -/
def Meeting.diskAfter (fs : Fs) (log : List (Side × OverAction P)) : Fs :=
  (after (End.handle X) (x.start fs .right) (own .right log)).host.disk

/-- What either end does until its handshake is over. -/
def Meeting.greeting (keyS keyR : P.SessionKey) : Side → List (OverAction P) :=
  pick (β := fun _ => List (OverAction P))
    [⟨.loc (.start x.passwordS (Pake.identity x.topic)), x.drawS⟩,
      ⟨.send (encodeFrame KIND_PAKE .sender x.drawS), .ok ()⟩,
      ⟨.recv, .ok (encodeFrame KIND_PAKE .receiver x.drawR)⟩,
      ⟨.loc (.confirm keyS .sender), Pake.confirmation P keyS .sender⟩,
      ⟨.send (encodeFrame KIND_CONFIRM .sender (Pake.confirmation P keyS .sender)), .ok ()⟩,
      ⟨.recv, .ok (encodeFrame KIND_CONFIRM .receiver (Pake.confirmation P keyR .receiver))⟩]
    [⟨.loc (.start x.passwordR (Pake.identity x.topic)), x.drawR⟩,
      ⟨.send (encodeFrame KIND_PAKE .receiver x.drawR), .ok ()⟩,
      ⟨.recv, .ok (encodeFrame KIND_PAKE .sender x.drawS)⟩,
      ⟨.loc (.confirm keyR .receiver), Pake.confirmation P keyR .receiver⟩,
      ⟨.send (encodeFrame KIND_CONFIRM .receiver (Pake.confirmation P keyR .receiver)), .ok ()⟩,
      ⟨.recv, .ok (encodeFrame KIND_CONFIRM .sender (Pake.confirmation P keyS .sender))⟩]

/-- What the sender does with the outcome of its handshake. -/
def sendOn (source : Source) (r : Except Anyhow P.SessionKey) : OverProg P String :=
  ofExcept (r.mapError establishUnlessRearmed) >>= fun key =>
    (Stream.sendSource X (streamKey key) source).within (hosted (streamKey key)) >>= afterSend

/-- … and the receiver. -/
def receiveOn (outDir : String) (r : Except Anyhow P.SessionKey) : OverProg P String :=
  ofExcept (r.mapError peersDoing) >>= fun key =>
    (Stream.recvInto X (streamKey key) outDir).within (hosted (streamKey key)) >>= afterReceive

variable {x}

/-- **The handshake of two honest ends runs to its end**, and leaves nothing in the queues. -/
theorem Meeting.reached_greeting {keyS keyR : P.SessionKey} (hx : x.Exchanged P keyS keyR) (fs : Fs) :
    Reached (x.party X streamKey) (fun _ => End.handle X) (x.start fs) (x.greeting keyS keyR)
      (pick (β := fun _ => OverProg P String)
        (sendOn X streamKey x.source (verified keyS .receiver (Pake.confirmation P keyR .receiver)))
        (receiveOn X streamKey x.outDir (verified keyR .sender (Pake.confirmation P keyS .sender)))) := by
  rw [Meeting.party, sendRelay_over, receiveRelay_over]
  have h₀ : Reached _ (fun _ => End.handle X) (x.start fs) _ (pick (β := fun _ => OverProg P String)
      ((handshakeOver (x.budgetS + 1) x.topic x.passwordS .sender).attempt >>= sendOn X streamKey x.source)
      ((handshakeOver (x.budgetR + 1) x.topic x.passwordR .receiver).attempt >>=
        receiveOn X streamKey x.outDir)) := Reached.init
  -- both send their message, the receiver reads the sender's and confirms, the sender likewise
  have h₁ := h₀.left (does_start X (x.start fs .left) (x.budgetS + 1) ..).attempt.bind List.nil_prefix
  have h₂ := h₁.right (does_start X (x.start fs .right) (x.budgetR + 1) ..).attempt.bind List.nil_prefix
  have h₃ := h₂.right (does_confirm X (x.start fs .right) x.budgetR .receiver hx.receiver).attempt.bind
    (List.prefix_refl _)
  have h₄ := h₃.left (does_confirm X (x.start fs .left) x.budgetS .sender hx.sender).attempt.bind ⟨_, rfl⟩
  have h₅ := h₄.left (does_verify X (x.start fs .left) x.budgetS .sender keyS _).attempt.bind
    (List.prefix_refl _)
  have h₆ := h₅.right (does_verify X (x.start fs .right) x.budgetR .receiver keyR _).attempt.bind
    (List.prefix_refl _)
  rw [attempt_ofExcept, attempt_ofExcept] at h₆
  exact h₆

end meeting

end Session
end B2p
