import B2p.Handshake
import B2p.Receive

/-!
# One session (`session.rs`)

A call forms a connection, runs the handshake and moves one payload. The four functions differ in the
order of the first two, in which party they play, and in how they mark the errors on the way: the
loop of `Receive` goes by these marks.
-/

namespace B2p

open Interaction Prog

namespace Session

/-- The steps of a call. What the transfer does is marked with the stream key it works under. -/
inductive Op (P : PakeLib) where
  /-- `relay::connect` or `webrtc::connect`. -/
  | connect
  /-- `handshake` or `handshake_over_channel`. -/
  | handshake
  | stream (sk : Key) (o : streamEffects.Op)
  /-- Wait for the peer to close, ten seconds at most. -/
  | linger
  | close

@[reducible] def Op.Res {P : PakeLib} : Op P → Type
  | .connect => Except Anyhow Unit
  | .handshake => Except Anyhow P.SessionKey
  | .stream _ o => streamEffects.Res o
  | .linger => Unit
  | .close => Unit

abbrev effects (P : PakeLib) : Effects := ⟨Op P, Op.Res⟩

abbrev SessionProg (P : PakeLib) := Prog (effects P) Anyhow

abbrev SessionAction (P : PakeLib) := Action (effects P)

/-! ## The marks on errors -/

/-- `establish_unless_rearmed`. -/
def establishUnlessRearmed (e : Anyhow) : Anyhow :=
  match e.root with
  | .transportLost _ => e
  | .codeMismatch => e
  | _ => .establish e

/-- The `map_err` of `receive_relay` on `relay::connect`: the end of a wait passes through. -/
def unlessWaitClosed (e : Anyhow) : Anyhow :=
  match e.root with
  | .waitClosed _ => e
  | _ => .establish e

/-- The `match` of `receive_relay` on the handshake: whatever else went wrong was the peer's doing. -/
def peersDoing (e : Anyhow) : Anyhow :=
  match e.root with
  | .codeMismatch => e
  | .transportLost _ => e
  | _ => .transportLost e

/-! ## The four calls -/

section

variable {P : PakeLib}

def connect (mark : Anyhow → Anyhow) : SessionProg P Unit :=
  .step .connect fun r => ofExcept (r.mapError mark)

def handshake (mark : Anyhow → Anyhow) : SessionProg P P.SessionKey :=
  .step .handshake fun r => ofExcept (r.mapError mark)

/-- A transfer under the stream key `sk`. -/
def transfer {α : Type} (sk : Key) (p : StreamProg α) : SessionProg P α :=
  p.interp fun o => .step (.stream sk o) .ret

variable (X : Externals) (streamKey : P.SessionKey → Key)

/-- `receive_relay`. -/
def receiveRelay (outDir : String) : SessionProg P String := do
  connect unlessWaitClosed
  let key ← handshake peersDoing
  let desc ← transfer (streamKey key) (Stream.recvInto X (streamKey key) outDir)
  (.step .linger .ret : SessionProg P Unit)
  (.step .close .ret : SessionProg P Unit)
  return desc

/-- `send_relay`. -/
def sendRelay (source : Source) : SessionProg P String := do
  connect .establish
  let key ← handshake establishUnlessRearmed
  let desc ← transfer (streamKey key) (Stream.sendSource X (streamKey key) source)
  (.step .close .ret : SessionProg P Unit)
  return desc

/-- `receive_p1`. -/
def receiveP1 (outDir : String) : SessionProg P String := do
  let key ← handshake .establish
  connect .establish
  let desc ← transfer (streamKey key) (Stream.recvInto X (streamKey key) outDir)
  (.step .linger .ret : SessionProg P Unit)
  return desc

/-- `send_p1`. -/
def sendP1 (source : Source) : SessionProg P String := do
  let key ← handshake .establish
  connect .establish
  transfer (streamKey key) (Stream.sendSource X (streamKey key) source)

end

/-- A call of one of the four. -/
inductive Call where
  | receiveRelay (outDir : String)
  | sendRelay (source : Source)
  | receiveP1 (outDir : String)
  | sendP1 (source : Source)

def Call.role : Call → Pake.Role
  | .receiveRelay _ => .receiver
  | .sendRelay _ => .sender
  | .receiveP1 _ => .receiver
  | .sendP1 _ => .sender

def Call.prog {P : PakeLib} (X : Externals) (streamKey : P.SessionKey → Key) : Call → SessionProg P String
  | .receiveRelay outDir => Session.receiveRelay X streamKey outDir
  | .sendRelay source => Session.sendRelay X streamKey source
  | .receiveP1 outDir => Session.receiveP1 X streamKey outDir
  | .sendP1 source => Session.sendP1 X streamKey source

end Session
end B2p
